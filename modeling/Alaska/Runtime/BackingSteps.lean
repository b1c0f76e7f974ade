import Alaska.Runtime.RelocationSteps

/-!
# Backing data

What the thread cache does to find a place for an object and to give it back: it changes
pages of the heap, and neither a mapping nor the table.
-/

namespace Alaska

open Memory Mapping

namespace Runtime

variable {rt rt' rt'' : Runtime} {objects : Objects} {held : Option Nat}
  {pending : Option Reservation} {m n tid cls size : Nat} {object : Object} {place : Place}

/-- The parts of the runtime that an operation of the heap leaves alone. -/
structure SameTable (rt rt' : Runtime) : Prop where
  table : rt'.table = rt.table
  mappings : rt'.store.mappings = rt.store.mappings
  huge : rt'.huge = rt.huge
  cacheCount : rt'.cacheCount = rt.cacheCount

namespace SameTable

theorem refl (rt : Runtime) : SameTable rt rt := ⟨rfl, rfl, rfl, rfl⟩

theorem trans (first : SameTable rt rt') (second : SameTable rt' rt'') : SameTable rt rt'' where
  table := second.table.trans first.table
  mappings := second.mappings.trans first.mappings
  huge := second.huge.trans first.huge
  cacheCount := second.cacheCount.trans first.cacheCount

theorem backing (same : SameTable rt rt') (p : Nat) : rt'.backing p = rt.backing p := by
  rw [Runtime.backing, Runtime.backing, same.mappings]

end SameTable

/-- Giving back the page a thread cache had before. -/
theorem putOldPage {h h' : Heap} {bytes : Bytes} (heap : h'.Invariant bytes)
    (extension : Heap.Extends h h') (old : Option Nat) :
    (h'.putOldPage old).Invariant bytes ∧ Heap.Extends h (h'.putOldPage old) ∧
      (h'.putOldPage old).pages = h'.pages ∧ (h'.putOldPage old).allocCount = h'.allocCount := by
  cases old with
  | none => exact ⟨heap, extension, rfl, rfl⟩
  | some n => exact ⟨heap.setOwner n none, extension.trans (Heap.Extends.setOwner _ _ _), rfl, rfl⟩

namespace Holds

/-- A thread cache takes other pages of an extended heap. -/
theorem takePage (holds : rt.Holds objects held pending) {heap' : Heap} {cache : ThreadCache}
    (heap : heap'.Invariant rt.store.bytes) (extension : Heap.Extends rt.heap heap')
    (slab : cache.handleSlab = (rt.caches tid).handleSlab)
    (classes : ∀ cls n, cache.sizeClasses cls = some n →
      (rt.caches tid).sizeClasses cls = some n ∨
        n < heap'.allocCount ∧ ∃ p, heap'.pages n = .sized p ∧ p.sizeClass = cls)
    (locality : ∀ n, cache.localityPage = some n →
      (rt.caches tid).localityPage = some n ∨
        n < heap'.allocCount ∧ ∃ p, heap'.pages n = .locality p) :
    Holds { rt with heap := heap', caches := Function.update rt.caches tid cache } objects held
      pending := by
  refine holds.extend extension heap fun other lt => ?_
  have before := (holds.caches other lt).evolve (Nat.le_refl _) extension.evolves
  by_cases equal : other = tid
  · subst equal
    rw [Function.update_self]
    refine ⟨slab ▸ before.slab, ?_, ?_⟩
    · intro cls n found
      rcases classes cls n found with kept | taken
      · exact before.classes cls n kept
      · exact taken
    · intro n found
      rcases locality n found with kept | taken
      · exact before.locality n kept
      · exact taken
  · rw [Function.update_of_ne equal]
    exact before

/-- `new_sized_page`. -/
theorem newSizedPage {result : Nat × Runtime} (holds : rt.Holds objects held pending)
    (class_lt : cls < numSizeClasses) (found : rt.newSizedPage tid cls = some result) :
    SameTable rt result.2 ∧ result.2.Holds objects held pending ∧
      result.1 < result.2.heap.allocCount ∧
      ∃ p, result.2.heap.pages result.1 = .sized p ∧ p.sizeClass = cls := by
  simp only [Runtime.newSizedPage, Option.bind_eq_bind, Option.bind_eq_some_iff, Prod.exists]
    at found
  rcases found with ⟨n, heap', search, rest⟩
  rcases holds.heap.getSizedpage class_lt search with ⟨heap, extension, lt, p, isSized, isClass⟩
  have owned := extension.trans (Heap.Extends.setOwner heap' n (some tid))
  rcases putOldPage (heap.setOwner n (some tid)) owned ((rt.caches tid).sizeClasses cls) with
    ⟨after, extended, pages, count⟩
  generalize Heap.putOldPage _ _ = heapAfter at rest after extended pages count
  split at rest
  swap
  · exact nomatch rest
  obtain rfl := Option.some.inj rest
  have isPage : n < heapAfter.allocCount := by
    rw [count]
    exact lt
  have kind := (congrFun pages n).trans isSized
  refine ⟨⟨rfl, rfl, rfl, rfl⟩, holds.takePage after extended rfl ?_ ?_, isPage, p, kind, isClass⟩
  · intro cls' n' found
    by_cases equal : cls' = cls
    · subst equal
      simp only [Function.update_self, Option.some.injEq] at found
      subst found
      exact Or.inr ⟨isPage, p, kind, isClass⟩
    · simp only [Function.update_of_ne equal] at found
      exact Or.inl found
  · exact fun _ found => Or.inl found

/-- `new_locality_page`: the page is new, or it has the required space. -/
theorem newLocalityPage {result : Nat × Runtime} (holds : rt.Holds objects held pending)
    (found : rt.newLocalityPage tid size = some result) :
    SameTable rt result.2 ∧ result.2.Holds objects held pending ∧
      Heap.Extends rt.heap result.2.heap ∧ result.1 < result.2.heap.allocCount ∧
      ∃ p, result.2.heap.pages result.1 = .locality p ∧
        ((∃ start, p = LocalityPage.create start) ∨
          (result.2.heap.available result.1 % 2 ^ 64).toNat ≥ size) := by
  simp only [Runtime.newLocalityPage, Option.bind_eq_bind, Option.bind_eq_some_iff, Prod.exists]
    at found
  rcases found with ⟨n, heap', search, rest⟩
  rcases holds.heap.getLocalitypage search with ⟨heap, extension, lt, ⟨p, isLocality⟩, space⟩
  rcases putOldPage heap extension (rt.caches tid).localityPage with
    ⟨after, extended, pages, count⟩
  generalize Heap.putOldPage _ _ = heapAfter at rest after extended pages count
  split at rest
  swap
  · exact nomatch rest
  obtain rfl := Option.some.inj rest
  have isPage : n < heapAfter.allocCount := by
    rw [count]
    exact lt
  have kind := (congrFun pages n).trans isLocality
  refine ⟨⟨rfl, rfl, rfl, rfl⟩, holds.takePage after extended rfl ?_ ?_, extended, isPage, p, kind, ?_⟩
  · exact fun _ _ found => Or.inl found
  · intro n' found
    obtain rfl := Option.some.inj found
    exact Or.inr ⟨isPage, p, kind⟩
  · rcases space with ⟨start, isNew⟩ | enough
    · exact Or.inl ⟨start, HeapPage.locality.inj (isLocality.symm.trans isNew)⟩
    · refine Or.inr ?_
      simp only [Heap.available, pages] at enough ⊢
      exact enough

/-- What an allocation on a page leaves: a reserved place with `room` bytes for `m`. -/
structure Reserved (rt' : Runtime) (objects : Objects) (held : Option Nat) (m room address : Nat)
    (place : Place) : Prop where
  holds : rt'.Holds objects held
    (some ⟨place, m, address, ⟨rt'.heap.room place, fun _ => none⟩⟩)
  room : room ≤ rt'.heap.room place
  sized : ∃ p, rt'.heap.pages place.page = .sized p
  pos : 0 < address

/-- `page->alloc(m, size)` on a sized page of the right class. -/
theorem sizedAlloc {result : Nat × Runtime} {p : SizedPage} (holds : rt.Holds objects held none)
    (inTable : InTable m) (size_pos : 0 < size) (small : shouldBeHugeObject size = false)
    (lt : n < rt.heap.allocCount) (isSized : rt.heap.pages n = .sized p)
    (isClass : p.sizeClass = sizeToClass size) (allocated : rt.sizedAlloc n m size = some result) :
    SameTable rt result.2 ∧
      (result.1 = 0 ∧ result.2.Holds objects held none ∨
        ∃ place, Reserved result.2 objects held m size result.1 place) := by
  have valid := holds.heap.valid n lt
  rw [isSized] at valid
  rcases valid with ⟨locals, remotes, bumped, pageHolds⟩
  simp only [Runtime.sizedAlloc, isSized] at allocated
  obtain rfl := Option.some.inj allocated
  have layout := pageHolds.layout
  rcases pageHolds.alloc m size with ⟨null, _, after, same, headers, store⟩ |
    ⟨index, locals', remotes', bumped', spec⟩
  · -- the page is full, and only its free lists change
    have changed : HeapPage.Changed (rt.heap.pages n) (.sized (p.alloc rt.store m size).page)
        p.capacity := by
      rw [isSized]
      exact HeapPage.changed_sized same fun other _ => congrFun headers other
    have unnamed : ∀ q : SizedPage, q.capacity = p.capacity →
        (HeapPage.sized q).named p.capacity = none := by
      intro q capacity
      simp [HeapPage.named, capacity]
    have heap : (rt.heap.setPage n (.sized (p.alloc rt.store m size).page)).Invariant
        (p.alloc rt.store m size).store.bytes := by
      rw [store]
      exact holds.heap.changed changed ⟨_, _, _, after⟩ fun _ _ => rfl
    have step := holds.heapStep lt changed heap (congrArg Store.mappings store)
    refine ⟨⟨rfl, congrArg Store.mappings store, rfl, rfl⟩, Or.inl ⟨null, holds.idle step ?_ ?_ ?_⟩⟩
    · rw [Heap.named, if_pos lt, isSized]
      exact unnamed p rfl
    · rw [Heap.named_setPage lt]
      exact unnamed _ same.capacity
    · exact congrArg Store.bytes store
  · have pageSpec := HeapPage.allocated_sized pageHolds inTable spec
    rw [← isSized] at pageSpec
    rcases holds.heap.allocated lt pageSpec with ⟨heap, _, before, named, bytes⟩
    have step := holds.heapStep lt pageSpec.toChanged heap spec.mappings
    refine ⟨⟨rfl, spec.mappings, rfl, rfl⟩, Or.inr ⟨⟨n, index⟩, ?_⟩⟩
    have fits := (sizeToClass_spec size_pos small).2
    rw [← isClass, ← layout.objectSize] at fits
    have room : Heap.room (rt.heap.setPage n (.sized (p.alloc rt.store m size).page)) ⟨n, index⟩ =
        alignedSize size := by
      rw [Heap.room, Heap.setPage_pages_self, HeapPage.room_sized spec.same spec.header,
        SizedPage.sizeSlack_allocHeader fits layout.size_lt, Nat.sub_sub_self fits]
    have addr : Heap.addr (rt.heap.setPage n (.sized (p.alloc rt.store m size).page)) ⟨n, index⟩ =
        (p.alloc rt.store m size).object := by
      rw [Heap.addr, Heap.setPage_pages_self, spec.object]
      exact congrFun spec.same.indToObject index
    have size_lt : size + 15 < 2 ^ 64 := by
      have := lt_of_not_huge small
      omega
    have size_le := le_alignedSize size_lt
    have aligned : alignedSize size % 16 = 0 := by
      rw [alignedSize]
      exact Nat.mul_mod_left _ _
    refine ⟨?_, room ▸ size_le, ⟨_, Heap.setPage_pages_self⟩, ?_⟩
    · have reserved := holds.reserve step before named ?_ bytes
      · rw [← addr]
        exact reserved
      · exact ⟨room ▸ aligned, by rw [room]; omega⟩
    · have := layout.slot_inside spec.index_lt
      have := layout.memory.pos
      rw [spec.object]
      omega

theorem currentSizedPage {result : Nat × Runtime} (holds : rt.Holds objects held pending)
    (tid_lt : tid < rt.cacheCount) (class_lt : cls < numSizeClasses)
    (found : rt.currentSizedPage tid cls = some result) :
    SameTable rt result.2 ∧ result.2.Holds objects held pending ∧
      result.1 < result.2.heap.allocCount ∧
      ∃ p, result.2.heap.pages result.1 = .sized p ∧ p.sizeClass = cls := by
  unfold Runtime.currentSizedPage at found
  cases current : (rt.caches tid).sizeClasses cls with
  | some page =>
      rw [current] at found
      obtain rfl := Option.some.inj found
      exact ⟨SameTable.refl rt, holds, (holds.caches tid tid_lt).classes cls page current⟩
  | none =>
      rw [current] at found
      exact holds.newSizedPage class_lt found

/-- `allocate_backing_data` reserves a place for the mapping. -/
theorem allocateBackingData {result : Nat × Runtime} (holds : rt.Holds objects held none)
    (tid_lt : tid < rt.cacheCount) (inTable : InTable m) (size_pos : 0 < size)
    (small : shouldBeHugeObject size = false)
    (allocated : rt.allocateBackingData tid m size = some result) :
    SameTable rt result.2 ∧ ∃ place, Reserved result.2 objects held m size result.1 place := by
  have class_lt : sizeToClass size < numSizeClasses :=
    Nat.lt_trans (sizeToClass_spec size_pos small).1 (by decide)
  simp only [Runtime.allocateBackingData, Option.bind_eq_bind, Option.bind_eq_some_iff,
    Prod.exists] at allocated
  rcases allocated with ⟨page, rt₁, current, ptr, rt₂, first, rest⟩
  rcases holds.currentSizedPage tid_lt class_lt current with ⟨same₁, holds₁, lt₁, p, isSized, isClass⟩
  rcases holds₁.sizedAlloc inTable size_pos small lt₁ isSized isClass first with
    ⟨same₂, ⟨null, holds₂⟩ | ⟨place, reserved⟩⟩
  · -- the page was full: the second attempt is on a new page
    simp only at null
    rw [if_pos null] at rest
    simp only [Option.bind_eq_some_iff, Prod.exists] at rest
    rcases rest with ⟨page', rt₃, exchanged, ptr', rt₄, second, final⟩
    rcases holds₂.newSizedPage class_lt exchanged with ⟨same₃, holds₃, lt₃, p', isSized', isClass'⟩
    split at final
    · exact nomatch final
    next found =>
    obtain rfl := Option.some.inj final
    rcases holds₃.sizedAlloc inTable size_pos small lt₃ isSized' isClass' second with
      ⟨same₄, ⟨null', _⟩ | reserved⟩
    · exact absurd null' found
    · exact ⟨((same₁.trans same₂).trans same₃).trans same₄, reserved⟩
  · have found : ptr ≠ 0 := reserved.pos.ne'
    rw [if_neg found] at rest
    obtain rfl := Option.some.inj rest
    exact ⟨same₁.trans same₂, place, reserved⟩

/-! ### Releases -/

/-- `page->release_local` or `page->release_remote` of the object in a place. -/
theorem releasePlace (holds : rt.Holds objects held pending) (isNamed : rt.heap.named place = some m)
    (elsewhere : ∀ p, rt.heap.pages place.page = .locality p →
      ∀ reservation, pending = some reservation → reservation.place.page ≠ place.page)
    (isLocal : Bool) :
    ∃ rt', rt.release place.page (rt.heap.addr place) isLocal = some rt' ∧ SameTable rt rt' ∧
      HeapStep rt rt' (· = place) ∧ rt'.heap.named place = none ∧
      ∀ address, address < rt.heap.addr place ∨
        rt.heap.addr place + rt.heap.extent place ≤ address →
        rt'.store.bytes address = rt.store.bytes address := by
  rcases place with ⟨n, index⟩
  rcases Heap.named_eq_some.mp isNamed with ⟨lt, pageNamed⟩
  have valid := holds.heap.valid n lt
  simp only at lt pageNamed elsewhere ⊢
  cases kind : rt.heap.pages n with
  | sized p =>
      rw [kind] at pageNamed valid
      rcases valid with ⟨locals, remotes, bumped, pageHolds⟩
      rcases HeapPage.named_sized.mp pageNamed with ⟨index_lt, headerNamed⟩
      have live := (Header.named_eq_some.mp headerNamed).1
      have addr : rt.heap.addr ⟨n, index⟩ = p.indToObject index := by
        rw [Heap.addr, kind]
        rfl
      obtain ⟨result, released, after, spec⟩ : ∃ result : SizedPage × Store,
          (if isLocal then p.releaseLocal rt.store (p.indToObject index)
            else p.releaseRemote rt.store (p.indToObject index)) = result ∧
          (∃ locals' remotes', result.1.Holds result.2.bytes locals' remotes' bumped) ∧
          SizedPage.Holds.ReleaseSpec p rt.store index result := by
        cases isLocal with
        | true =>
            have spec := pageHolds.releaseLocal index_lt live
            exact ⟨p.releaseLocal rt.store (p.indToObject index), if_pos rfl, ⟨_, _, spec.1⟩, spec.2⟩
        | false =>
            have spec := pageHolds.releaseRemote index_lt live
            exact ⟨p.releaseRemote rt.store (p.indToObject index), if_neg Bool.false_ne_true,
              ⟨_, _, spec.1⟩, spec.2⟩
      rcases after with ⟨locals', remotes', after⟩
      have pageSpec := HeapPage.released_sized index_lt headerNamed after spec
      rw [← kind] at pageSpec
      rcases holds.heap.released lt pageSpec with ⟨heap, _, named, bytes⟩
      refine ⟨{ rt with heap := rt.heap.setPage n (.sized result.1), store := result.2 }, ?_,
        ⟨rfl, spec.mappings, rfl, rfl⟩,
        holds.heapStep lt pageSpec.toChanged heap spec.mappings, named, bytes⟩
      simp only [Runtime.release, kind, addr, released]
  | locality p =>
      rw [kind] at pageNamed valid
      have backed := holds.backed_locality lt kind (elsewhere p kind)
      have addr : rt.heap.addr ⟨n, index⟩ = p.start index := by
        rw [Heap.addr, kind]
        rfl
      rcases HeapPage.released_locality valid backed rt.store.bytes pageNamed with
        ⟨p', released, pageSpec⟩
      rw [← kind] at pageSpec
      rcases holds.heap.released lt pageSpec with ⟨heap, _, named, bytes⟩
      refine ⟨{ rt with heap := rt.heap.setPage n (.locality p') }, ?_, ⟨rfl, rfl, rfl, rfl⟩,
        holds.heapStep lt pageSpec.toChanged heap rfl, named, bytes⟩
      simp only [Runtime.release, kind, addr, released, Option.map_some]

/-- `free_allocation` of a live handle; the operation holds on to the mapping. -/
theorem freeAllocation (holds : rt.Holds objects none pending) (tid : Nat) (inTable : InTable m)
    (isLive : objects (toHandle m) = some object)
    (sized : ∀ reservation, pending = some reservation →
      ∃ p, rt.heap.pages reservation.place.page = .sized p) :
    ∃ rt', rt.freeAllocation tid m = some rt' ∧ SameTable rt rt' ∧
      rt'.Holds (objects.remove (toHandle m)) (some m) pending := by
  rcases holds.located m object inTable isLive with ⟨place, located⟩
  have found : rt.heap.getUnaligned (rt.store.mappings m).getPointer = some place.page := by
    rw [located.addr]
    exact holds.heap.getUnaligned_addr located.named
  have elsewhere : ∀ p, rt.heap.pages place.page = .locality p →
      ∀ reservation, pending = some reservation → reservation.place.page ≠ place.page := by
    intro p isLocality reservation isPending same
    rcases sized reservation isPending with ⟨q, isSized⟩
    rw [same, isLocality] at isSized
    exact nomatch isSized
  rcases holds.releasePlace located.named elsewhere
    (decide (rt.heap.owners place.page = some tid)) with
    ⟨rt', released, same, step, after, bytes⟩
  refine ⟨rt', ?_, same, holds.release inTable isLive located step after bytes⟩
  rw [Runtime.freeAllocation, found, located.addr]
  exact released

end Holds

end Runtime

end Alaska
