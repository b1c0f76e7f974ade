import Alaska.Runtime.ThreadCache

/-!
# Owners of pages and slabs

A thread cache allocates from its current slab and pages and owns them. Every operation of
a thread cache changes owners only by taking a new slab, a new sized page or a new locality
page, which gives back the one that was current before (`OwnerMove`).
-/

namespace Alaska

open Memory

/-- The class of a sized page. -/
def HeapPage.kind : HeapPage → Option Nat
  | .sized page => some page.sizeClass
  | .locality _ => none

@[simp]
theorem HeapPage.kind_sized (page : SizedPage) : (sized page).kind = some page.sizeClass :=
  rfl

@[simp]
theorem HeapPage.kind_locality (page : LocalityPage) : (locality page).kind = none :=
  rfl

/-- `alloc` does not change the class of a page. -/
theorem SizedPage.sizeClass_alloc (page : SizedPage) (s : Store) (m size : Nat) :
    (page.alloc s m size).page.sizeClass = page.sizeClass := by
  by_cases null : (page.allocator.alloc s.bytes).object = 0
  · rw [alloc_of_null null]
  · rw [alloc_of_object null]
    rfl

/-- The current page for a size class, or the current locality page. -/
def ThreadCache.current (cache : ThreadCache) : Option Nat → Option Nat
  | some cls => cache.sizeClasses cls
  | none => cache.localityPage

/-- The page is one that the thread cache allocates from. -/
def ThreadCache.Refers (cache : ThreadCache) (n : Nat) : Prop :=
  ∃ slot, cache.current slot = some n

namespace Heap

/-- The magazine for pages of a kind. -/
def magazine (h : Heap) : Option Nat → List Nat
  | some cls => h.sizeClasses cls
  | none => h.localityPages

/-- Every page is in the magazine of its kind. -/
structure Filed (h : Heap) : Prop where
  filed : ∀ n < h.allocCount, n ∈ h.magazine (h.pages n).kind
  listed : ∀ kind, ∀ n ∈ h.magazine kind, n < h.allocCount

variable {h h' : Heap} {n owner : Nat}

/-- What `get_sizedpage` and `get_localitypage` do: `n` was in no use, and `owner` has it now. -/
structure Takes (h : Heap) (owner n : Nat) (h' : Heap) : Prop where
  unused : h.owners n = none ∨ h.allocCount ≤ n
  lt : n < h'.allocCount
  count_le : h.allocCount ≤ h'.allocCount
  older : ∀ other < h'.allocCount, other ≠ n → other < h.allocCount
  owners : h'.owners = Function.update h.owners n (some owner)
  filed : h'.Filed

theorem Filed.takes_found (filed : h.Filed) (kind : Option Nat) {requirement : Nat}
    (found : h.findPage (h.magazine kind) requirement = some n) (owner : Nat) :
    Takes h owner n (h.setOwner n (some owner)) where
  unused := by
    have unowned := List.find?_some found
    rw [Bool.and_eq_true, beq_iff_eq] at unowned
    exact .inl unowned.2
  lt := filed.listed kind n (List.mem_of_find?_eq_some found)
  count_le := Nat.le_refl _
  older := fun _ lt _ => lt
  owners := rfl
  filed := ⟨filed.filed, filed.listed⟩

/-- A new page that is added to the magazine of its kind. -/
theorem Filed.takes_alloc (filed : h.Filed) {create : Nat → HeapPage} (kind : Option Nat)
    (isKind : ∀ memory, (create memory).kind = kind)
    (allocated : h.allocPage owner create = some (n, h'))
    {h'' : Heap} (allocCount : h''.allocCount = h'.allocCount) (owners : h''.owners = h'.owners)
    (pages : h''.pages = h'.pages)
    (magazine : h''.magazine = Function.update h'.magazine kind (h'.magazine kind ++ [n])) :
    Takes h owner n h'' := by
  unfold Heap.allocPage at allocated
  simp only [Option.ite_none_right_eq_some, Option.some.injEq, Prod.mk.injEq] at allocated
  rcases allocated with ⟨_, rfl, rfl⟩
  have count : h''.allocCount = h.allocCount + 1 := allocCount
  have mem_magazine : ∀ slot other, other ∈ h''.magazine slot ↔
      other ∈ h.magazine slot ∨ slot = kind ∧ other = h.allocCount := by
    intro slot other
    rw [magazine]
    by_cases same : slot = kind
    · subst slot
      rw [Function.update_self, List.mem_append, List.mem_singleton]
      cases kind <;> simp [Heap.magazine, Heap.setOwner, Heap.setPage, setEntry]
    · rw [Function.update_of_ne same]
      cases slot <;> simp [Heap.magazine, Heap.setOwner, Heap.setPage, setEntry, same]
  refine ⟨.inr (Nat.le_refl _), by omega, by omega, fun other lt ne => by omega, owners,
    ⟨fun other lt => ?_, fun slot other member => ?_⟩⟩
  · rw [pages, mem_magazine]
    by_cases same : other = h.allocCount
    · subst other
      exact .inr ⟨by simp [Heap.setOwner, Heap.setPage, isKind], rfl⟩
    · refine .inl ?_
      have before := filed.filed other (by omega)
      simpa [Heap.setOwner, Heap.setPage, setEntry, same] using before
  · rcases (mem_magazine slot other).mp member with before | ⟨_, rfl⟩
    · have := filed.listed slot other before
      omega
    · omega

theorem Filed.getSizedpage (filed : h.Filed) {size : Nat}
    (found : h.getSizedpage size owner = some (n, h')) : Takes h owner n h' := by
  unfold Heap.getSizedpage at found
  simp only at found
  cases search : h.findPage (h.sizeClasses (sizeToClass size)) 1 with
  | some other =>
      simp only [search, Option.some.injEq, Prod.mk.injEq] at found
      rcases found with ⟨rfl, rfl⟩
      exact filed.takes_found (some (sizeToClass size)) search owner
  | none =>
      simp only [search, Option.map_eq_some_iff, Prod.exists, Prod.mk.injEq] at found
      rcases found with ⟨other, h₁, allocated, rfl, rfl⟩
      refine filed.takes_alloc (some (sizeToClass size)) (fun _ => rfl) allocated rfl rfl
        rfl ?_
      funext slot
      cases slot with
      | none => simp [magazine]
      | some cls =>
          by_cases same : cls = sizeToClass size
          · simp [magazine, same]
          · simp [magazine, same]

theorem Filed.getLocalitypage (filed : h.Filed) {size : Nat}
    (found : h.getLocalitypage size owner = some (n, h')) : Takes h owner n h' := by
  unfold Heap.getLocalitypage at found
  cases search : h.findPage h.localityPages size with
  | some other =>
      simp only [search, Option.some.injEq, Prod.mk.injEq] at found
      rcases found with ⟨rfl, rfl⟩
      exact filed.takes_found none search owner
  | none =>
      simp only [search, Option.map_eq_some_iff, Prod.exists, Prod.mk.injEq] at found
      rcases found with ⟨other, h₁, allocated, rfl, rfl⟩
      refine filed.takes_alloc none (fun _ => rfl) allocated rfl rfl rfl ?_
      funext slot
      cases slot <;> simp [magazine]

end Heap

namespace Runtime

variable {rt rt' rt'' : Runtime} {tid n idx : Nat}

/-! ## What an operation does to the owners -/

/-- Neither an owner nor a list of pages or slabs changes. -/
structure SameOwners (rt rt' : Runtime) : Prop where
  slabCount : rt'.table.slabCount = rt.table.slabCount
  slabOwner : ∀ idx, (rt'.table.slabs idx).owner = (rt.table.slabs idx).owner
  allocCount : rt'.heap.allocCount = rt.heap.allocCount
  owners : rt'.heap.owners = rt.heap.owners
  sizeClasses : rt'.heap.sizeClasses = rt.heap.sizeClasses
  localityPages : rt'.heap.localityPages = rt.heap.localityPages
  kinds : ∀ n, (rt'.heap.pages n).kind = (rt.heap.pages n).kind
  caches : rt'.caches = rt.caches

theorem SameOwners.refl (rt : Runtime) : SameOwners rt rt :=
  ⟨rfl, fun _ => rfl, rfl, rfl, rfl, rfl, fun _ => rfl, rfl⟩

/-- A change of owners by an operation of thread cache `tid`. -/
inductive OwnerMove (tid : Nat) : Runtime → Runtime → Prop where
  | same {rt rt' : Runtime} (same : SameOwners rt rt') : OwnerMove tid rt rt'
  | slab (rt : Runtime) : OwnerMove tid rt (rt.newHandleSlab tid)
  | sizedPage {rt : Runtime} {cls : Nat} {r : Nat × Runtime}
      (result : rt.newSizedPage tid cls = some r) : OwnerMove tid rt r.2
  | localityPage {rt : Runtime} {size : Nat} {r : Nat × Runtime}
      (result : rt.newLocalityPage tid size = some r) : OwnerMove tid rt r.2
  | trans {rt rt' rt'' : Runtime} (first : OwnerMove tid rt rt') (second : OwnerMove tid rt' rt'') :
      OwnerMove tid rt rt''

namespace OwnerMove

theorem refl (rt : Runtime) : OwnerMove tid rt rt := .same (.refl rt)

theorem setBytes (rt : Runtime) (bytes : Bytes) : OwnerMove tid rt (rt.setBytes bytes) :=
  .same ⟨rfl, fun _ => rfl, rfl, rfl, rfl, rfl, fun _ => rfl, rfl⟩

theorem setPointer (rt : Runtime) (m pointer : Nat) : OwnerMove tid rt (rt.setPointer m pointer) :=
  .same ⟨rfl, fun _ => rfl, rfl, rfl, rfl, rfl, fun _ => rfl, rfl⟩

theorem setHuge (rt : Runtime) (huge : HugeObjectAllocator) :
    OwnerMove tid rt { rt with huge := huge } :=
  .same ⟨rfl, fun _ => rfl, rfl, rfl, rfl, rfl, fun _ => rfl, rfl⟩

theorem memcpy (rt : Runtime) (destination source size : Nat) :
    OwnerMove tid rt (rt.memcpy destination source size) :=
  setBytes rt _

theorem memset (rt : Runtime) (destination : Nat) (value : UInt8) (size : Nat) :
    OwnerMove tid rt (rt.memset destination value size) :=
  setBytes rt _

theorem hugeFree (rt : Runtime) (ptr : Nat) : OwnerMove tid rt (rt.hugeFree ptr) :=
  setHuge rt _

/-- A slab keeps its owner when its allocator changes. -/
theorem setAllocator (rt : Runtime) (idx : Nat) (allocator : SizedAllocator) (store : Store) :
    OwnerMove tid rt { rt with
      table := rt.table.setSlab idx { rt.table.slabs idx with allocator := allocator }
      store := store } := by
  refine .same ⟨rfl, fun other => ?_, rfl, rfl, rfl, rfl, fun _ => rfl, rfl⟩
  by_cases same : other = idx
  · subst other
    simp [HandleTable.setSlab]
  · simp [HandleTable.setSlab, same]

/-- A page keeps its owner when its contents change. -/
theorem setPage (rt : Runtime) {page : HeapPage} (kind : page.kind = (rt.heap.pages n).kind)
    (store : Store) :
    OwnerMove tid rt { rt with heap := rt.heap.setPage n page, store := store } := by
  refine .same ⟨rfl, fun _ => rfl, rfl, rfl, rfl, rfl, fun other => ?_, rfl⟩
  by_cases same : other = n
  · subst other
    simp [Heap.setPage, kind]
  · simp [Heap.setPage, same]

/-! ### The operations of a thread cache -/

theorem slabAlloc (rt : Runtime) (idx : Nat) : OwnerMove tid rt (rt.slabAlloc idx).2 :=
  setAllocator rt idx _ _

theorem put {owner m : Nat} (result : rt.put owner m = some rt') : OwnerMove tid rt rt' := by
  simp only [Runtime.put, HandleTable.put, Option.map_eq_some_iff] at result
  rcases result with ⟨r, put, rfl⟩
  split at put
  · obtain rfl := Option.some.inj put
    exact setAllocator rt _ _ _
  · cases put

theorem tryMapping (rt : Runtime) (tid : Nat) : OwnerMove tid rt (rt.tryMapping tid).2 := by
  simp only [Runtime.tryMapping]
  split
  · exact ((slabAlloc rt _).trans (.slab _)).trans (slabAlloc _ _)
  · exact slabAlloc rt _

theorem newMappingWithin {depth : Nat} {r : Nat × Runtime}
    (result : newMappingWithin depth rt tid = some r) : OwnerMove tid rt r.2 := by
  induction depth generalizing rt with
  | zero => cases result
  | succ depth ih =>
      simp only [Runtime.newMappingWithin] at result
      split at result
      · exact (tryMapping rt tid).trans (ih result)
      · obtain rfl := Option.some.inj result
        exact tryMapping rt tid

theorem newMapping {r : Nat × Runtime} (result : rt.newMapping tid = some r) :
    OwnerMove tid rt r.2 :=
  newMappingWithin result

theorem sizedAlloc {m size : Nat} {r : Nat × Runtime} (result : rt.sizedAlloc n m size = some r) :
    OwnerMove tid rt r.2 := by
  unfold Runtime.sizedAlloc at result
  split at result
  · next page isSized =>
      obtain rfl := Option.some.inj result
      refine setPage rt ?_ _
      rw [isSized, HeapPage.kind_sized, HeapPage.kind_sized, SizedPage.sizeClass_alloc]
  · cases result

theorem currentSizedPage {cls : Nat} {r : Nat × Runtime}
    (result : rt.currentSizedPage tid cls = some r) : OwnerMove tid rt r.2 := by
  unfold Runtime.currentSizedPage at result
  split at result
  · obtain rfl := Option.some.inj result
    exact .refl rt
  · exact .sizedPage result

theorem allocateBackingData {m size : Nat} {r : Nat × Runtime}
    (result : rt.allocateBackingData tid m size = some r) : OwnerMove tid rt r.2 := by
  simp only [Runtime.allocateBackingData, Option.bind_eq_bind, Option.bind_eq_some_iff,
    Prod.exists] at result
  rcases result with ⟨page, rt₁, current, ptr, rt₂, first, rest⟩
  have start := (currentSizedPage current).trans (sizedAlloc first)
  split at rest
  · simp only [Option.bind_eq_some_iff, Prod.exists] at rest
    rcases rest with ⟨page', rt₃, taken, ptr', rt₄, second, rest⟩
    split at rest
    · cases rest
    · obtain rfl := Option.some.inj rest
      exact start.trans ((sizedPage taken).trans (sizedAlloc second))
  · obtain rfl := Option.some.inj rest
    exact start

theorem release {ptr : Nat} {isLocal : Bool} (result : rt.release n ptr isLocal = some rt') :
    OwnerMove tid rt rt' := by
  unfold Runtime.release at result
  split at result
  · next page isSized =>
      obtain rfl := Option.some.inj result
      refine setPage rt ?_ _
      rw [isSized, HeapPage.kind_sized, HeapPage.kind_sized]
      cases isLocal <;> rfl
  · next page isLocality =>
      simp only [Option.map_eq_some_iff] at result
      rcases result with ⟨released, _, rfl⟩
      refine setPage rt ?_ rt.store
      rw [isLocality, HeapPage.kind_locality, HeapPage.kind_locality]

theorem freeOn {ptr : Nat} {page : Option Nat} (result : rt.freeOn tid ptr page = some rt') :
    OwnerMove tid rt rt' := by
  cases page with
  | none =>
      obtain rfl := Option.some.inj result
      exact setHuge rt _
  | some n => exact release result

theorem freeAllocation {m : Nat} (result : rt.freeAllocation tid m = some rt') :
    OwnerMove tid rt rt' :=
  freeOn result

theorem hugeAllocate {size address : Nat} {r : Nat × Runtime}
    (result : rt.hugeAllocate size address = some r) : OwnerMove tid rt r.2 := by
  simp only [Runtime.hugeAllocate, Option.ite_none_right_eq_some, Option.some.injEq] at result
  rcases result with ⟨_, rfl⟩
  exact (setHuge rt _).trans (setBytes _ _)

theorem halloc {size address : Nat} {zero : Bool} {r : Nat × Runtime}
    (result : rt.halloc tid size zero address = some r) : OwnerMove tid rt r.2 := by
  unfold Runtime.halloc at result
  split at result
  · obtain rfl := Option.some.inj result
    exact .refl rt
  split at result
  · exact hugeAllocate result
  · simp only [Option.bind_eq_bind, Option.bind_eq_some_iff, Prod.exists] at result
    rcases result with ⟨m, rt₁, mapping, ptr, rt₂, backing, rest⟩
    obtain rfl := Option.some.inj rest
    have start := (newMapping mapping).trans (allocateBackingData backing)
    cases zero with
    | false => exact start.trans (setPointer _ _ _)
    | true => exact start.trans ((memset _ _ _ _).trans (setPointer _ _ _))

theorem hfree {handle : Nat} (result : rt.hfree tid handle = some rt') :
    OwnerMove tid rt rt' := by
  unfold Runtime.hfree at result
  split at result
  · obtain rfl := Option.some.inj result
    exact hugeFree rt _
  · simp only [Option.bind_eq_bind, Option.bind_eq_some_iff] at result
    rcases result with ⟨rt₁, freed, put⟩
    exact (freeAllocation freed).trans ((setPointer _ _ _).trans (OwnerMove.put put))

theorem hreallocHuge {handle newSize address : Nat} {r : Nat × Runtime}
    (result : rt.hreallocHuge handle newSize address = some r) : OwnerMove tid rt r.2 := by
  simp only [Runtime.hreallocHuge, Option.bind_eq_bind, Option.bind_eq_some_iff, Prod.exists]
    at result
  rcases result with ⟨newData, rt₁, allocated, rest⟩
  obtain rfl := Option.some.inj rest
  exact (hugeAllocate allocated).trans (memcpy _ _ _ _)

theorem hreallocFromHuge {handle newSize : Nat} {r : Nat × Runtime}
    (result : rt.hreallocFromHuge tid handle newSize = some r) : OwnerMove tid rt r.2 := by
  simp only [Runtime.hreallocFromHuge, Option.bind_eq_bind, Option.bind_eq_some_iff, Prod.exists]
    at result
  rcases result with ⟨m, rt₁, mapping, newData, rt₂, backing, rest⟩
  obtain rfl := Option.some.inj rest
  exact ((newMapping mapping).trans (allocateBackingData backing)).trans
    ((memcpy _ _ _ _).trans ((setPointer _ _ _).trans (hugeFree _ _)))

theorem hreallocToHuge {handle originalData originalSize newSize address : Nat} {r : Nat × Runtime}
    (result : rt.hreallocToHuge tid handle originalData originalSize newSize address = some r) :
    OwnerMove tid rt r.2 := by
  simp only [Runtime.hreallocToHuge, Option.bind_eq_bind, Option.bind_eq_some_iff, Prod.exists]
    at result
  rcases result with ⟨newData, rt₁, allocated, rt₂, freed, rest⟩
  obtain rfl := Option.some.inj rest
  exact (hugeAllocate allocated).trans ((memcpy _ _ _ _).trans (hfree freed))

theorem hreallocHandle {handle m originalData originalSize newSize : Nat} {r : Nat × Runtime}
    (result : rt.hreallocHandle tid handle m originalData originalSize newSize = some r) :
    OwnerMove tid rt r.2 := by
  simp only [Runtime.hreallocHandle, Option.bind_eq_bind, Option.bind_eq_some_iff, Prod.exists]
    at result
  rcases result with ⟨newData, rt₁, backing, rt₂, freed, rest⟩
  obtain rfl := Option.some.inj rest
  exact (allocateBackingData backing).trans
    ((memcpy _ _ _ _).trans ((freeAllocation freed).trans (setPointer _ _ _)))

theorem hrealloc {handle newSize address : Nat} {r : Nat × Runtime}
    (result : rt.hrealloc tid handle newSize address = some r) : OwnerMove tid rt r.2 := by
  unfold Runtime.hrealloc at result
  cases decoded : Mapping.fromHandleSafe handle with
  | none =>
      simp only [decoded] at result
      split at result
      · exact hreallocHuge result
      · exact hreallocFromHuge result
  | some m =>
      simp only [decoded, Option.bind_eq_bind, Option.bind_eq_some_iff] at result
      rcases result with ⟨page, _, originalSize, _, result⟩
      split at result
      · exact hreallocToHuge result
      · exact hreallocHandle result

theorem localityTarget {size : Nat} {r : Nat × Runtime}
    (result : rt.localityTarget tid size = some r) : OwnerMove tid rt r.2 := by
  unfold Runtime.localityTarget at result
  split at result
  · exact .localityPage result
  · split at result
    · exact .localityPage result
    · obtain rfl := Option.some.inj result
      exact .refl rt

theorem localizeTo {source target m ptr size epoch : Nat}
    (result : rt.localizeTo source target m ptr size epoch = some rt') : OwnerMove tid rt rt' := by
  unfold Runtime.localizeTo at result
  cases isPage : rt.heap.pages target with
  | sized page => simp [isPage] at result
  | locality page =>
      simp only [isPage, Option.ite_none_left_eq_some] at result
      have moved : OwnerMove tid rt { rt with
          heap := rt.heap.setPage target (.locality { (page.alloc m size).2 with
            lastLocalizationEpoch := epoch }) } := by
        refine setPage rt ?_ rt.store
        rw [isPage, HeapPage.kind_locality, HeapPage.kind_locality]
      exact moved.trans ((memcpy _ _ _ _).trans ((memset _ _ _ _).trans
        ((setPointer _ _ _).trans (release result.2))))

theorem localizeFrom {m ptr epoch : Nat} {source : Option Nat} {r : Bool × Runtime}
    (result : rt.localizeFrom tid m ptr epoch source = some r) : OwnerMove tid rt r.2 := by
  cases source with
  | none =>
      obtain rfl := Option.some.inj result
      exact .refl rt
  | some source =>
      simp only [Runtime.localizeFrom] at result
      cases isPage : rt.heap.pages source with
      | locality page =>
          simp only [isPage, Option.some.injEq] at result
          subst r
          exact .refl rt
      | sized page =>
          simp only [isPage] at result
          generalize page.sizeOf ptr = size at result
          split at result
          · obtain rfl := Option.some.inj result
            exact .refl rt
          · simp only [Option.bind_eq_bind, Option.bind_eq_some_iff, Prod.exists] at result
            rcases result with ⟨target, rt₁, found, rest⟩
            split at rest
            · obtain rfl := Option.some.inj rest
              exact localityTarget found
            · simp only [Option.bind_eq_some_iff] at rest
              rcases rest with ⟨rt₂, moved, rest⟩
              obtain rfl := Option.some.inj rest
              exact (localityTarget found).trans (localizeTo moved)

theorem localize {m epoch : Nat} {r : Bool × Runtime}
    (result : rt.localize tid m epoch = some r) : OwnerMove tid rt r.2 := by
  rw [Runtime.localize] at result
  by_cases skipped : ((rt.store.mappings m).isPinned || (rt.store.mappings m).isFree) = true
  · rw [if_pos skipped] at result
    obtain rfl := Option.some.inj result
    exact .refl rt
  · rw [if_neg skipped] at result
    exact localizeFrom result

end OwnerMove

end Runtime

end Alaska
