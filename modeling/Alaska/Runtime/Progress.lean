import Alaska.Runtime.ClientRuns

/-!
# Progress

The counters by which slabs and pages are chosen agree with the lists that the allocation
then consults: a slab or page that counts a free slot has one to hand out. So as long as
the heap has a page and the handle table a slab to spare, no operation on live objects runs
into one of the assertions of the thread cache, and none meets a null mapping.
-/

namespace Alaska

open Memory Mapping Lts

namespace SizedAllocator

universe u

variable {Cell : Type u} [LinkCells Cell] {a : SizedAllocator} {mem : Nat → Cell}
  {count bumped : Nat} {locals remotes : List Nat}

/-- `alloc` takes one of the free slots that `num_free` counts, if it counts any. -/
theorem Holds.alloc_numFree (holds : a.Holds mem count locals remotes bumped) :
    ((a.alloc mem).object = 0 ↔ a.numFree = 0) ∧
      (a.alloc mem).allocator.numFree = if a.numFree = 0 then 0 else a.numFree - 1 := by
  have before := holds.numFree_eq
  cases holds.alloc with
  | full object exhausted after same memSame =>
      have left := after.numFree_eq
      rw [freeSlots_exhausted, List.length_nil] at left
      rw [exhausted, List.length_nil] at before
      exact ⟨by simp [object, before], by simp [before, left]⟩
  | taken index locals' remotes' bumped' object after perm same only relinked =>
      have pos := holds.slot_pos index
      have length := perm.length_eq
      have left := after.numFree_eq
      rw [List.length_cons] at length
      constructor
      · constructor
        · intro null
          omega
        · intro none
          omega
      · rw [if_neg (by omega)]
        omega

end SizedAllocator

/-! ## Pages -/

namespace Heap

variable {h h' : Heap} {bytes : Bytes} {n owner cls size : Nat}

/-- There is a page that was never handed out. -/
def HasPage (h : Heap) : Prop := h.getPage h.allocCount < h.start + heapSize

instance (h : Heap) : Decidable h.HasPage := inferInstanceAs (Decidable (_ < _))

theorem capacityOf_pos : ∀ cls < 44, 0 < SizedPage.capacityOf (classToSize cls) := by decide

@[simp]
theorem available_setOwner (h : Heap) (n : Nat) (owner : Option Nat) (other : Nat) :
    (h.setOwner n owner).available other = h.available other :=
  rfl

@[simp]
theorem available_putOldPage (h : Heap) (old : Option Nat) (n : Nat) :
    (h.putOldPage old).available n = h.available n := by
  cases old <;> rfl

/-- A page with free slots is never found to have none, although the values are unsigned. -/
theorem Invariant.available_nonneg (invariant : h.Invariant bytes) (lt : n < h.allocCount) :
    0 ≤ h.available n := by
  have valid := invariant.valid n lt
  rw [available]
  cases isPage : h.pages n with
  | sized page =>
      rw [isPage] at valid
      rcases valid with ⟨locals, remotes, bumped, holds⟩
      simp only [holds.available_eq]
      omega
  | locality page =>
      simp only
      omega

theorem allocPage_some (hasPage : h.HasPage) (owner : Nat) (create : Nat → HeapPage) :
    ∃ h', h.allocPage owner create = some (h.allocCount, h') ∧
      h'.pages h.allocCount = create (h.getPage h.allocCount) := by
  unfold HasPage at hasPage
  rw [allocPage, if_pos hasPage]
  exact ⟨_, rfl, Function.update_self _ _ _⟩

/-- `get_sizedpage` returns a page with a free slot. -/
theorem Invariant.getSizedpage_some (invariant : h.Invariant bytes) (hasPage : h.HasPage)
    (class_lt : cls < 44) (owner : Nat) :
    ∃ n h', h.getSizedpage (classToSize cls) owner = some (n, h') ∧ 0 < h'.available n := by
  have sameClass := sizeToClass_classToSize cls (Nat.lt_trans class_lt (by decide))
  simp only [Heap.getSizedpage, sameClass]
  cases search : h.findPage (h.sizeClasses cls) 1 with
  | some n =>
      refine ⟨n, _, rfl, ?_⟩
      have lt := (invariant.classes cls n (findPage_mem search)).1
      have nonneg := invariant.available_nonneg lt
      have found := List.find?_some search
      simp only [Bool.and_eq_true, decide_eq_true_eq] at found
      rw [available_setOwner]
      omega
  | none =>
      rcases allocPage_some hasPage owner
        (fun memory => .sized (SizedPage.setSizeClass memory cls)) with ⟨h', allocated, page⟩
      rw [allocated]
      refine ⟨_, _, rfl, ?_⟩
      rw [available, page]
      have capacity := capacityOf_pos cls class_lt
      have size := (classToSize_spec cls (Nat.lt_trans class_lt (by decide))).2.1
      simp only [SizedPage.available, SizedPage.setSizeClass, SizedAllocator.numFree,
        SizedAllocator.numFreeInFreeList, SizedAllocator.numFreeInBumpAllocator,
        SizedAllocator.configure, ShardedFreeList.numFree]
      rw [Nat.add_sub_cancel_left, Nat.mul_div_cancel _ (by omega)]
      simpa using capacity

/-- `get_localitypage` returns a page with the space that was asked for. -/
theorem Invariant.getLocalitypage_some (invariant : h.Invariant bytes) (hasPage : h.HasPage)
    (pos : 0 < size) (owner : Nat) :
    ∃ n h', h.getLocalitypage size owner = some (n, h') ∧ 0 < h'.available n := by
  simp only [Heap.getLocalitypage]
  cases search : h.findPage h.localityPages size with
  | some n =>
      refine ⟨n, _, rfl, ?_⟩
      have lt := (invariant.localities n (findPage_mem search)).1
      have nonneg := invariant.available_nonneg lt
      have found := List.find?_some search
      simp only [Bool.and_eq_true, decide_eq_true_eq] at found
      rw [available_setOwner]
      omega
  | none =>
      rcases allocPage_some hasPage owner
        (fun memory => .locality (LocalityPage.create memory)) with ⟨h', allocated, page⟩
      rw [allocated]
      refine ⟨_, _, rfl, ?_⟩
      rw [available, page]
      simp only [LocalityPage.available, LocalityPage.getFreeSpace, LocalityPage.create,
        Metadata.bytes, pageSize]
      omega

end Heap

/-! ## Slabs -/

namespace HandleTable

variable {t : HandleTable} {mappings : Mappings} {live : Nat → Prop} {idx other owner : Nat}

/-- The free mappings that slab `idx` counts. -/
def numFree (t : HandleTable) (idx : Nat) : Int := (t.slabs idx).allocator.numFree

theorem numFree_setOwner (t : HandleTable) (other : Nat) (owner : Option Nat) (idx : Nat) :
    (t.setOwner other owner).numFree idx = t.numFree idx := by
  by_cases equal : idx = other
  · simp [numFree, setOwner, setSlab, equal]
  · simp [numFree, setOwner, setSlab, equal]

/-- `new_slab` returns a slab with a free mapping, and the others count what they did. -/
theorem numFree_newSlab (t : HandleTable) (owner : Nat) :
    0 < (t.newSlab owner).2.numFree (t.newSlab owner).1 ∧
      (∀ idx < t.slabCount, (t.newSlab owner).2.numFree idx = t.numFree idx) ∧
      ((t.newSlab owner).1 = t.slabCount ∧ (t.newSlab owner).2.slabCount = t.slabCount + 1 ∨
        (t.newSlab owner).2.slabCount = t.slabCount) := by
  unfold newSlab
  split
  · next idx search =>
      have found := List.find?_some search
      simp only [Bool.and_eq_true, decide_eq_true_eq] at found
      refine ⟨?_, fun other _ => numFree_setOwner t idx _ other, Or.inr rfl⟩
      rw [numFree_setOwner]
      exact found.2
  · refine ⟨?_, fun other lt => ?_, Or.inl ⟨rfl, rfl⟩⟩
    · simp [numFree, freshSlab, SizedAllocator.numFree, SizedAllocator.numFreeInFreeList,
        SizedAllocator.numFreeInBumpAllocator, SizedAllocator.configure, ShardedFreeList.numFree,
        slabCapacity, slabSize, pageSize]
    · simp [numFree, freshSlab, lt.ne]

/-- `alloc` on slab `idx` takes one of the free mappings that the slab counts. -/
theorem Slabs.alloc_numFree (slabs : t.Slabs mappings live) (lt : idx < t.slabCount) :
    ((t.alloc mappings idx).1 = 0 ↔ t.numFree idx = 0) ∧
      ∀ other, (t.alloc mappings idx).2.1.numFree other =
        if other = idx ∧ t.numFree idx ≠ 0 then t.numFree other - 1 else t.numFree other := by
  rcases slabs.slabs idx lt with ⟨locals, remotes, bumped, holds⟩
  rcases holds.lists.alloc_numFree with ⟨null, count⟩
  refine ⟨null, fun other => ?_⟩
  by_cases equal : other = idx
  · subst equal
    simp only [numFree, HandleTable.alloc, HandleTable.setSlab, Function.update_self, count]
    split <;> simp_all
  · simp only [numFree, HandleTable.alloc, HandleTable.setSlab, Function.update_of_ne equal, equal,
      false_and, if_false]

theorem Slabs.numFree_bounds (slabs : t.Slabs mappings live) (lt : idx < t.slabCount) :
    0 ≤ t.numFree idx ∧ t.numFree idx ≤ slabCapacity := by
  rcases slabs.slabs idx lt with ⟨locals, remotes, bumped, holds⟩
  have count := holds.lists.numFree_eq
  have subset : SizedAllocator.freeSlots locals remotes bumped slabCapacity ⊆
      List.range slabCapacity :=
    fun index member => List.mem_range.mpr (holds.lists.freeSlots_lt member)
  have length := (List.subperm_of_subset holds.lists.freeSlots_nodup subset).length_le
  rw [List.length_range] at length
  unfold numFree
  omega

end HandleTable

namespace Runtime

variable {rt rt' : Runtime} {objects : Objects} {held : Option Nat}
  {pending : Option Reservation} {tid m n size cls : Nat} {p : SizedPage}

/-! ## Backing data -/

/-- `page->alloc` on a sized page that counts a free slot. -/
theorem Holds.sizedAlloc_some (holds : rt.Holds objects held pending) (lt : n < rt.heap.allocCount)
    (isSized : rt.heap.pages n = .sized p) (pos : 0 < rt.heap.available n) (m size : Nat) :
    ∃ r, rt.sizedAlloc n m size = some r ∧ r.1 ≠ 0 := by
  have valid := holds.heap.valid n lt
  rw [isSized] at valid
  rcases valid with ⟨locals, remotes, bumped, pageHolds⟩
  simp only [Runtime.sizedAlloc, isSized]
  refine ⟨_, rfl, fun null => ?_⟩
  rw [Heap.available, isSized] at pos
  simp only [pageHolds.available_eq] at pos
  rcases pageHolds.alloc m size with ⟨_, exhausted, _⟩ | ⟨index, _, _, _, spec⟩
  · rw [exhausted] at pos
    exact absurd pos (by simp)
  · have inside := pageHolds.layout.slot_inside spec.index_lt
    have memory := pageHolds.layout.memory.pos
    have object := spec.object
    simp only at null
    omega

/-- `new_sized_page` returns a page with a free slot. -/
theorem Holds.newSizedPage_some (holds : rt.Holds objects held pending)
    (hasPage : rt.heap.HasPage) (class_lt : cls < 44) (tid : Nat) :
    ∃ r, rt.newSizedPage tid cls = some r ∧ 0 < r.2.heap.available r.1 := by
  rcases holds.heap.getSizedpage_some hasPage class_lt tid with ⟨n, heap', found, pos⟩
  have counted : 0 < ((heap'.setOwner n (some tid)).putOldPage
      ((rt.caches tid).sizeClasses cls)).available n := by
    rw [Heap.available_putOldPage, Heap.available_setOwner]
    exact pos
  simp only [Runtime.newSizedPage, found, Option.bind_eq_bind, Option.bind_some, if_pos counted]
  exact ⟨_, rfl, counted⟩

/-- `new_locality_page` returns a page with space. -/
theorem Holds.newLocalityPage_some (holds : rt.Holds objects held pending)
    (hasPage : rt.heap.HasPage) (pos : 0 < size) (tid : Nat) :
    ∃ r, rt.newLocalityPage tid size = some r := by
  rcases holds.heap.getLocalitypage_some hasPage pos tid with ⟨n, heap', found, pos⟩
  have counted : 0 < (heap'.putOldPage (rt.caches tid).localityPage).available n := by
    rw [Heap.available_putOldPage]
    exact pos
  simp only [Runtime.newLocalityPage, found, Option.bind_eq_bind, Option.bind_some,
    if_pos counted]
  exact ⟨_, rfl⟩

/-- `allocate_backing_data` meets neither of its assertions while there is a page. -/
theorem Holds.allocateBackingData_some (holds : rt.Holds objects held none)
    (hasPage : rt.heap.HasPage) (tid_lt : tid < rt.cacheCount) (inTable : InTable m)
    (size_pos : 0 < size) (small : shouldBeHugeObject size = false) :
    ∃ r, rt.allocateBackingData tid m size = some r := by
  have class_lt := (sizeToClass_spec size_pos small).1
  have class_lt' : sizeToClass size < numSizeClasses := Nat.lt_trans class_lt (by decide)
  simp only [Runtime.allocateBackingData, Runtime.currentSizedPage]
  cases current : (rt.caches tid).sizeClasses (sizeToClass size) with
  | none =>
      rcases holds.newSizedPage_some hasPage class_lt tid with ⟨⟨n, rt₁⟩, found, pos⟩
      rcases holds.newSizedPage class_lt' found with ⟨_, holds₁, lt, p, isSized, _⟩
      rcases holds₁.sizedAlloc_some lt isSized pos m size with ⟨⟨ptr, rt₂⟩, allocated, nonnull⟩
      simp only [found, allocated, Option.bind_eq_bind, Option.bind_some, if_neg nonnull]
      exact ⟨_, rfl⟩
  | some n =>
      rcases (holds.caches tid tid_lt).classes _ n current with ⟨lt, p, isSized, isClass⟩
      have allocated : rt.sizedAlloc n m size = some ((p.alloc rt.store m size).object,
          { rt with
            heap := rt.heap.setPage n (.sized (p.alloc rt.store m size).page)
            store := (p.alloc rt.store m size).store }) := by
        simp only [Runtime.sizedAlloc, isSized]
      simp only [allocated, Option.bind_eq_bind, Option.bind_some]
      split
      · next null =>
          rcases holds.sizedAlloc inTable size_pos small lt isSized isClass allocated with
            ⟨_, ⟨_, holds₁⟩ | ⟨place, reserved⟩⟩
          · rcases holds₁.newSizedPage_some hasPage class_lt tid with ⟨⟨n', rt₂⟩, found, pos⟩
            rcases holds₁.newSizedPage class_lt' found with ⟨_, holds₂, lt', p', isSized', _⟩
            rcases holds₂.sizedAlloc_some lt' isSized' pos m size with
              ⟨⟨ptr, rt₃⟩, allocated', nonnull⟩
            simp only [found, allocated', Option.bind_some, if_neg nonnull]
            exact ⟨_, rfl⟩
          · exact absurd null reserved.pos.ne'
      · exact ⟨_, rfl⟩

/-! ## Mappings -/

/-- The two ids that `new_mapping` skips are in the first slab. -/
theorem slab_of_skipped {idx index : Nat} (lt : index < slabCapacity)
    (idx_lt : idx < 2 ^ 21)
    (skipped : handleId (HandleTable.mappingAt idx index) = 0 ∨
      handleId (HandleTable.mappingAt idx index) = 10) : idx = 0 := by
  simp only [handleId, encode, HandleTable.mappingAt, HandleTable.getSlabStart, handleTableLocation,
    sizeBits, squeezeBits, slabCapacity, slabSize, pageSize] at *
  omega

/-- What one attempt of `new_mapping` does while the table can have another slab. -/
structure Attempted (rt : Runtime) (r : Nat × Runtime) (idx : Nat) : Prop where
  lt : idx < r.2.table.slabCount
  mapping : ∃ index < slabCapacity, r.1 = HandleTable.mappingAt idx index
  taken : idx < rt.table.slabCount → r.2.table.numFree idx = rt.table.numFree idx - 1 ∧
    r.2.table.slabCount = rt.table.slabCount
  count_le : r.2.table.slabCount ≤ rt.table.slabCount + 1

/-- An attempt takes a mapping of the slab that the cache has afterwards. -/
theorem Holds.tryMapping_some (holds : rt.Holds objects none pending) (tid_lt : tid < rt.cacheCount)
    (room : rt.table.slabCount < 2 ^ 21) : ∃ idx, Attempted rt (rt.tryMapping tid) idx := by
  have slab := (holds.caches tid tid_lt).slab
  have slabs := holds.table.toSlabs
  rcases slabs.alloc_numFree slab with ⟨null, counts⟩
  simp only [Runtime.tryMapping]
  by_cases full : rt.table.numFree (rt.caches tid).handleSlab = 0
  · have first : (rt.slabAlloc (rt.caches tid).handleSlab).1 = 0 := null.mpr full
    rw [if_pos first]
    -- the full slab is given back for one that counts a free mapping
    have exhausted : (rt.slabAlloc (rt.caches tid).handleSlab).2.Holds objects none pending := by
      rcases (holds.slabAlloc slab).2 with ⟨_, holds⟩ | ⟨holds, _⟩
      · exact holds
      · have inTable := holds.inTable_of_held
        rw [first] at inTable
        exact absurd inTable.1 (by omega)
    have same : ∀ idx, (rt.slabAlloc (rt.caches tid).handleSlab).2.table.numFree idx =
        rt.table.numFree idx := fun idx => (counts idx).trans (if_neg (by simp [full]))
    have count : (rt.slabAlloc (rt.caches tid).handleSlab).2.table.slabCount =
        rt.table.slabCount := rfl
    generalize (rt.slabAlloc (rt.caches tid).handleSlab).2 = rt₁ at exhausted same count
    rcases HandleTable.numFree_newSlab rt₁.table tid with ⟨pos, kept, slabCount⟩
    have count_le : (rt₁.newHandleSlab tid).table.slabCount ≤ 2 ^ 21 := by
      have exchanged : (rt₁.newHandleSlab tid).table.slabCount =
          (rt₁.table.newSlab tid).2.slabCount := rfl
      omega
    rcases exhausted.newHandleSlab count_le with ⟨_, holds₂, lt₂⟩
    have slab₂ : ((rt₁.newHandleSlab tid).caches tid).handleSlab = (rt₁.table.newSlab tid).1 := by
      simp [Runtime.newHandleSlab]
    have count₂ : (rt₁.newHandleSlab tid).table.slabCount = (rt₁.table.newSlab tid).2.slabCount :=
      rfl
    have numFree₂ : ∀ idx, (rt₁.newHandleSlab tid).table.numFree idx =
        (rt₁.table.newSlab tid).2.numFree idx :=
      fun idx => HandleTable.numFree_setOwner _ _ _ idx
    generalize rt₁.newHandleSlab tid = rt₂ at holds₂ lt₂ slab₂ count₂ numFree₂
    rcases holds₂.table.toSlabs.alloc_numFree lt₂ with ⟨null₂, counts₂⟩
    have nonempty : rt₂.table.numFree (rt₂.caches tid).handleSlab ≠ 0 := by
      rw [numFree₂, slab₂]
      omega
    rcases holds₂.table.toSlabs.alloc lt₂ with ⟨isNull, _⟩ | ⟨_, _, inside, _⟩
    · exact absurd (null₂.mp isNull) nonempty
    have after : (rt₂.slabAlloc (rt₂.caches tid).handleSlab).2.table.slabCount =
        rt₂.table.slabCount := rfl
    refine ⟨_, lt₂, inside, fun old => ⟨?_, ?_⟩, ?_⟩
    · refine (counts₂ _).trans ((if_pos ⟨rfl, nonempty⟩).trans ?_)
      rw [numFree₂, kept _ (count ▸ old), same]
    · rw [after, count₂]
      omega
    · rw [after, count₂]
      omega
  · have first : (rt.slabAlloc (rt.caches tid).handleSlab).1 ≠ 0 := fun isNull =>
      full (null.mp isNull)
    rw [if_neg first]
    rcases slabs.alloc slab with ⟨isNull, _⟩ | ⟨_, _, inside, _⟩
    · exact absurd isNull first
    · refine ⟨_, slab, inside, fun _ => ⟨?_, rfl⟩, Nat.le_succ _⟩
      exact (counts _).trans (if_pos ⟨rfl, full⟩)

/--
`new_mapping` ends while the table can have another slab: an attempt that is skipped takes
one of the free mappings of the first slab.
-/
theorem Holds.newMappingWithin_some {depth : Nat} (holds : rt.Holds objects none pending)
    (tid_lt : tid < rt.cacheCount) (room : rt.table.slabCount < 2 ^ 21)
    (enough : rt.table.numFree 0 < depth) :
    ∃ r, Runtime.newMappingWithin depth rt tid = some r ∧
      r.2.table.slabCount ≤ rt.table.slabCount + 1 := by
  have exists_slab := Nat.zero_lt_of_lt (holds.caches tid tid_lt).slab
  induction depth generalizing rt with
  | zero =>
      have bounds := holds.table.toSlabs.numFree_bounds exists_slab
      omega
  | succ depth ih =>
      rcases holds.tryMapping_some tid_lt room with
        ⟨idx, idx_lt, ⟨index, lt, mapping⟩, taken, count_le⟩
      simp only [Runtime.newMappingWithin]
      split
      · next skipped =>
          rw [mapping] at skipped
          obtain rfl := slab_of_skipped lt (by omega) skipped
          rcases taken exists_slab with ⟨fewer, same⟩
          rcases holds.tryMapping tid_lt (by omega) with ⟨step, outcome⟩
          have again : (rt.tryMapping tid).2.Holds objects none pending := by
            rcases outcome with ⟨_, holds⟩ | ⟨holds, stale⟩
            · exact holds
            · exact holds.drop stale
          have tid_lt' := Nat.lt_of_lt_of_le tid_lt step.cacheCount
          rcases ih again tid_lt' (by omega) (by omega) (by omega) with ⟨r, result, le⟩
          exact ⟨r, result, by omega⟩
      · exact ⟨_, rfl, count_le⟩

theorem Holds.newMapping_some (holds : rt.Holds objects none pending) (tid_lt : tid < rt.cacheCount)
    (room : rt.table.slabCount < 2 ^ 21) :
    ∃ r, rt.newMapping tid = some r ∧ r.2.table.slabCount ≤ rt.table.slabCount + 1 := by
  have exists_slab := Nat.zero_lt_of_lt (holds.caches tid tid_lt).slab
  have bounds := (holds.table.toSlabs.numFree_bounds exists_slab).2
  have capacity : (slabCapacity : Int) < (2 ^ 64 : Nat) := by decide
  exact holds.newMappingWithin_some tid_lt room (by omega)

/-! ## The operations -/

/-- There is a page and a slab to spare. -/
structure HasRoom (rt : Runtime) : Prop where
  page : rt.heap.HasPage
  slab : rt.table.slabCount < 2 ^ 21

/-- What a handle and its object need: a mapping and a place. -/
theorem Holds.newObject_some (holds : rt.Holds objects none none) (room : rt.HasRoom)
    (tid_lt : tid < rt.cacheCount) (size_pos : 0 < size) (small : shouldBeHugeObject size = false) :
    ∃ taken r, rt.newMapping tid = some taken ∧
      taken.2.allocateBackingData tid taken.1 size = some r := by
  rcases holds.newMapping_some tid_lt room.slab with ⟨taken, mapping, count_le⟩
  have slab := room.slab
  rcases holds.newMapping tid_lt mapping (by omega) with ⟨step, held⟩
  have hasPage : taken.2.heap.HasPage := by
    rw [step.heap]
    exact room.page
  have tid_lt' := Nat.lt_of_lt_of_le tid_lt step.cacheCount
  rcases held.allocateBackingData_some hasPage tid_lt' held.inTable_of_held size_pos small with
    ⟨r, backing⟩
  exact ⟨taken, r, mapping, backing⟩

/-- `mmap` finds a place for a request of `size` bytes at `address`, if it needs one. -/
def Mappable (rt : Runtime) (size address : Nat) : Prop :=
  shouldBeHugeObject size = true → rt.Fresh address (HugeObjectAllocator.mappingSize size)

theorem hugeAllocate_some {address : Nat} (large : shouldBeHugeObject size = true)
    (mappable : rt.Mappable size address) : ∃ r, rt.hugeAllocate size address = some r := by
  rw [hugeAllocate]
  simp only [if_pos (mappable large)]
  exact ⟨_, rfl⟩

theorem Holds.halloc_some {address : Nat} (holds : rt.Holds objects none none)
    (room : rt.HasRoom) (tid_lt : tid < rt.cacheCount) (size_pos : 0 < size)
    (mappable : rt.Mappable size address) (zero : Bool) :
    ∃ r, rt.halloc tid size zero address = some r := by
  rw [Runtime.halloc, if_neg size_pos.ne']
  split
  · next large => exact hugeAllocate_some large mappable
  · next small =>
      rcases holds.newObject_some room tid_lt size_pos (by simpa using small) with
        ⟨taken, r, mapping, backing⟩
      simp only [mapping, backing, Option.bind_eq_bind, Option.bind_some]
      exact ⟨_, rfl⟩

theorem hreallocToHuge_of {handle originalData originalSize newSize address newData : Nat}
    {rt₁ rt₂ : Runtime} (allocated : rt.hugeAllocate newSize address = some (newData, rt₁))
    (freed : (rt₁.memcpy newData originalData (copySize originalSize newSize)).hfree tid handle =
      some rt₂) :
    rt.hreallocToHuge tid handle originalData originalSize newSize address =
      some (newData, rt₂) := by
  rw [hreallocToHuge, Option.bind_eq_bind, allocated, Option.bind_some]
  dsimp only
  rw [Option.bind_eq_bind, freed, Option.bind_some]

theorem hreallocHandle_of {handle originalData originalSize newSize newData : Nat}
    {rt₁ rt₂ : Runtime} (backing : rt.allocateBackingData tid m newSize = some (newData, rt₁))
    (released : (rt₁.memcpy newData originalData (copySize originalSize newSize)).freeAllocation
      tid m = some rt₂) :
    rt.hreallocHandle tid handle m originalData originalSize newSize =
      some (handle, rt₂.setPointer m newData) := by
  rw [hreallocHandle, Option.bind_eq_bind, backing, Option.bind_some]
  dsimp only
  rw [Option.bind_eq_bind, released, Option.bind_some]

theorem Holds.hrealloc_some {newSize address handle : Nat} {object : Object}
    (holds : rt.Holds objects none none) (room : rt.HasRoom) (tid_lt : tid < rt.cacheCount)
    (isLive : objects handle = some object) (pos : 0 < newSize)
    (fits : HugeObjectAllocator.FitsMapping newSize) (mappable : rt.Mappable newSize address) :
    ∃ r, rt.hrealloc tid handle newSize address = some r := by
  unfold Runtime.hrealloc
  rcases holds.pointer_cases isLive with ⟨m, inTable, rfl, isHandle⟩ | ⟨notHandle, header, mapped⟩
  · rcases holds.located m object inTable isLive with ⟨place, located⟩
    have page := holds.heap.getUnaligned_addr located.named
    have size := holds.sizeOf_place located.named
    simp only [isHandle, located.addr, page, Option.bind_eq_bind, Option.bind_some, size]
    rw [← located.addr]
    split
    · next large =>
        rcases hugeAllocate_some large mappable with ⟨⟨newData, rt₁⟩, allocated⟩
        rcases holds.moveToHuge isLive isHandle located.room pos fits allocated tid with
          ⟨rt₂, freed, _⟩
        rw [backing_toHandle inTable] at freed
        exact ⟨_, hreallocToHuge_of allocated freed⟩
    · next small =>
        have small : shouldBeHugeObject newSize = false := by simpa using small
        rcases holds.allocateBackingData_some room.page tid_lt inTable pos small with
          ⟨⟨newData, rt₁⟩, backing⟩
        rcases holds.moveToPlace tid_lt inTable isLive located.room pos small backing with
          ⟨rt₂, released, _⟩
        exact ⟨_, hreallocHandle_of backing released⟩
  · simp only [notHandle]
    split
    · next large =>
        rcases hugeAllocate_some large mappable with ⟨r, allocated⟩
        simp only [Runtime.hreallocHuge, allocated, Option.bind_eq_bind, Option.bind_some]
        exact ⟨_, rfl⟩
    · next small =>
        rcases holds.newObject_some room tid_lt pos (by simpa using small) with
          ⟨taken, r, mapping, backing⟩
        simp only [Runtime.hreallocFromHuge, mapping, backing, Option.bind_eq_bind,
          Option.bind_some]
        exact ⟨_, rfl⟩

theorem Holds.localityTarget_some (holds : rt.Holds objects none none) (room : rt.HasRoom)
    (tid size : Nat) : ∃ r, rt.localityTarget tid size = some r := by
  have exchanged := holds.newLocalityPage_some room.page (Nat.succ_pos (size + 31)) tid
  unfold Runtime.localityTarget
  split
  · exact exchanged
  · split
    · exact exchanged
    · exact ⟨_, rfl⟩

theorem Holds.localize_some (holds : rt.Holds objects none none) (room : rt.HasRoom)
    (tid_lt : tid < rt.cacheCount) (m epoch : Nat) : ∃ r, rt.localize tid m epoch = some r := by
  unfold Runtime.localize
  split
  · exact ⟨_, rfl⟩
  by_cases live : Live objects none m
  swap
  · rw [holds.getUnaligned_stale live]
    exact ⟨_, rfl⟩
  rcases live with ⟨inTable, object, isLive⟩ | isHeld
  swap
  · exact nomatch isHeld
  rcases holds.located m object inTable isLive with ⟨place, located⟩
  have page := holds.heap.getUnaligned_addr located.named
  have size := holds.sizeOf_place located.named
  rw [located.addr, page]
  simp only [Runtime.localizeFrom]
  cases isPage : rt.heap.pages place.page with
  | locality page => exact ⟨_, rfl⟩
  | sized page =>
      simp only [Runtime.sizeOf, isPage, Option.some.injEq] at size
      simp only [size]
      split
      · exact ⟨_, rfl⟩
      next small =>
      rcases holds.localityTarget_some room tid (rt.heap.room place) with ⟨⟨target, rt₁⟩, exchanged⟩
      rcases holds.localizeMove tid_lt inTable isLive located isPage (Nat.not_lt.mp small) exchanged
        epoch with ⟨_, rt', moved, _⟩
      simp only [exchanged, Option.bind_eq_bind, Option.bind_some]
      split
      · exact ⟨_, rfl⟩
      · simp only [moved, Option.bind_some]
        exact ⟨_, rfl⟩

end Runtime

namespace ClientState

open Alaska.Runtime

variable {s t : ClientState} {op : RuntimeOp}

/--
The program may ask for the operation: its thread cache exists, the pointers are live, the
sizes are valid, and `mmap` finds a place for a huge object. A locality page is compacted only
while it holds an object, and only sized pages are jumbled.
-/
def Allowed (s : ClientState) : RuntimeOp → Prop
  | .newThreadcache => True
  | .halloc tid size _ address =>
      tid < s.runtime.cacheCount ∧ Objects.ValidSize size ∧ s.runtime.Mappable size address
  | .hfree tid handle => tid < s.runtime.cacheCount ∧ s.objects handle ≠ none
  | .hrealloc tid handle newSize address =>
      tid < s.runtime.cacheCount ∧ Objects.ValidSize newSize ∧ s.objects handle ≠ none ∧
        s.runtime.Mappable newSize address
  | .localize tid _ _ => tid < s.runtime.cacheCount
  | .compact n => n < s.runtime.heap.allocCount ∧
      ∀ p, s.runtime.heap.pages n = .locality p → p.HasLive
  | .jumble n => n < s.runtime.heap.allocCount ∧ ∃ p, s.runtime.heap.pages n = .sized p
  | .setPinned handle _ => s.objects handle ≠ none
  | .write handle offset _ => ∃ object, s.objects handle = some object ∧ offset < object.size

theorem next_of_perform {r : Nat × Runtime} {objects : Objects}
    (performed : s.runtime.perform op = some r) (stepped : s.objects.step op r.1 = some objects) :
    s.next op = some ⟨r.2, objects⟩ := by
  simp only [next, performed, stepped, Option.bind_eq_bind, Option.bind_some]

/-- The operations that the program may ask for succeed while there is room. -/
theorem next_some (holds : s.runtime.Holds s.objects none none) (room : s.runtime.HasRoom)
    (fits : op.Fits) (allowed : s.Allowed op) : ∃ t, s.next op = some t := by
  cases op with
  | newThreadcache => exact ⟨_, next_of_perform (r := (0, s.runtime.newThreadcache)) rfl rfl⟩
  | halloc tid size zero address =>
      rcases allowed with ⟨tid_lt, valid, mappable⟩
      rcases holds.halloc_some room tid_lt valid.1 mappable zero with ⟨r, result⟩
      refine ⟨_, next_of_perform (r := r) ?_ (if_pos valid)⟩
      rw [perform, onCache, if_pos tid_lt, result]
  | hfree tid handle =>
      rcases allowed with ⟨tid_lt, live⟩
      rcases Option.ne_none_iff_exists'.mp live with ⟨object, isLive⟩
      rcases holds.hfree tid isLive with ⟨rt, result, _⟩
      have removed : s.objects.step (.hfree tid handle) 0 = some (s.objects.remove handle) := by
        rw [Objects.step, isLive, Option.map_some]
      refine ⟨_, next_of_perform (r := (0, rt)) ?_ removed⟩
      rw [perform, onCache, if_pos tid_lt, result, Option.map_some]
  | hrealloc tid handle newSize address =>
      rcases allowed with ⟨tid_lt, valid, live, mappable⟩
      rcases Option.ne_none_iff_exists'.mp live with ⟨object, isLive⟩
      rcases holds.hrealloc_some room tid_lt isLive valid.1 fits mappable with ⟨r, result⟩
      have replaced : s.objects.step (.hrealloc tid handle newSize address) r.1 =
          some ((s.objects.remove handle).insert r.1 (Objects.resize object newSize)) := by
        rw [Objects.step, if_pos valid, isLive, Option.map_some]
      refine ⟨_, next_of_perform (r := r) ?_ replaced⟩
      rw [perform, onCache, if_pos tid_lt, result]
  | localize tid m epoch =>
      have tid_lt : tid < s.runtime.cacheCount := allowed
      rcases holds.localize_some room tid_lt m epoch with ⟨r, result⟩
      refine ⟨_, next_of_perform (r := (0, r.2)) ?_ rfl⟩
      rw [perform, onCache, if_pos tid_lt, result, Option.map_some]
  | compact n =>
      rcases allowed with ⟨lt, live⟩
      have compacted : ∃ rt, s.runtime.compactPage n = some rt := by
        unfold compactPage
        cases isPage : s.runtime.heap.pages n with
        | sized p => exact ⟨_, rfl⟩
        | locality p =>
            rcases holds.valid_locality lt isPage with ⟨valid, _⟩
            rcases valid.compact (live p isPage) with ⟨r, passed, _⟩
            simp only [passed, Option.map_some]
            exact ⟨_, rfl⟩
      rcases compacted with ⟨rt, compacted⟩
      refine ⟨_, next_of_perform (r := (0, rt)) ?_ rfl⟩
      rw [perform, if_pos lt, compacted, Option.map_some]
  | jumble n =>
      rcases allowed with ⟨lt, p, isSized⟩
      have jumbled : ∃ rt, s.runtime.jumblePage n = some rt := by
        simp only [jumblePage, isSized]
        exact ⟨_, rfl⟩
      rcases jumbled with ⟨rt, jumbled⟩
      refine ⟨_, next_of_perform (r := (0, rt)) ?_ rfl⟩
      rw [perform, if_pos lt, jumbled, Option.map_some]
  | setPinned handle pinned =>
      rcases Option.ne_none_iff_exists'.mp allowed with ⟨object, isLive⟩
      have stays : s.objects.step (.setPinned handle pinned) 0 = some s.objects := by
        rw [Objects.step, isLive, Option.map_some]
      exact ⟨_, next_of_perform (r := (0, s.runtime.setPinned handle pinned)) rfl stays⟩
  | write handle offset value =>
      rcases allowed with ⟨object, isLive, lt⟩
      have written : s.objects.step (.write handle offset value) 0 =
          some (s.objects.insert handle
            { object with data := Function.update object.data offset (some value) }) := by
        rw [Objects.step, isLive, Option.bind_some, if_pos lt]
      exact ⟨_, next_of_perform (r := (0, s.runtime.storeByte handle offset value)) rfl written⟩

/--
In every state of a run in which the heap has a page and the handle table a slab to spare,
every operation that the program may ask for succeeds: the assertions of the thread cache
and the null mapping after an exchange of the slab are out of reach.
-/
theorem succeeds_of_run {heapStart : Nat} (placed : Heap.Placed heapStart) {ops : List RuntimeOp}
    (run : Run (ofFunction next) (initial heapStart) ops s) (fits : ∀ op ∈ ops, op.Fits)
    (room : s.runtime.HasRoom) :
    ∀ op, op.Fits → s.Allowed op → ∃ t, s.next op = some t := by
  have holds := holds_of_run (initial_holds placed) run fits room.slab.le
  exact fun op opFits allowed => next_some holds room opFits allowed

theorem succeeds_session :
    let s := (replay next (initial (2 ^ 44)) sessionOps).get sessionOps_allowed
    ∀ op, op.Fits → s.Allowed op → ∃ t, s.next op = some t :=
  succeeds_of_run placed_session (run_of_replay (Option.some_get sessionOps_allowed).symm)
    (by decide) ⟨by decide +kernel, by decide +kernel⟩

end ClientState

end Alaska
