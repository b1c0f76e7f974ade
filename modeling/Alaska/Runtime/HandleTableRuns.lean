import Alaska.Lib.Run
import Alaska.Runtime.ThreadCache

/-!
# Runs of the handle table

The thread caches allocate mappings from their slabs, return them to the table, and take
further slabs, operation by operation. `TableState.live` keeps for each allocated mapping
the slab that it came from. A table that would not fit the user's address space cannot be
mapped, so an operation that needs one does not return.
-/

namespace Alaska

open Memory Lts

namespace HandleTable

/-- `grow`, when `mremap` grows the mapped region in place. -/
def grow (t : HandleTable) : HandleTable := { t with capacity := t.capacity * 2 }

/-- The memory of the table is mapped. -/
def isMapped (t : HandleTable) : Bool := decide (getSlabStart t.capacity ≤ userSpace)

/-- There is memory for every slab. -/
structure Bounded (t : HandleTable) : Prop where
  count_le : t.slabCount ≤ t.capacity
  pos : 0 < t.capacity

variable {t : HandleTable} {owner : Nat}

theorem Bounded.freshSlab (bounded : t.Bounded) : (t.freshSlab owner).2.Bounded := by
  have count_le := bounded.count_le
  have pos := bounded.pos
  constructor
  · simp only [HandleTable.freshSlab]
    split <;> omega
  · simp only [HandleTable.freshSlab]
    split <;> omega

theorem Bounded.newSlab (bounded : t.Bounded) : (t.newSlab owner).2.Bounded := by
  unfold HandleTable.newSlab
  split
  · exact ⟨bounded.count_le, bounded.pos⟩
  · exact bounded.freshSlab

theorem getSlabStart_mono {idx other : Nat} (le : idx ≤ other) :
    getSlabStart idx ≤ getSlabStart other := by
  simp only [getSlabStart, slabSize, pageSize]
  omega

theorem Bounded.fits (bounded : t.Bounded) (mapped : t.isMapped = true) :
    getSlabStart t.slabCount ≤ userSpace := by
  rw [isMapped, decide_eq_true_eq] at mapped
  exact (getSlabStart_mono bounded.count_le).trans mapped

/-- `new_slab` changes the owner of the slab that it returns, and of no other one. -/
theorem newSlab_owner (t : HandleTable) (owner : Nat) :
    ((t.newSlab owner).2.slabs (t.newSlab owner).1).owner = some owner ∧
      (∀ idx, idx ≠ (t.newSlab owner).1 →
        (t.newSlab owner).2.slabs idx = t.slabs idx) ∧
      ((t.newSlab owner).1 < t.slabCount → (t.slabs (t.newSlab owner).1).owner = none) := by
  unfold newSlab
  split
  · next idx search =>
      have free := List.find?_some search
      simp only [Bool.and_eq_true, beq_iff_eq] at free
      refine ⟨?_, fun other ne => Function.update_of_ne ne _ _, fun _ => free.1⟩
      simp [setOwner, setSlab]
  · refine ⟨?_, fun other ne => Function.update_of_ne ne _ _, fun lt => ?_⟩
    · simp [freshSlab]
    · exact absurd lt (Nat.lt_irrefl _)

/-- `new_slab` returns no slab that has an owner. -/
theorem newSlab_keeps {idx tid : Nat} (inTable : idx < t.slabCount)
    (owned : (t.slabs idx).owner = some tid) (owner : Nat) :
    idx < (t.newSlab owner).2.slabCount ∧ idx ≠ (t.newSlab owner).1 ∧
      ((t.newSlab owner).2.slabs idx).owner = some tid := by
  rcases newSlab_owner t owner with ⟨_, others, unowned⟩
  have different : idx ≠ (t.newSlab owner).1 := by
    intro same
    rw [same] at inTable owned
    rw [unowned inTable] at owned
    exact nomatch owned
  refine ⟨inTable.trans_le (slabCount_le_newSlab _ _), different, ?_⟩
  rw [others _ different]
  exact owned

/-- The slab that `new_slab` returns is in the table. -/
theorem newSlab_lt (t : HandleTable) (owner : Nat) :
    (t.newSlab owner).1 < (t.newSlab owner).2.slabCount := by
  unfold newSlab
  split
  · next idx search => exact List.mem_range.mp (List.mem_of_find?_eq_some search)
  · exact Nat.lt_succ_self _

theorem newSlab_older {idx : Nat} (lt : idx < (t.newSlab owner).2.slabCount)
    (ne : idx ≠ (t.newSlab owner).1) : idx < t.slabCount := by
  unfold newSlab at lt ne
  split at lt
  · exact lt
  · next search =>
      rw [search] at ne
      exact Nat.lt_of_le_of_ne (Nat.le_of_lt_succ lt) ne

end HandleTable

open HandleTable

namespace Runtime

/-- The table is sound for the mappings in `live`, and every thread cache owns its slab. -/
structure SlabsHold (rt : Runtime) (live : Nat → Prop) : Prop where
  table : rt.table.Slabs rt.store.mappings live
  bounded : rt.table.Bounded
  owned : ∀ tid < rt.cacheCount, (rt.caches tid).handleSlab < rt.table.slabCount ∧
    (rt.table.slabs (rt.caches tid).handleSlab).owner = some tid

variable {rt rt' : Runtime} {live live' : Nat → Prop} {tid idx m : Nat}

/-! ## What stays the same -/

/-- The slabs of `rt` are slabs of `rt'`, at the same place. -/
structure KeepsSlabs (rt rt' : Runtime) : Prop where
  cacheCount : rt'.cacheCount = rt.cacheCount
  slabCount : rt.table.slabCount ≤ rt'.table.slabCount
  bounded : rt.table.Bounded → rt'.table.Bounded

theorem KeepsSlabs.trans {rt'' : Runtime} (first : KeepsSlabs rt rt')
    (second : KeepsSlabs rt' rt'') : KeepsSlabs rt rt'' where
  cacheCount := second.cacheCount.trans first.cacheCount
  slabCount := first.slabCount.trans second.slabCount
  bounded := second.bounded ∘ first.bounded

theorem KeepsSlabs.slabAlloc (rt : Runtime) (idx : Nat) : KeepsSlabs rt (rt.slabAlloc idx).2 :=
  ⟨rfl, Nat.le_refl _, fun bounded => ⟨bounded.count_le, bounded.pos⟩⟩

theorem KeepsSlabs.newHandleSlab (rt : Runtime) (tid : Nat) :
    KeepsSlabs rt (rt.newHandleSlab tid) where
  cacheCount := rfl
  slabCount := slabCount_le_newSlab rt.table tid
  bounded := fun bounded =>
    have fresh : (rt.table.newSlab tid).2.Bounded := bounded.newSlab
    ⟨fresh.count_le, fresh.pos⟩

theorem KeepsSlabs.tryMapping (rt : Runtime) (tid : Nat) :
    KeepsSlabs rt (rt.tryMapping tid).2 := by
  have first := KeepsSlabs.slabAlloc rt (rt.caches tid).handleSlab
  simp only [Runtime.tryMapping]
  split
  · exact (first.trans (.newHandleSlab _ tid)).trans (.slabAlloc _ _)
  · exact first

theorem KeepsSlabs.newMappingWithin {depth : Nat} {r : Nat × Runtime}
    (result : newMappingWithin depth rt tid = some r) : KeepsSlabs rt r.2 := by
  induction depth generalizing rt with
  | zero => exact nomatch result
  | succ depth ih =>
      have attempt := KeepsSlabs.tryMapping rt tid
      simp only [Runtime.newMappingWithin] at result
      split at result
      · exact attempt.trans (ih result)
      · obtain rfl := Option.some.inj result
        exact attempt

/-! ## Each operation keeps the table sound -/

namespace SlabsHold

theorem shrink (holds : rt.SlabsHold live) (subset : ∀ m, live' m → live m) :
    rt.SlabsHold live' :=
  ⟨holds.table.shrink subset, holds.bounded, holds.owned⟩

/-- `handle_slab->alloc()`. -/
theorem slabAlloc (holds : rt.SlabsHold live) (lt : idx < rt.table.slabCount) :
    ((rt.slabAlloc idx).1 = 0 ∧ (rt.slabAlloc idx).2.SlabsHold live) ∨
      (¬ live (rt.slabAlloc idx).1 ∧
        (rt.slabAlloc idx).2.SlabsHold (fun m => live m ∨ m = (rt.slabAlloc idx).1) ∧
        ∃ index < slabCapacity, (rt.slabAlloc idx).1 = mappingAt idx index) := by
  have owned : ∀ tid < rt.cacheCount, (rt.caches tid).handleSlab < rt.table.slabCount ∧
      ((rt.slabAlloc idx).2.table.slabs (rt.caches tid).handleSlab).owner = some tid := by
    intro tid tid_lt
    rcases holds.owned tid tid_lt with ⟨inTable, owner⟩
    refine ⟨inTable, ?_⟩
    by_cases same : (rt.caches tid).handleSlab = idx
    · simpa [Runtime.slabAlloc, HandleTable.alloc, HandleTable.setSlab, same] using owner
    · simpa [Runtime.slabAlloc, HandleTable.alloc, HandleTable.setSlab, same] using owner
  have bounded := (KeepsSlabs.slabAlloc rt idx).bounded holds.bounded
  rcases holds.table.alloc lt with ⟨null, table, _⟩ | ⟨dead, table, inside, _, _⟩
  · exact Or.inl ⟨null, table, bounded, owned⟩
  · exact Or.inr ⟨dead, ⟨table, bounded, owned⟩, inside⟩

/-- A direct `new_slab`. -/
theorem newSlab (holds : rt.SlabsHold live) (owner : Nat)
    (room : getSlabStart (rt.table.newSlab owner).2.slabCount ≤ userSpace) :
    SlabsHold { rt with table := (rt.table.newSlab owner).2 } live where
  table := (holds.table.newSlab room).1
  bounded := holds.bounded.newSlab
  owned := fun tid lt =>
    have kept := newSlab_keeps (holds.owned tid lt).1 (holds.owned tid lt).2 owner
    ⟨kept.1, kept.2.2⟩

/-- A direct `fresh_slab`. -/
theorem freshSlab (holds : rt.SlabsHold live) (owner : Nat)
    (room : getSlabStart (rt.table.slabCount + 1) ≤ userSpace) :
    SlabsHold { rt with table := (rt.table.freshSlab owner).2 } live where
  table := holds.table.freshSlab room
  bounded := holds.bounded.freshSlab
  owned := by
    intro tid lt
    rcases holds.owned tid lt with ⟨inTable, owner_eq⟩
    refine ⟨inTable.trans (Nat.lt_succ_self _), ?_⟩
    simpa [HandleTable.freshSlab, inTable.ne] using owner_eq

/-- The exchange of a full slab. -/
theorem newHandleSlab (holds : rt.SlabsHold live) (lt : tid < rt.cacheCount)
    (room : getSlabStart (rt.newHandleSlab tid).table.slabCount ≤ userSpace) :
    (rt.newHandleSlab tid).SlabsHold live ∧
      ((rt.newHandleSlab tid).caches tid).handleSlab < (rt.newHandleSlab tid).table.slabCount := by
  rcases holds.table.newSlab room with ⟨table, inTable⟩
  rcases newSlab_owner rt.table tid with ⟨newOwner, _, _⟩
  have own := newSlab_keeps (holds.owned tid lt).1 (holds.owned tid lt).2 tid
  have slab : ((rt.newHandleSlab tid).caches tid).handleSlab = (rt.table.newSlab tid).1 := by
    simp [Runtime.newHandleSlab]
  refine ⟨⟨table.setOwner _ _, (KeepsSlabs.newHandleSlab rt tid).bounded holds.bounded, ?_⟩, ?_⟩
  · intro other other_lt
    by_cases same : other = tid
    · subst other
      rw [slab]
      refine ⟨inTable, ?_⟩
      simpa [Runtime.newHandleSlab, HandleTable.setOwner, HandleTable.setSlab, own.2.1.symm]
        using newOwner
    · -- the slab that loses its owner is not the one of another cache
      have kept := newSlab_keeps (holds.owned other other_lt).1 (holds.owned other other_lt).2 tid
      have different : (rt.caches other).handleSlab ≠ (rt.caches tid).handleSlab := by
        intro equal
        have conflict := own.2.2
        rw [← equal, kept.2.2] at conflict
        exact same (Option.some.inj conflict)
      refine ⟨?_, ?_⟩
      · simpa [Runtime.newHandleSlab, HandleTable.setOwner, same] using kept.1
      · simpa [Runtime.newHandleSlab, HandleTable.setOwner, HandleTable.setSlab, same, different]
          using kept.2.2
  · rw [slab]
    exact inTable

/-- The mapping comes from the slab that the cache has afterwards. -/
def Takes (rt' : Runtime) (tid m : Nat) : Prop :=
  (rt'.caches tid).handleSlab < rt'.table.slabCount ∧
    ∃ index < slabCapacity, m = mappingAt (rt'.caches tid).handleSlab index

/-- One attempt of `new_mapping`. -/
theorem tryMapping (holds : rt.SlabsHold live) (lt : tid < rt.cacheCount)
    (room : getSlabStart (rt.tryMapping tid).2.table.slabCount ≤ userSpace) :
    ((rt.tryMapping tid).1 = 0 ∧ (rt.tryMapping tid).2.SlabsHold live) ∨
      (¬ live (rt.tryMapping tid).1 ∧
        (rt.tryMapping tid).2.SlabsHold (fun m => live m ∨ m = (rt.tryMapping tid).1) ∧
        Takes (rt.tryMapping tid).2 tid (rt.tryMapping tid).1) := by
  have first := holds.slabAlloc (holds.owned tid lt).1
  simp only [Runtime.tryMapping] at room ⊢
  split at room
  · next null =>
      rw [if_pos null]
      have exhausted : (rt.slabAlloc (rt.caches tid).handleSlab).2.SlabsHold live := by
        rcases first with ⟨_, exhausted⟩ | ⟨_, taken, _⟩
        · exact exhausted
        · exact taken.shrink fun _ isLive => Or.inl isLive
      rcases exhausted.newHandleSlab lt room with ⟨exchanged, inTable⟩
      rcases exchanged.slabAlloc inTable with second | ⟨dead, taken, inside⟩
      · exact Or.inl second
      · exact Or.inr ⟨dead, taken, inTable, inside⟩
  · next found =>
      rw [if_neg found]
      rcases first with ⟨null, _⟩ | ⟨dead, taken, inside⟩
      · exact absurd null found
      · exact Or.inr ⟨dead, taken, (holds.owned tid lt).1, inside⟩

/-- `new_mapping` returns a mapping that was not live, and not one of the two skipped ids. -/
theorem newMappingWithin {depth : Nat} {r : Nat × Runtime} (holds : rt.SlabsHold live)
    (lt : tid < rt.cacheCount) (result : newMappingWithin depth rt tid = some r)
    (room : getSlabStart r.2.table.slabCount ≤ userSpace) :
    ¬ live r.1 ∧ r.2.SlabsHold (fun m => live m ∨ m = r.1) ∧ Takes r.2 tid r.1 ∧
      Mapping.handleId r.1 ≠ 0 ∧ Mapping.handleId r.1 ≠ 10 := by
  induction depth generalizing rt with
  | zero => exact nomatch result
  | succ depth ih =>
      have attempt := KeepsSlabs.tryMapping rt tid
      simp only [Runtime.newMappingWithin] at result
      split at result
      · have later := KeepsSlabs.newMappingWithin result
        have within := (getSlabStart_mono later.slabCount).trans room
        refine ih ?_ (attempt.cacheCount ▸ lt) result
        rcases holds.tryMapping lt within with ⟨_, kept⟩ | ⟨_, kept, _⟩
        · exact kept
        · exact kept.shrink fun _ isLive => Or.inl isLive
      · next accepted =>
          obtain rfl := Option.some.inj result
          rcases holds.tryMapping lt room with ⟨null, _⟩ | ⟨dead, kept, takes⟩
          · rw [null] at accepted
            exact absurd (Or.inl (by decide)) accepted
          · exact ⟨dead, kept, takes, not_or.mp accepted⟩

/-- `put` of a live mapping by any owner. -/
theorem put (holds : rt.SlabsHold live) (isLive : live m) (owner : Nat)
    (result : rt.put owner m = some rt') :
    rt'.SlabsHold (fun m' => live m' ∧ m' ≠ m) ∧ KeepsSlabs rt rt' := by
  rcases holds.table.put isLive owner with
    ⟨t', mappings', put, table, count, capacity, _, idx, lt, link, _, _, a, same⟩
  rw [Runtime.put, put, Option.map_some, Option.some.injEq] at result
  subst rt'
  have bounded : t'.Bounded := by
    refine ⟨?_, ?_⟩
    · rw [count, capacity]
      exact holds.bounded.count_le
    · rw [capacity]
      exact holds.bounded.pos
  refine ⟨⟨table, bounded, ?_⟩, ⟨rfl, Nat.le_of_eq count.symm, fun _ => bounded⟩⟩
  intro tid tid_lt
  rcases holds.owned tid tid_lt with ⟨inTable, owner_eq⟩
  refine ⟨by simpa only [count] using inTable, ?_⟩
  simp only [same, HandleTable.setSlab]
  by_cases equal : (rt.caches tid).handleSlab = idx
  · simpa [equal] using owner_eq
  · simpa [equal] using owner_eq

/-- `new_threadcache`. -/
theorem newThreadcache (holds : rt.SlabsHold live)
    (room : getSlabStart rt.newThreadcache.table.slabCount ≤ userSpace) :
    rt.newThreadcache.SlabsHold live where
  table := (holds.table.newSlab room).1
  bounded := holds.bounded.newSlab
  owned := by
    intro tid lt
    by_cases same : tid = rt.cacheCount
    · subst tid
      have slab := (holds.table.newSlab room).2
      have owner := (newSlab_owner rt.table rt.cacheCount).1
      simpa only [Runtime.newThreadcache, Function.update_self] using ⟨slab, owner⟩
    · have before : tid < rt.cacheCount := by
        simp only [Runtime.newThreadcache] at lt
        omega
      have kept := newSlab_keeps (holds.owned tid before).1 (holds.owned tid before).2 rt.cacheCount
      simpa only [Runtime.newThreadcache, Function.update_of_ne same] using ⟨kept.1, kept.2.2⟩

end SlabsHold

end Runtime

/-! ## Runs -/

/-- A runtime, and the live mappings with the slab each was allocated from. -/
structure TableState where
  rt : Runtime
  live : List (Nat × Nat)

inductive TableOp where
  | newThreadcache
  | newMapping (tid : Nat)
  | put (owner m : Nat)
  | newSlab (tid : Nat)
  | freshSlab (tid : Nat)
  | grow
  | write (m : Nat) (word : Mapping)

namespace TableState

/-- A fresh runtime without thread caches. -/
def start (heapStart : Nat) : TableState := ⟨Runtime.create heapStart, []⟩

/-- The addresses of the live mappings. -/
def mappings (s : TableState) : List Nat := s.live.map Prod.fst

def setTable (s : TableState) (table : HandleTable) : TableState :=
  { s with rt := { s.rt with table := table } }

/-- One operation; only live mappings are put back or written. -/
def perform (s : TableState) : TableOp → Option TableState
  | .newThreadcache => some { s with rt := s.rt.newThreadcache }
  | .newMapping tid =>
      if tid < s.rt.cacheCount then
        (s.rt.newMapping tid).map fun r => ⟨r.2, (r.1, (r.2.caches tid).handleSlab) :: s.live⟩
      else
        none
  | .put owner m =>
      if m ∈ s.mappings then
        (s.rt.put owner m).map fun rt => ⟨rt, s.live.filter fun entry => entry.1 ≠ m⟩
      else
        none
  | .newSlab tid => some (s.setTable (s.rt.table.newSlab tid).2)
  | .freshSlab tid => some (s.setTable (s.rt.table.freshSlab tid).2)
  | .grow => some (s.setTable s.rt.table.grow)
  | .write m word =>
      if m ∈ s.mappings then
        some { s with rt := { s.rt with
          store := { s.rt.store with mappings := Function.update s.rt.store.mappings m word } } }
      else
        none

/-- An operation returns only when the memory of the table could be mapped. -/
def next (s : TableState) (op : TableOp) : Option TableState :=
  (s.perform op).filter fun t => t.rt.table.isMapped

/-- What holds of the live mappings, the slabs and the thread caches. -/
structure WellAllocated (s : TableState) : Prop where
  distinct : s.mappings.Nodup
  ids : ∀ m ∈ s.mappings, Mapping.handleId m ≠ 0 ∧ Mapping.handleId m ≠ 10
  inSlab : ∀ entry ∈ s.live, entry.2 < s.rt.table.slabCount ∧ getSlabStart entry.2 ≤ entry.1 ∧
    entry.1 + 8 ≤ getSlabStart entry.2 + slabSize ∧ mappingSlabIdx entry.1 = entry.2
  starts : ∀ idx < s.rt.table.slabCount,
    (s.rt.table.slabs idx).allocator.objectsStart = getSlabStart idx
  count_le : s.rt.table.slabCount ≤ s.rt.table.capacity
  owned : ∀ tid < s.rt.cacheCount,
    (s.rt.table.slabs (s.rt.caches tid).handleSlab).owner = some tid
  alone : ∀ tid < s.rt.cacheCount, ∀ other < s.rt.cacheCount,
    (s.rt.caches tid).handleSlab = (s.rt.caches other).handleSlab → tid = other

structure Invariant (s : TableState) : Prop where
  slabs : s.rt.SlabsHold fun m => m ∈ s.mappings
  distinct : s.mappings.Nodup
  ids : ∀ m ∈ s.mappings, Mapping.handleId m ≠ 0 ∧ Mapping.handleId m ≠ 10
  inSlab : ∀ entry ∈ s.live, entry.2 < s.rt.table.slabCount ∧
    ∃ index < slabCapacity, entry.1 = mappingAt entry.2 index

variable {s t : TableState} {op : TableOp}

theorem Invariant.wellAllocated (invariant : s.Invariant) : s.WellAllocated where
  distinct := invariant.distinct
  ids := invariant.ids
  inSlab := by
    intro entry member
    rcases invariant.inSlab entry member with ⟨lt, index, index_lt, address⟩
    have inside := mappingAt_inside entry.2 index_lt
    rw [address]
    exact ⟨lt, inside.1, inside.2,
      mappingSlabIdx_mappingAt invariant.slabs.table.fits lt index_lt⟩
  starts := by
    intro idx lt
    rcases invariant.slabs.table.slabs idx lt with ⟨_, _, _, slab⟩
    exact slab.start
  count_le := invariant.slabs.bounded.count_le
  owned := fun tid lt => (invariant.slabs.owned tid lt).2
  alone := by
    intro tid lt other other_lt same
    have owner := (invariant.slabs.owned tid lt).2
    rw [same, (invariant.slabs.owned other other_lt).2] at owner
    exact (Option.some.inj owner).symm

theorem start_invariant (heapStart : Nat) : (start heapStart).Invariant where
  slabs := by
    refine ⟨?_, ⟨Nat.zero_le _, Nat.succ_pos 15⟩, nofun⟩
    exact Slabs.create.shrink fun m isLive => by simp [start, mappings] at isLive
  distinct := List.nodup_nil
  ids := nofun
  inSlab := nofun

/-- The slabs of `s` are slabs of `t`, and only a `put` takes a live mapping away. -/
structure Keeps (s : TableState) (op : TableOp) (t : TableState) : Prop where
  slabCount : s.rt.table.slabCount ≤ t.rt.table.slabCount
  live : ∀ entry ∈ s.live, (∀ owner, op ≠ .put owner entry.1) → entry ∈ t.live

theorem Invariant.next (invariant : s.Invariant) (step : s.next op = some t) :
    t.Invariant ∧ s.Keeps op t := by
  simp only [TableState.next, Option.filter_eq_some_iff] at step
  rcases step with ⟨step, mapped⟩
  have slabs := invariant.slabs
  cases op with
  | newThreadcache =>
      obtain rfl := Option.some.inj step
      have bounded : (s.rt.table.newSlab s.rt.cacheCount).2.Bounded := slabs.bounded.newSlab
      have count := slabCount_le_newSlab s.rt.table s.rt.cacheCount
      refine ⟨⟨slabs.newThreadcache (bounded.fits mapped), invariant.distinct, invariant.ids, ?_⟩,
        count, fun _ member _ => member⟩
      intro entry member
      exact ⟨(invariant.inSlab entry member).1.trans_le count, (invariant.inSlab entry member).2⟩
  | newMapping tid =>
      simp only [perform, Option.ite_none_right_eq_some, Option.map_eq_some_iff] at step
      rcases step with ⟨lt, r, result, rfl⟩
      have kept := Runtime.KeepsSlabs.newMappingWithin result
      have room := (kept.bounded slabs.bounded).fits mapped
      rcases slabs.newMappingWithin lt result room with ⟨dead, holds, ⟨inTable, inside⟩, ids⟩
      refine ⟨⟨holds.shrink ?_, List.nodup_cons.mpr ⟨dead, invariant.distinct⟩, ?_, ?_⟩,
        kept.slabCount, fun _ member _ => List.mem_cons_of_mem _ member⟩
      · intro m member
        exact (List.mem_cons.mp member).symm
      · intro m member
        rcases List.mem_cons.mp member with rfl | member
        · exact ids
        · exact invariant.ids m member
      · intro entry member
        rcases List.mem_cons.mp member with rfl | member
        · exact ⟨inTable, inside⟩
        · rcases invariant.inSlab entry member with ⟨before, address⟩
          exact ⟨before.trans_le kept.slabCount, address⟩
  | put owner m =>
      simp only [perform, Option.ite_none_right_eq_some, Option.map_eq_some_iff] at step
      rcases step with ⟨isLive, rt, result, rfl⟩
      rcases slabs.put isLive owner result with ⟨holds, kept⟩
      have subset : ∀ m' ∈ (s.live.filter fun entry => entry.1 ≠ m).map Prod.fst,
          m' ∈ s.mappings ∧ m' ≠ m := by
        simp only [List.mem_map, List.mem_filter, decide_eq_true_eq, mappings]
        rintro _ ⟨entry, ⟨member, ne⟩, rfl⟩
        exact ⟨⟨entry, member, rfl⟩, ne⟩
      refine ⟨⟨holds.shrink subset, ?_, fun m' member => invariant.ids m' (subset m' member).1, ?_⟩,
        kept.slabCount, ?_⟩
      · exact invariant.distinct.sublist ((List.filter_sublist).map _)
      · intro entry member
        rcases invariant.inSlab entry (List.mem_filter.mp member).1 with ⟨before, address⟩
        exact ⟨before.trans_le kept.slabCount, address⟩
      · intro entry member keeps
        refine List.mem_filter.mpr ⟨member, ?_⟩
        rw [decide_eq_true_eq]
        rintro rfl
        exact keeps owner rfl
  | newSlab tid =>
      obtain rfl := Option.some.inj step
      have bounded : (s.rt.table.newSlab tid).2.Bounded := slabs.bounded.newSlab
      have count := slabCount_le_newSlab s.rt.table tid
      refine ⟨⟨slabs.newSlab tid (bounded.fits mapped), invariant.distinct, invariant.ids, ?_⟩,
        count, fun _ member _ => member⟩
      intro entry member
      exact ⟨(invariant.inSlab entry member).1.trans_le count, (invariant.inSlab entry member).2⟩
  | freshSlab tid =>
      obtain rfl := Option.some.inj step
      have bounded : (s.rt.table.freshSlab tid).2.Bounded := slabs.bounded.freshSlab
      refine ⟨⟨slabs.freshSlab tid (bounded.fits mapped), invariant.distinct, invariant.ids, ?_⟩,
        Nat.le_succ _, fun _ member _ => member⟩
      intro entry member
      exact ⟨(invariant.inSlab entry member).1.trans (Nat.lt_succ_self _),
        (invariant.inSlab entry member).2⟩
  | grow =>
      obtain rfl := Option.some.inj step
      have bounded : s.rt.table.grow.Bounded := by
        have count_le := slabs.bounded.count_le
        have pos := slabs.bounded.pos
        constructor <;> simp only [HandleTable.grow] <;> omega
      exact ⟨⟨⟨⟨slabs.table.fits, slabs.table.slabs, slabs.table.inSlabs⟩, bounded, slabs.owned⟩,
        invariant.distinct, invariant.ids, invariant.inSlab⟩, Nat.le_refl _,
        fun _ member _ => member⟩
  | write m word =>
      simp only [perform, Option.ite_none_right_eq_some, Option.some.injEq] at step
      rcases step with ⟨isLive, rfl⟩
      refine ⟨⟨⟨slabs.table.congr fun m' notLive => Function.update_of_ne ?_ _ _, slabs.bounded,
        slabs.owned⟩, invariant.distinct, invariant.ids, invariant.inSlab⟩, Nat.le_refl _,
        fun _ member _ => member⟩
      rintro rfl
      exact notLive isLive

/--
In every run the live mappings are distinct and inside the slab they came from, every
thread cache allocates from a slab of its own, and a further step, with or without growth
of the table, moves neither a slab nor a live mapping.
-/
theorem wellAllocated_of_run {heapStart : Nat} {ops : List TableOp}
    (run : Run (ofFunction next) (start heapStart) ops s) :
    s.WellAllocated ∧ ∀ op t, s.next op = some t →
      (∀ idx < s.rt.table.slabCount, idx < t.rt.table.slabCount ∧
        (t.rt.table.slabs idx).allocator.objectsStart =
          (s.rt.table.slabs idx).allocator.objectsStart) ∧
      ∀ entry ∈ s.live, (∀ owner, op ≠ .put owner entry.1) → entry ∈ t.live := by
  have invariant : s.Invariant := run.invariant TableState.Invariant
    (fun _ _ _ before step => (before.next step).1) (start_invariant heapStart)
  refine ⟨invariant.wellAllocated, fun op t step => ?_⟩
  rcases invariant.next step with ⟨after, kept⟩
  refine ⟨fun idx lt => ?_, kept.live⟩
  have lt' := lt.trans_le kept.slabCount
  refine ⟨lt', ?_⟩
  rw [after.wellAllocated.starts idx lt', invariant.wellAllocated.starts idx lt]

/-- Two thread caches allocate, one puts the mapping of the other back, and the table grows. -/
def sharedOps : List TableOp :=
  [.newThreadcache, .newThreadcache, .newMapping 0, .newMapping 1, .put 1 (2 ^ 42 + 8), .grow,
    .newMapping 0, .freshSlab 1]

theorem sharedOps_allowed : (replay next (start (2 ^ 44)) sharedOps).isSome = true := by
  decide +kernel

theorem wellAllocated_sharedOps :
    let s := (replay next (start (2 ^ 44)) sharedOps).get sharedOps_allowed
    s.WellAllocated ∧ ∀ op t, s.next op = some t →
      (∀ idx < s.rt.table.slabCount, idx < t.rt.table.slabCount ∧
        (t.rt.table.slabs idx).allocator.objectsStart =
          (s.rt.table.slabs idx).allocator.objectsStart) ∧
      ∀ entry ∈ s.live, (∀ owner, op ≠ .put owner entry.1) → entry ∈ t.live :=
  wellAllocated_of_run (run_of_replay (Option.some_get sharedOps_allowed).symm)

end TableState

end Alaska
