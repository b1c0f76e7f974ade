import Alaska.Runtime.Mapping
import Alaska.Runtime.SizedAllocator
import Alaska.Runtime.SizeClass

/-!
# The handle table

`HandleTable.cpp`: the table is an array of slabs at a fixed address, and every slab
allocates its mappings with a sized allocator whose free lists live in the mappings. The
table grows in place, and a growth that `mremap` refuses aborts the program, so here a
growth succeeds.
-/

namespace Alaska

open Memory

/-- `HandleTable::slab_size`. -/
def slabSize : Nat := pageSize

/-- `HandleTable::slab_capacity`; a mapping has eight bytes. -/
def slabCapacity : Nat := slabSize / 8

structure HandleSlab where
  allocator : SizedAllocator
  owner : Option Nat

/-- The slabs by index; `slabCount` is `m_slabs.size()`. -/
structure HandleTable where
  capacity : Nat
  slabCount : Nat
  slabs : Nat → HandleSlab

namespace HandleTable

/-- A table with `initial_capacity` slabs of memory and no slab. -/
def create : HandleTable where
  capacity := 16
  slabCount := 0
  slabs := fun _ => ⟨SizedAllocator.configure 0 8 0, none⟩

def getSlabStart (idx : Nat) : Nat := handleTableLocation + idx * slabSize

def setSlab (t : HandleTable) (idx : Nat) (slab : HandleSlab) : HandleTable :=
  { t with slabs := Function.update t.slabs idx slab }

def setOwner (t : HandleTable) (idx : Nat) (owner : Option Nat) : HandleTable :=
  t.setSlab idx { t.slabs idx with owner := owner }

/-- `fresh_slab`, with `grow` when the table is full. -/
def freshSlab (t : HandleTable) (owner : Nat) : Nat × HandleTable :=
  let idx := t.slabCount
  let capacity := if idx ≥ t.capacity then t.capacity * 2 else t.capacity
  let slab : HandleSlab :=
    ⟨SizedAllocator.configure (getSlabStart idx) 8 slabCapacity, some owner⟩
  (idx, { capacity := capacity, slabCount := idx + 1, slabs := Function.update t.slabs idx slab })

def newSlab (t : HandleTable) (owner : Nat) : Nat × HandleTable :=
  match (List.range t.slabCount).find? fun idx =>
      (t.slabs idx).owner == none && decide ((t.slabs idx).allocator.numFree > 0) with
  | some idx => (idx, t.setOwner idx (some owner))
  | none => t.freshSlab owner

def mappingSlabIdx (m : Nat) : Nat := (m + (2 ^ 64 - handleTableLocation)) % 2 ^ 64 / slabSize

/-- `HandleSlab::alloc`; the mapping is null when the slab is full. -/
def alloc (t : HandleTable) (mappings : Mappings) (idx : Nat) : Nat × HandleTable × Mappings :=
  let r := (t.slabs idx).allocator.alloc mappings
  (r.object, t.setSlab idx { t.slabs idx with allocator := r.allocator }, r.mem)

/-- `put`; `none` when the assertion fails. -/
def put (t : HandleTable) (mappings : Mappings) (m owner : Nat) :
    Option (HandleTable × Mappings) :=
  let idx := mappingSlabIdx m
  if idx < t.slabCount then
    let slab := t.slabs idx
    let r :=
      if slab.owner = some owner then
        slab.allocator.releaseLocal mappings m
      else
        slab.allocator.releaseRemote mappings m
    some (t.setSlab idx { slab with allocator := r.1 }, r.2)
  else
    none

/-! ## The table invariant -/

/-- The address of mapping `index` of slab `idx`. -/
def mappingAt (idx index : Nat) : Nat := getSlabStart idx + index * 8

/-- `m` is the address of a mapping of one of the slabs. -/
def InSlabs (t : HandleTable) (m : Nat) : Prop :=
  ∃ idx < t.slabCount, ∃ index < slabCapacity, m = mappingAt idx index

/-- What a mapping without an object holds: null or a link to another mapping. -/
def Stale (m : Mapping) : Prop :=
  m.getPointer = 0 ∨
    handleTableLocation ≤ m.getPointer ∧ m.getPointer < 2 * handleTableLocation

/-- The lists of slab `idx` are well formed and none of its free mappings is `live`. -/
structure SlabHolds (slab : HandleSlab) (mappings : Mappings) (idx : Nat) (live : Nat → Prop)
    (locals remotes : List Nat) (bumped : Nat) : Prop where
  lists : slab.allocator.Holds mappings slabCapacity locals remotes bumped
  start : slab.allocator.objectsStart = getSlabStart idx
  size : slab.allocator.objectSize = 8
  free : ∀ index ∈ SizedAllocator.freeSlots locals remotes bumped slabCapacity,
    ¬ live (mappingAt idx index)

/-- The end of the addresses that `mmap` and `mremap` hand out. -/
def userSpace : Nat := 2 ^ 47

/-- The mappings in `live` are allocated, and no others are. -/
structure Slabs (t : HandleTable) (mappings : Mappings) (live : Nat → Prop) : Prop where
  fits : getSlabStart t.slabCount ≤ userSpace
  slabs : ∀ idx < t.slabCount, ∃ locals remotes bumped,
    SlabHolds (t.slabs idx) mappings idx live locals remotes bumped
  inSlabs : ∀ m, live m → t.InSlabs m

/-- Every mapping can be named by a handle, and the words of those not in `live` are stale. -/
structure Invariant (t : HandleTable) (mappings : Mappings) (live : Nat → Prop) : Prop
    extends Slabs t mappings live where
  count_le : t.slabCount ≤ 2 ^ 21
  stale : ∀ m, ¬ live m → Stale (mappings m)

variable {t : HandleTable} {mappings mappings' : Mappings} {live live' : Nat → Prop}
  {idx index m owner : Nat}

/-- Two slabs do not overlap. -/
theorem slabs_apart {other : Nat} (ne : idx ≠ other) :
    getSlabStart idx + slabSize ≤ getSlabStart other ∨
      getSlabStart other + slabSize ≤ getSlabStart idx := by
  simp only [getSlabStart, slabSize, pageSize]
  omega

theorem mappingAt_inside (idx : Nat) (lt : index < slabCapacity) :
    getSlabStart idx ≤ mappingAt idx index ∧
      mappingAt idx index + 8 ≤ getSlabStart idx + slabSize := by
  simp only [mappingAt, slabCapacity, slabSize, pageSize] at *
  omega

theorem mappingAt_injective {other otherIndex : Nat} (lt : index < slabCapacity)
    (other_lt : otherIndex < slabCapacity)
    (equal : mappingAt idx index = mappingAt other otherIndex) : idx = other ∧ index = otherIndex := by
  simp only [mappingAt, getSlabStart, slabCapacity, slabSize, pageSize] at *
  omega

/-- A mapping is no address inside another one. -/
theorem mappingAt_outside {other otherIndex : Nat}
    (ne : mappingAt idx index ≠ mappingAt other otherIndex) :
    mappingAt idx index < mappingAt other otherIndex ∨
      mappingAt other otherIndex + 8 ≤ mappingAt idx index := by
  simp only [mappingAt, getSlabStart, slabSize, pageSize] at *
  omega

theorem SlabHolds.slot_eq {slab : HandleSlab} {locals remotes : List Nat} {bumped : Nat}
    (holds : SlabHolds slab mappings idx live locals remotes bumped) (index : Nat) :
    slab.allocator.slot index = mappingAt idx index := by
  simp [SizedAllocator.slot, mappingAt, holds.start, holds.size]

/-- A slab does not depend on words outside its free mappings. -/
theorem SlabHolds.congr {slab : HandleSlab} {locals remotes : List Nat} {bumped : Nat}
    (holds : SlabHolds slab mappings idx live locals remotes bumped)
    (same : ∀ index ∈ locals ++ remotes, ∀ address, mappingAt idx index ≤ address →
      address < mappingAt idx index + 8 → mappings' address = mappings address)
    (shrinks : ∀ index ∈ SizedAllocator.freeSlots locals remotes bumped slabCapacity,
      live' (mappingAt idx index) → live (mappingAt idx index)) :
    SlabHolds slab mappings' idx live' locals remotes bumped where
  lists := by
    refine holds.lists.congr ?_
    intro index listed address lower upper
    rw [holds.slot_eq] at lower upper
    exact same index listed address lower upper
  start := holds.start
  size := holds.size
  free := fun index member isLive => holds.free index member (shrinks index member isLive)

theorem getSlabStart_lt (lt : idx < t.slabCount)
    (fits : getSlabStart t.slabCount ≤ userSpace) : getSlabStart idx + slabSize ≤ userSpace := by
  simp only [getSlabStart, slabSize, pageSize] at *
  omega

/-- The first 2^21 slabs are in the user's address space. -/
theorem fits_of_count_le (count_le : t.slabCount ≤ 2 ^ 21) :
    getSlabStart t.slabCount ≤ userSpace := by
  have location : handleTableLocation = 2 ^ 42 := rfl
  simp only [getSlabStart, slabSize, pageSize, userSpace, location]
  omega

@[simp]
theorem slabCount_setSlab (t : HandleTable) (idx : Nat) (slab : HandleSlab) :
    (t.setSlab idx slab).slabCount = t.slabCount :=
  rfl

theorem slabCount_le_newSlab (t : HandleTable) (owner : Nat) :
    t.slabCount ≤ (t.newSlab owner).2.slabCount := by
  unfold newSlab
  split
  · exact Nat.le_refl _
  · exact Nat.le_succ _

theorem mappingSlabIdx_mappingAt (fits : getSlabStart t.slabCount ≤ userSpace)
    (lt : idx < t.slabCount) (index_lt : index < slabCapacity) :
    mappingSlabIdx (mappingAt idx index) = idx := by
  have location : handleTableLocation = 2 ^ 42 := rfl
  have stop := getSlabStart_lt lt fits
  simp only [mappingSlabIdx, mappingAt, getSlabStart, slabCapacity, slabSize, pageSize,
    userSpace, location] at *
  omega

namespace Slabs

theorem create : HandleTable.create.Slabs (fun _ => Mapping.zero) fun _ => False where
  fits := by decide
  slabs := by simp [HandleTable.create]
  inSlabs := by simp

/-- Words of live mappings may change freely. -/
theorem congr (holds : t.Slabs mappings live)
    (same : ∀ m, ¬ live m → mappings' m = mappings m) : t.Slabs mappings' live where
  fits := holds.fits
  slabs := by
    intro idx lt
    rcases holds.slabs idx lt with ⟨locals, remotes, bumped, slab⟩
    refine ⟨locals, remotes, bumped, slab.congr ?_ fun _ _ isLive => isLive⟩
    intro index listed address lower upper
    have index_lt := slab.lists.mem_lt listed
    refine same address fun isLive => ?_
    rcases holds.inSlabs address isLive with ⟨other, _, otherIndex, other_lt, rfl⟩
    have equal : mappingAt other otherIndex = mappingAt idx index := by
      by_contra ne
      have outside := mappingAt_outside ne
      omega
    rw [equal] at isLive
    exact slab.free index (SizedAllocator.mem_freeSlots.mpr (Or.inl listed)) isLive
  inSlabs := holds.inSlabs

/-- A mapping may stop being live. -/
theorem shrink (holds : t.Slabs mappings live) (subset : ∀ m, live' m → live m) :
    t.Slabs mappings live' where
  fits := holds.fits
  slabs := by
    intro idx lt
    rcases holds.slabs idx lt with ⟨locals, remotes, bumped, slab⟩
    exact ⟨locals, remotes, bumped, slab.congr (fun _ _ _ _ _ => rfl)
      fun _ _ isLive => subset _ isLive⟩
  inSlabs := fun m isLive => holds.inSlabs m (subset m isLive)

theorem setOwner (holds : t.Slabs mappings live) (idx : Nat) (owner : Option Nat) :
    (t.setOwner idx owner).Slabs mappings live where
  fits := holds.fits
  slabs := by
    intro other lt
    rcases holds.slabs other lt with ⟨locals, remotes, bumped, slab⟩
    refine ⟨locals, remotes, bumped, ?_⟩
    by_cases equal : other = idx
    · subst equal
      simp only [HandleTable.setOwner, setSlab, Function.update_self]
      exact ⟨slab.lists, slab.start, slab.size, slab.free⟩
    · simpa only [HandleTable.setOwner, setSlab, Function.update_of_ne equal] using slab
  inSlabs := holds.inSlabs

theorem freshSlab (holds : t.Slabs mappings live)
    (room : getSlabStart (t.slabCount + 1) ≤ userSpace) :
    (t.freshSlab owner).2.Slabs mappings live where
  fits := room
  slabs := by
    intro other lt
    have lt : other < t.slabCount + 1 := lt
    by_cases equal : other = t.slabCount
    · subst equal
      refine ⟨[], [], 0, ?_⟩
      simp only [HandleTable.freshSlab, Function.update_self]
      refine ⟨SizedAllocator.Holds.configure _ (Nat.le_refl _) ?_ ?_, rfl, rfl, ?_⟩
      · simp only [getSlabStart, handleTableLocation, sizeBits, squeezeBits]
        omega
      · simp only [getSlabStart, handleTableLocation, sizeBits, squeezeBits, slabCapacity,
          slabSize, pageSize, userSpace] at *
        omega
      · -- the live mappings are in the older slabs
        intro index member isLive
        simp only [SizedAllocator.freeSlots, List.nil_append, List.mem_range'_1] at member
        rcases holds.inSlabs _ isLive with ⟨idx, idx_lt, other, other_lt, equal⟩
        have := (mappingAt_injective (by omega) other_lt equal).1
        omega
    · rcases holds.slabs other (by omega) with ⟨locals, remotes, bumped, slab⟩
      refine ⟨locals, remotes, bumped, ?_⟩
      simpa only [HandleTable.freshSlab, Function.update_of_ne equal] using slab
  inSlabs := by
    intro m isLive
    rcases holds.inSlabs m isLive with ⟨idx, lt, rest⟩
    exact ⟨idx, Nat.lt_succ_of_lt lt, rest⟩

/-- `new_slab` returns a slab of the table. -/
theorem newSlab (holds : t.Slabs mappings live)
    (room : getSlabStart (t.newSlab owner).2.slabCount ≤ userSpace) :
    (t.newSlab owner).2.Slabs mappings live ∧
      (t.newSlab owner).1 < (t.newSlab owner).2.slabCount := by
  unfold HandleTable.newSlab at room ⊢
  split
  · next idx search =>
      have member := List.mem_of_find?_eq_some search
      exact ⟨holds.setOwner idx _, List.mem_range.mp member⟩
  · next search =>
      rw [search] at room
      exact ⟨holds.freshSlab room, Nat.lt_succ_self _⟩

/-- The other slabs after a change of slab `idx` and of words inside it. -/
theorem setSlab (table : t.Slabs mappings live) {slab : HandleSlab}
    {locals remotes : List Nat} {bumped : Nat}
    (holds : SlabHolds slab mappings' idx live' locals remotes bumped)
    (same : ∀ address, address < getSlabStart idx ∨ getSlabStart idx + slabSize ≤ address →
      mappings' address = mappings address)
    (outside : ∀ m, (m < getSlabStart idx ∨ getSlabStart idx + slabSize ≤ m) → live' m → live m)
    (inSlabs : ∀ m, live' m → t.InSlabs m) : (t.setSlab idx slab).Slabs mappings' live' where
  fits := table.fits
  slabs := by
    intro other lt
    by_cases equal : other = idx
    · subst equal
      simp only [HandleTable.setSlab, Function.update_self]
      exact ⟨locals, remotes, bumped, holds⟩
    · rcases table.slabs other lt with ⟨locals, remotes, bumped, otherHolds⟩
      simp only [HandleTable.setSlab, Function.update_of_ne equal]
      have apart := slabs_apart equal
      refine ⟨locals, remotes, bumped, otherHolds.congr ?_ ?_⟩
      · intro index listed address lower upper
        have inside := mappingAt_inside other (otherHolds.lists.mem_lt listed)
        exact same address (by omega)
      · intro index member
        have inside := mappingAt_inside other (otherHolds.lists.freeSlots_lt member)
        exact outside _ (by omega)
  inSlabs := inSlabs

end Slabs

/-- Words change into what they are or into links between the mappings of slab `idx`. -/
def Relinks (idx : Nat) (mappings mappings' : Mappings) : Prop :=
  ∀ property : Mapping → Prop, property (Mapping.ofPtr 0) →
    (∀ index < slabCapacity, property (Mapping.ofPtr (mappingAt idx index))) →
    ∀ m, property (mappings m) → property (mappings' m)

theorem Relinks.of_relinked {a : SizedAllocator}
    (slots : ∀ index, a.slot index = mappingAt idx index)
    (relinked : a.Relinked slabCapacity mappings mappings') : Relinks idx mappings mappings' := by
  intro property null link m before
  induction relinked with
  | refl => exact before
  | @setNext mappings' word index earlier known ih =>
      by_cases equal : m = a.slot index
      · have stored : LinkCells.setNext mappings' (a.slot index) word m = Mapping.ofPtr word := by
          rw [equal]
          exact Function.update_self _ _ _
        rw [stored]
        rcases known with rfl | ⟨other, lt, rfl⟩
        · exact null
        · rw [slots]
          exact link other lt
      · have stored : LinkCells.setNext mappings' (a.slot index) word m = mappings' m :=
          Function.update_of_ne equal _ _
        rwa [stored]

namespace Slabs

/-- `HandleSlab::alloc` returns null, or a mapping of the slab that is not live. -/
theorem alloc (table : t.Slabs mappings live) (lt : idx < t.slabCount) :
    ((t.alloc mappings idx).1 = 0 ∧
      (t.alloc mappings idx).2.1.Slabs (t.alloc mappings idx).2.2 live ∧
      (t.alloc mappings idx).2.2 = mappings) ∨
    (¬ live (t.alloc mappings idx).1 ∧
      (t.alloc mappings idx).2.1.Slabs (t.alloc mappings idx).2.2
        (fun m => live m ∨ m = (t.alloc mappings idx).1) ∧
      (∃ index < slabCapacity, (t.alloc mappings idx).1 = mappingAt idx index) ∧
      Relinks idx mappings (t.alloc mappings idx).2.2 ∧
      ∀ m, live m → (t.alloc mappings idx).2.2 m = mappings m) := by
  rcases table.slabs idx lt with ⟨locals, remotes, bumped, holds⟩
  simp only [HandleTable.alloc]
  cases holds.lists.alloc with
  | full object exhausted lists same memSame =>
      left
      refine ⟨object, ?_, memSame⟩
      rw [memSame] at lists ⊢
      have free : ∀ index ∈ SizedAllocator.freeSlots [] [] slabCapacity slabCapacity,
          ¬ live (mappingAt idx index) := by
        rw [SizedAllocator.freeSlots_exhausted]
        simp
      exact table.setSlab ⟨lists, same.start.trans holds.start, same.size.trans holds.size,
        free⟩ (fun _ _ => rfl) (fun _ _ isLive => isLive) table.inSlabs
  | taken index locals' remotes' bumped' object lists perm same only relinked =>
      right
      have member : index ∈ SizedAllocator.freeSlots locals remotes bumped slabCapacity :=
        perm.mem_iff.mpr List.mem_cons_self
      have index_lt := holds.lists.freeSlots_lt member
      have taken := (List.nodup_cons.mp (perm.nodup_iff.mp holds.lists.freeSlots_nodup)).1
      rw [holds.slot_eq] at object
      rw [object]
      -- only words of free mappings of this slab change
      have unchanged : ∀ address, (∀ other ∈ SizedAllocator.freeSlots locals remotes bumped
          slabCapacity, address < mappingAt idx other ∨ mappingAt idx other + 8 ≤ address) →
          ((t.slabs idx).allocator.alloc mappings).mem address = mappings address := by
        intro address outside
        refine only address fun other listed => ?_
        rw [holds.slot_eq]
        exact outside other listed
      refine ⟨holds.free index member, ?_, ⟨index, index_lt, rfl⟩,
        Relinks.of_relinked holds.slot_eq relinked, ?_⟩
      · refine table.setSlab ⟨lists, same.start.trans holds.start,
          same.size.trans holds.size, ?_⟩ ?_ ?_ ?_
        · rintro other stillFree (isLive | equal)
          · exact holds.free other (perm.mem_iff.mpr (List.mem_cons_of_mem _ stillFree)) isLive
          · have := (mappingAt_injective (lists.freeSlots_lt stillFree) index_lt equal).2
            exact taken (this ▸ stillFree)
        · intro address outside
          refine unchanged address fun other listed => ?_
          have inside := mappingAt_inside idx (holds.lists.freeSlots_lt listed)
          omega
        · rintro m outside (isLive | rfl)
          · exact isLive
          · have inside := mappingAt_inside idx index_lt
            omega
        · rintro m (isLive | rfl)
          · exact table.inSlabs m isLive
          · exact ⟨idx, lt, index, index_lt, rfl⟩
      · intro m isLive
        refine unchanged m fun other listed => ?_
        rcases table.inSlabs m isLive with ⟨idx', _, index', _, rfl⟩
        refine mappingAt_outside fun equal => ?_
        rw [equal] at isLive
        exact holds.free other listed isLive

/-- `put` returns a live mapping to its slab. -/
theorem put (table : t.Slabs mappings live) (isLive : live m) (owner : Nat) :
    ∃ t' mappings', t.put mappings m owner = some (t', mappings') ∧
      t'.Slabs mappings' (fun m' => live m' ∧ m' ≠ m) ∧ t'.slabCount = t.slabCount ∧
      t'.capacity = t.capacity ∧ (∀ m', m' ≠ m → mappings' m' = mappings m') ∧
      ∃ idx < t.slabCount, ∃ link, (link = 0 ∨ ∃ other < slabCapacity, link = mappingAt idx other) ∧
        mappings' m = Mapping.ofPtr link ∧
        ∃ a, t' = t.setSlab idx { t.slabs idx with allocator := a } := by
  rcases table.inSlabs m isLive with ⟨idx, lt, index, index_lt, rfl⟩
  rcases table.slabs idx lt with ⟨locals, remotes, bumped, holds⟩
  have slab := mappingSlabIdx_mappingAt table.fits lt index_lt
  have notFree : index ∉ SizedAllocator.freeSlots locals remotes bumped slabCapacity :=
    fun member => holds.free index member isLive
  have below : index < bumped := by
    rw [SizedAllocator.mem_freeSlots] at notFree
    omega
  have fresh : index ∉ locals ++ remotes := fun listed =>
    notFree (SizedAllocator.mem_freeSlots.mpr (Or.inl listed))
  simp only [HandleTable.put, slab, if_pos lt]
  -- both releases push the mapping on a list and write a link into its word
  obtain ⟨a, mappings₁, locals', remotes', result, lists, same, link, known, word, pushed⟩ :
      ∃ a mappings₁ locals' remotes',
        (if (t.slabs idx).owner = some owner then
          (t.slabs idx).allocator.releaseLocal mappings (mappingAt idx index)
        else
          (t.slabs idx).allocator.releaseRemote mappings (mappingAt idx index)) = (a, mappings₁) ∧
        a.Holds mappings₁ slabCapacity locals' remotes' bumped ∧
        (t.slabs idx).allocator.SameSlots a ∧
        ∃ link, (link = 0 ∨ ∃ other < slabCapacity, link = mappingAt idx other) ∧
          mappings₁ = Function.update mappings (mappingAt idx index) (Mapping.ofPtr link) ∧
          ∀ other, other ∈ locals' ++ remotes' → other = index ∨ other ∈ locals ++ remotes := by
    have known : ∀ {head : Nat} {blocks : List Nat}, (∀ other ∈ blocks, other ∈ locals ++ remotes) →
        IsList mappings head (blocks.map (t.slabs idx).allocator.slot) →
        head = 0 ∨ ∃ other < slabCapacity, head = mappingAt idx other := by
      intro head blocks subset list
      rcases list.head_eq_zero_or_mem with null | listed
      · exact Or.inl null
      · rcases List.mem_map.mp listed with ⟨other, member, rfl⟩
        exact Or.inr ⟨other, holds.lists.mem_lt (subset other member), holds.slot_eq other⟩
    rw [← holds.slot_eq]
    split
    · refine ⟨_, _, index :: locals, remotes, rfl, holds.lists.freeLocal below fresh,
        ⟨rfl, rfl, rfl⟩, (t.slabs idx).allocator.freeList.localFree, ?_, rfl, ?_⟩
      · exact known (fun _ => List.mem_append_left _) holds.lists.lists.localList
      · simp
    · refine ⟨_, _, locals, index :: remotes, rfl, holds.lists.freeRemote below fresh,
        ⟨rfl, rfl, rfl⟩, (t.slabs idx).allocator.freeList.remoteFree, ?_, rfl, ?_⟩
      · exact known (fun _ => List.mem_append_right _) holds.lists.lists.remoteList
      · intro other
        simp only [List.mem_append, List.mem_cons]
        tauto
  rw [result]
  refine ⟨_, _, rfl, ?_, rfl, rfl, ?_, idx, lt, link, known, ?_, a, rfl⟩
  · refine table.setSlab ⟨lists, same.start.trans holds.start, same.size.trans holds.size,
      ?_⟩ ?_ (fun _ _ isLive => isLive.1) (fun m isLive => table.inSlabs m isLive.1)
    · rintro other member ⟨otherLive, ne⟩
      rw [SizedAllocator.mem_freeSlots] at member
      have listed : other ∈ SizedAllocator.freeSlots locals remotes bumped slabCapacity := by
        rw [SizedAllocator.mem_freeSlots]
        rcases member with listed | untouched
        · rcases pushed other listed with rfl | listed
          · exact absurd rfl ne
          · exact Or.inl listed
        · exact Or.inr untouched
      exact holds.free other listed otherLive
    · intro address outside
      have inside := mappingAt_inside idx index_lt
      rw [word]
      exact Function.update_of_ne (by omega) _ _
  · intro m' ne
    show mappings₁ m' = mappings m'
    rw [word, Function.update_of_ne ne]
  · show mappings₁ (mappingAt idx index) = _
    rw [word, Function.update_self]

end Slabs

/-! ## Handles that can be named -/

/-- The first 2^21 slabs fill the part of the address space that handles can name. -/
theorem mappingAt_bounds (count_le : t.slabCount ≤ 2 ^ 21) (lt : idx < t.slabCount)
    (index_lt : index < slabCapacity) : handleTableLocation ≤ mappingAt idx index ∧
      mappingAt idx index < 2 * handleTableLocation := by
  have capacity : slabCapacity = 2 ^ 18 := rfl
  have location : handleTableLocation = 2 ^ 42 := rfl
  simp only [mappingAt, getSlabStart, slabSize, pageSize]
  omega

/-- A link to a mapping of a slab is stale. -/
theorem stale_ofPtr_mappingAt (count_le : t.slabCount ≤ 2 ^ 21) (lt : idx < t.slabCount)
    (index_lt : index < slabCapacity) : Stale (Mapping.ofPtr (mappingAt idx index)) := by
  have bounds := mappingAt_bounds count_le lt index_lt
  have location : handleTableLocation = 2 ^ 42 := rfl
  right
  rw [Mapping.getPointer_ofPtr (by omega)]
  exact bounds

namespace Invariant

theorem create : HandleTable.create.Invariant (fun _ => Mapping.zero) fun _ => False where
  toSlabs := Slabs.create
  count_le := by decide
  stale := fun _ _ => Or.inl rfl

/-- Words of live mappings may change freely. -/
theorem congr (invariant : t.Invariant mappings live)
    (same : ∀ m, ¬ live m → mappings' m = mappings m) : t.Invariant mappings' live where
  toSlabs := invariant.toSlabs.congr same
  count_le := invariant.count_le
  stale := by
    intro m notLive
    rw [same m notLive]
    exact invariant.stale m notLive

/-- A mapping stops being live once its word is stale. -/
theorem shrink (invariant : t.Invariant mappings live) (subset : ∀ m, live' m → live m)
    (stale : ∀ m, live m → ¬ live' m → Stale (mappings m)) : t.Invariant mappings live' where
  toSlabs := invariant.toSlabs.shrink subset
  count_le := invariant.count_le
  stale := by
    intro m notLive
    by_cases before : live m
    · exact stale m before notLive
    · exact invariant.stale m before

theorem setOwner (invariant : t.Invariant mappings live) (idx : Nat) (owner : Option Nat) :
    (t.setOwner idx owner).Invariant mappings live :=
  ⟨invariant.toSlabs.setOwner idx owner, invariant.count_le, invariant.stale⟩

/-- `new_slab` returns a slab of the table. -/
theorem newSlab (invariant : t.Invariant mappings live)
    (room : (t.newSlab owner).2.slabCount ≤ 2 ^ 21) :
    (t.newSlab owner).2.Invariant mappings live ∧
      (t.newSlab owner).1 < (t.newSlab owner).2.slabCount := by
  rcases invariant.toSlabs.newSlab (fits_of_count_le room) with ⟨slabs, lt⟩
  exact ⟨⟨slabs, room, invariant.stale⟩, lt⟩

theorem inTable (invariant : t.Invariant mappings live) (isLive : live m) : Mapping.InTable m := by
  rcases invariant.inSlabs m isLive with ⟨idx, idx_lt, index, index_lt, rfl⟩
  have bounds := mappingAt_bounds invariant.count_le idx_lt index_lt
  have location : handleTableLocation = 2 ^ 42 := rfl
  refine ⟨by omega, by omega, ?_⟩
  simp only [mappingAt, getSlabStart, slabSize, pageSize]
  omega

/-- `HandleSlab::alloc` takes a mapping that is not live. -/
theorem alloc (invariant : t.Invariant mappings live) (lt : idx < t.slabCount) :
    ((t.alloc mappings idx).1 = 0 ∧
      (t.alloc mappings idx).2.1.Invariant (t.alloc mappings idx).2.2 live ∧
      (t.alloc mappings idx).2.2 = mappings) ∨
    (¬ live (t.alloc mappings idx).1 ∧
      (t.alloc mappings idx).2.1.Invariant (t.alloc mappings idx).2.2
        (fun m => live m ∨ m = (t.alloc mappings idx).1) ∧
      Stale ((t.alloc mappings idx).2.2 (t.alloc mappings idx).1) ∧
      ∀ m, live m → (t.alloc mappings idx).2.2 m = mappings m) := by
  rcases invariant.toSlabs.alloc lt with ⟨null, slabs, same⟩ | ⟨dead, slabs, _, relinks, same⟩
  · refine Or.inl ⟨null, ⟨slabs, invariant.count_le, ?_⟩, same⟩
    rw [same]
    exact invariant.stale
  · have stale : ∀ m, ¬ live m → Stale ((t.alloc mappings idx).2.2 m) := fun m notLive =>
      relinks Stale (Or.inl rfl)
        (fun _ index_lt => stale_ofPtr_mappingAt invariant.count_le lt index_lt) m
        (invariant.stale m notLive)
    exact Or.inr ⟨dead, ⟨slabs, invariant.count_le, fun m notLive =>
      stale m fun isLive => notLive (Or.inl isLive)⟩, stale _ dead, same⟩

/-- `put` returns a live mapping to its slab. -/
theorem put (invariant : t.Invariant mappings live) (isLive : live m) (owner : Nat) :
    ∃ t' mappings', t.put mappings m owner = some (t', mappings') ∧
      t'.Invariant mappings' (fun m' => live m' ∧ m' ≠ m) ∧ t'.slabCount = t.slabCount ∧
      t'.capacity = t.capacity ∧ ∀ m', m' ≠ m → live m' → mappings' m' = mappings m' := by
  rcases invariant.toSlabs.put isLive owner with
    ⟨t', mappings', result, slabs, count, capacity, same, idx, lt, link, known, word, _⟩
  refine ⟨t', mappings', result, ⟨slabs, count ▸ invariant.count_le, ?_⟩, count, capacity,
    fun m' ne _ => same m' ne⟩
  intro m' notLive
  by_cases equal : m' = m
  · rw [equal, word]
    rcases known with rfl | ⟨other, other_lt, rfl⟩
    · exact Or.inl rfl
    · exact stale_ofPtr_mappingAt invariant.count_le lt other_lt
  · rw [same m' equal]
    exact invariant.stale m' fun isLive => notLive ⟨isLive, equal⟩

end Invariant

end HandleTable

end Alaska
