import Alaska.Runtime.ShardedFreeList
import Mathlib.Data.List.Perm.Basic
import Mathlib.Data.List.Range
import Mathlib.Data.List.Nodup

/-!
# Sized allocators

`SizedAllocator.hpp` hands out equally sized slots of one block of memory. Slots that
were released are on a sharded free list, slots that were never handed out are behind
the bump pointer, and `extend` threads the next 128 of them onto the local list.
Sized pages and handle slabs both allocate through it, so it is generic in the memory.

`Holds` is its representation invariant, in terms of slot numbers. The specification
lemmas describe each operation by what it does to `freeSlots`, the slots that can
still be handed out.
-/

namespace Alaska

open Memory LinkCells

universe u

structure SizedAllocator where
  objectsStart : Nat
  objectsEnd : Nat
  bumpNext : Nat
  objectSize : Nat
  freeList : ShardedFreeList

namespace SizedAllocator

variable {Cell : Type u} [LinkCells Cell]

/-- What a call leaves behind: the returned object and the updated state. -/
structure Allocated (Cell : Type u) where
  object : Nat
  allocator : SizedAllocator
  mem : Nat → Cell

def configure (objects objectSize objectCount : Nat) : SizedAllocator where
  objectsStart := objects
  bumpNext := objects
  objectsEnd := objects + objectCount * objectSize
  objectSize := objectSize
  freeList := {}

def releaseLocal (a : SizedAllocator) (mem : Nat → Cell) (object : Nat) :
    SizedAllocator × (Nat → Cell) :=
  ({ a with freeList := (a.freeList.freeLocal mem object).1 },
    (a.freeList.freeLocal mem object).2)

def releaseRemote (a : SizedAllocator) (mem : Nat → Cell) (object : Nat) :
    SizedAllocator × (Nat → Cell) :=
  ({ a with freeList := (a.freeList.freeRemote mem object).1 },
    (a.freeList.freeRemote mem object).2)

def numFreeInFreeList (a : SizedAllocator) : Int := a.freeList.numFree

def numFreeInBumpAllocator (a : SizedAllocator) : Int :=
  ((a.objectsEnd - a.bumpNext) / a.objectSize : Nat)

def numFree (a : SizedAllocator) : Int := a.numFreeInFreeList + a.numFreeInBumpAllocator

def resetFreeList (a : SizedAllocator) : SizedAllocator := { a with freeList := {} }

def resetBumpAllocator (a : SizedAllocator) (next : Nat) : SizedAllocator :=
  { a with bumpNext := next }

/-- Where `extend(count)` moves the bump pointer. -/
def extendEnd (a : SizedAllocator) (count : Nat) : Nat :=
  if a.bumpNext + a.objectSize * count > a.objectsEnd then
    a.objectsEnd
  else
    a.bumpNext + a.objectSize * count

/-- The blocks the loop of `extend` visits, from the last one down to the bump pointer. -/
def extendBlocks (a : SizedAllocator) (count : Nat) : List Nat :=
  (List.range ((a.extendEnd count - a.bumpNext) / a.objectSize)).map fun visited =>
    a.extendEnd count - (visited + 1) * a.objectSize

/-- `extend`; the `object` of the result is the extended count. -/
def extend (a : SizedAllocator) (mem : Nat → Cell) (count : Nat) : Allocated Cell :=
  let threaded := (a.extendBlocks count).foldl
    (fun state block => state.1.freeLocal state.2 block) (a.freeList, mem)
  { object := (a.extendBlocks count).length
    allocator := { a with bumpNext := a.extendEnd count, freeList := threaded.1 }
    mem := threaded.2 }

/-- Pops the local list; this is `alloc` where the list is known not to be empty. -/
def popFree (a : SizedAllocator) (mem : Nat → Cell) : Allocated Cell where
  object := (a.freeList.pop mem).1
  allocator := { a with freeList := (a.freeList.pop mem).2 }
  mem := mem

/--
`alloc_slow`. Its two nested calls of `alloc` find a non-empty local list (a block was
just threaded, or `has_local_free` was checked), so they are plain pops.
-/
def allocSlow (a : SizedAllocator) (mem : Nat → Cell) : Allocated Cell :=
  let extended := a.extend mem 128
  if extended.object > 0 then
    extended.allocator.popFree extended.mem
  else
    let swapped := { extended.allocator with freeList := extended.allocator.freeList.swap }
    if swapped.freeList.hasLocalFree then
      swapped.popFree extended.mem
    else
      { object := 0, allocator := swapped, mem := extended.mem }

def alloc (a : SizedAllocator) (mem : Nat → Cell) : Allocated Cell :=
  if (a.freeList.pop mem).1 = 0 then a.allocSlow mem else a.popFree mem

/-- The address of a slot. -/
def slot (a : SizedAllocator) (index : Nat) : Nat := a.objectsStart + index * a.objectSize

/-- The slots that can still be handed out. -/
def freeSlots (locals remotes : List Nat) (bumped count : Nat) : List Nat :=
  locals ++ remotes ++ List.range' bumped (count - bumped)

/-- Slots `locals` and `remotes` are on the lists and slots from `bumped` on are untouched. -/
structure Holds (a : SizedAllocator) (mem : Nat → Cell) (count : Nat)
    (locals remotes : List Nat) (bumped : Nat) : Prop where
  size_ge : 8 ≤ a.objectSize
  start_pos : 0 < a.objectsStart
  end_eq : a.objectsEnd = a.slot count
  end_lt : a.objectsEnd < 2 ^ 63
  bump_eq : a.bumpNext = a.slot bumped
  bumped_le : bumped ≤ count
  lists : a.freeList.Holds mem (locals.map a.slot) (remotes.map a.slot)
  below : ∀ index ∈ locals ++ remotes, index < bumped
  nodup : (locals ++ remotes).Nodup

/-- The fields that say where the slots are. -/
structure SameSlots (a a' : SizedAllocator) : Prop where
  start : a'.objectsStart = a.objectsStart
  stop : a'.objectsEnd = a.objectsEnd
  size : a'.objectSize = a.objectSize

theorem SameSlots.trans {a b c : SizedAllocator} (first : SameSlots a b) (second : SameSlots b c) :
    SameSlots a c :=
  ⟨second.start.trans first.start, second.stop.trans first.stop, second.size.trans first.size⟩

theorem SameSlots.slot_eq {a a' : SizedAllocator} (same : SameSlots a a') : a'.slot = a.slot := by
  funext index
  simp [slot, same.start, same.size]

/-- Memory outside the first eight bytes of the given slots is unchanged. -/
def OnlyLinks (a : SizedAllocator) (slots : List Nat) (mem mem' : Nat → Cell) : Prop :=
  ∀ address, (∀ index ∈ slots, address < a.slot index ∨ a.slot index + 8 ≤ address) →
    mem' address = mem address

omit [LinkCells Cell] in
theorem OnlyLinks.refl {a : SizedAllocator} {slots : List Nat} (mem : Nat → Cell) :
    a.OnlyLinks slots mem mem :=
  fun _ _ => rfl

omit [LinkCells Cell] in
theorem OnlyLinks.trans {a : SizedAllocator} {slots : List Nat} {mem mem' mem'' : Nat → Cell}
    (first : a.OnlyLinks slots mem mem') (second : a.OnlyLinks slots mem' mem'') :
    a.OnlyLinks slots mem mem'' :=
  fun address outside => (second address outside).trans (first address outside)

omit [LinkCells Cell] in
theorem OnlyLinks.mono {a : SizedAllocator} {slots slots' : List Nat} {mem mem' : Nat → Cell}
    (only : a.OnlyLinks slots mem mem') (subset : ∀ index ∈ slots, index ∈ slots') :
    a.OnlyLinks slots' mem mem' :=
  fun address outside => only address fun index member => outside index (subset index member)

theorem onlyLinks_setNext {a : SizedAllocator} {index link : Nat} {slots : List Nat}
    (mem : Nat → Cell) (member : index ∈ slots) :
    a.OnlyLinks slots mem (setNext mem (a.slot index) link) :=
  fun _ outside => setNext_apply _ _ _ _ (outside index member)

/-- `mem'` is `mem` after some links between slots were stored in slots. -/
inductive Relinked (a : SizedAllocator) (count : Nat) (mem : Nat → Cell) : (Nat → Cell) → Prop where
  | refl : Relinked a count mem mem
  | setNext {mem' : Nat → Cell} {link : Nat} (index : Nat) (earlier : Relinked a count mem mem')
      (known : link = 0 ∨ ∃ other < count, link = a.slot other) :
      Relinked a count mem (setNext mem' (a.slot index) link)

theorem slot_le_slot {a : SizedAllocator} {index other : Nat} (le : index ≤ other) :
    a.slot index ≤ a.slot other :=
  Nat.add_le_add_left (Nat.mul_le_mul_right _ le) _

theorem slot_succ (a : SizedAllocator) (index : Nat) :
    a.slot (index + 1) = a.slot index + a.objectSize := by
  simp only [slot, Nat.succ_mul]
  omega

theorem slot_add_le_slot {a : SizedAllocator} {index other : Nat} (lt : index < other) :
    a.slot index + a.objectSize ≤ a.slot other := by
  rw [← slot_succ]
  exact slot_le_slot lt

theorem mem_freeSlots {locals remotes : List Nat} {bumped count index : Nat} :
    index ∈ freeSlots locals remotes bumped count ↔
      index ∈ locals ++ remotes ∨ bumped ≤ index ∧ index < count := by
  simp only [freeSlots, List.mem_append, List.mem_range'_1]
  constructor
  · rintro (h | h)
    · exact Or.inl h
    · exact Or.inr (by omega)
  · rintro (h | h)
    · exact Or.inl h
    · exact Or.inr (by omega)

@[simp]
theorem freeSlots_exhausted (count : Nat) : freeSlots [] [] count count = [] := by
  simp [freeSlots]

namespace Holds

variable {a : SizedAllocator} {mem mem' : Nat → Cell} {count bumped index : Nat}
  {locals remotes : List Nat}

theorem slot_apart (holds : a.Holds mem count locals remotes bumped) {other : Nat}
    (ne : index ≠ other) : Apart (a.slot index) (a.slot other) := by
  have size := holds.size_ge
  rcases Nat.lt_or_gt_of_ne ne with lt | gt
  · have := slot_add_le_slot (a := a) lt
    exact Or.inl (by omega)
  · have := slot_add_le_slot (a := a) gt
    exact Or.inr (by omega)

theorem slot_pos (holds : a.Holds mem count locals remotes bumped) (index : Nat) :
    0 < a.slot index :=
  Nat.lt_of_lt_of_le holds.start_pos (Nat.le_add_right _ _)

theorem slot_lt (holds : a.Holds mem count locals remotes bumped) (lt : index < count) :
    a.slot index + a.objectSize < 2 ^ 63 := by
  have := slot_add_le_slot (a := a) lt
  have := holds.end_lt
  rw [holds.end_eq] at this
  omega

theorem mem_lt (holds : a.Holds mem count locals remotes bumped)
    (member : index ∈ locals ++ remotes) : index < count :=
  Nat.lt_of_lt_of_le (holds.below index member) holds.bumped_le

theorem freeSlots_lt (holds : a.Holds mem count locals remotes bumped)
    (member : index ∈ freeSlots locals remotes bumped count) : index < count := by
  rcases mem_freeSlots.mp member with listed | ⟨_, lt⟩
  · exact holds.mem_lt listed
  · exact lt

theorem freeSlots_nodup (holds : a.Holds mem count locals remotes bumped) :
    (freeSlots locals remotes bumped count).Nodup := by
  refine holds.nodup.append List.nodup_range' ?_
  intro index listed untouched
  have := holds.below index listed
  simp only [List.mem_range'_1] at untouched
  omega

/-- `num_free()` counts the slots that can still be handed out. -/
theorem numFree_eq (holds : a.Holds mem count locals remotes bumped) :
    a.numFree = (freeSlots locals remotes bumped count).length := by
  have size := holds.size_ge
  have room : (a.objectsEnd - a.bumpNext) / a.objectSize = count - bumped := by
    rw [holds.end_eq, holds.bump_eq]
    simp only [slot]
    rw [Nat.add_sub_add_left, ← Nat.sub_mul]
    exact Nat.mul_div_cancel _ (by omega)
  simp only [numFree, numFreeInFreeList, numFreeInBumpAllocator, room, holds.lists.numFree_eq,
    freeSlots, List.length_append, List.length_map, List.length_range']
  omega

/-- The lists survive every write that keeps the links of the listed slots. -/
theorem congr (holds : a.Holds mem count locals remotes bumped)
    (same : ∀ index ∈ locals ++ remotes, ∀ address, a.slot index ≤ address →
      address < a.slot index + 8 → mem' address = mem address) :
    a.Holds mem' count locals remotes bumped where
  size_ge := holds.size_ge
  start_pos := holds.start_pos
  end_eq := holds.end_eq
  end_lt := holds.end_lt
  bump_eq := holds.bump_eq
  bumped_le := holds.bumped_le
  below := holds.below
  nodup := holds.nodup
  lists := by
    refine holds.lists.congr ?_
    intro block member
    rw [← List.map_append] at member
    rcases List.mem_map.mp member with ⟨index, listed, rfl⟩
    exact next_congr _ _ _ (same index listed)

theorem configure {objects objectSize objectCount : Nat} (mem : Nat → Cell)
    (size_ge : 8 ≤ objectSize) (start_pos : 0 < objects)
    (end_lt : objects + objectCount * objectSize < 2 ^ 63) :
    (configure objects objectSize objectCount).Holds mem objectCount [] [] 0 where
  size_ge := size_ge
  start_pos := start_pos
  end_eq := rfl
  end_lt := end_lt
  bump_eq := by simp [SizedAllocator.configure, slot]
  bumped_le := Nat.zero_le _
  below := by simp
  nodup := List.nodup_nil
  lists := ShardedFreeList.Holds.empty mem

/-- Pushing a slot that is nowhere on the lists. -/
theorem freeLocal (holds : a.Holds mem count locals remotes bumped) (lt : index < bumped)
    (fresh : index ∉ locals ++ remotes) :
    (a.releaseLocal mem (a.slot index)).1.Holds (a.releaseLocal mem (a.slot index)).2
      count (index :: locals) remotes bumped where
  size_ge := holds.size_ge
  start_pos := holds.start_pos
  end_eq := holds.end_eq
  end_lt := holds.end_lt
  bump_eq := holds.bump_eq
  bumped_le := holds.bumped_le
  below := by
    intro other member
    rcases List.mem_cons.mp member with rfl | member
    · exact lt
    · exact holds.below other member
  nodup := List.nodup_cons.mpr ⟨fresh, holds.nodup⟩
  lists := by
    refine holds.lists.freeLocal (holds.slot_pos index).ne' ?_ ?_
    · intro block member
      rw [← List.map_append] at member
      rcases List.mem_map.mp member with ⟨other, listed, rfl⟩
      have := holds.slot_lt (holds.mem_lt listed)
      omega
    · intro block member
      rw [← List.map_append] at member
      rcases List.mem_map.mp member with ⟨other, listed, rfl⟩
      exact holds.slot_apart fun equal => fresh (equal ▸ listed)

theorem freeRemote (holds : a.Holds mem count locals remotes bumped) (lt : index < bumped)
    (fresh : index ∉ locals ++ remotes) :
    (a.releaseRemote mem (a.slot index)).1.Holds (a.releaseRemote mem (a.slot index)).2
      count locals (index :: remotes) bumped where
  size_ge := holds.size_ge
  start_pos := holds.start_pos
  end_eq := holds.end_eq
  end_lt := holds.end_lt
  bump_eq := holds.bump_eq
  bumped_le := holds.bumped_le
  below := by
    intro other member
    rcases List.mem_append.mp member with member | member
    · exact holds.below other (List.mem_append_left _ member)
    · rcases List.mem_cons.mp member with rfl | member
      · exact lt
      · exact holds.below other (List.mem_append_right _ member)
  nodup := List.nodup_middle.mpr (List.nodup_cons.mpr ⟨fresh, holds.nodup⟩)
  lists := by
    refine holds.lists.freeRemote (holds.slot_pos index).ne' ?_ ?_
    · intro block member
      rw [← List.map_append] at member
      rcases List.mem_map.mp member with ⟨other, listed, rfl⟩
      have := holds.slot_lt (holds.mem_lt listed)
      omega
    · intro block member
      rw [← List.map_append] at member
      rcases List.mem_map.mp member with ⟨other, listed, rfl⟩
      exact holds.slot_apart fun equal => fresh (equal ▸ listed)

/-- Threading the next `visited` slots below `stop` onto the local list, highest first. -/
theorem thread (holds : a.Holds mem count locals remotes bumped) (stop visited : Nat)
    (le : bumped + visited ≤ stop) (stop_le : stop ≤ count) :
    let threaded := (((List.range visited).map fun k => a.slot stop - (k + 1) * a.objectSize).foldl
      (fun state block => ShardedFreeList.freeLocal state.1 state.2 block) (a.freeList, mem))
    threaded.1.Holds threaded.2
        ((List.range' (stop - visited) visited ++ locals).map a.slot) (remotes.map a.slot) ∧
      a.OnlyLinks (List.range' (stop - visited) visited) mem threaded.2 ∧
      a.Relinked count mem threaded.2 := by
  induction visited with
  | zero => exact ⟨holds.lists, OnlyLinks.refl mem, .refl⟩
  | succ visited ih =>
      rcases ih (by omega) with ⟨threadedHolds, only, relinked⟩
      have address : a.slot stop - (visited + 1) * a.objectSize = a.slot (stop - (visited + 1)) := by
        have split : stop = stop - (visited + 1) + (visited + 1) := by omega
        rw [split, slot, slot, Nat.add_mul]
        simp only [Nat.add_sub_cancel]
        omega
      have range : List.range' (stop - (visited + 1)) (visited + 1) =
          (stop - (visited + 1)) :: List.range' (stop - visited) visited := by
        rw [List.range'_succ, show stop - (visited + 1) + 1 = stop - visited by omega]
      -- every block already listed is another slot than the one pushed now
      have others : ∀ block ∈ (List.range' (stop - visited) visited ++ locals).map a.slot ++
          remotes.map a.slot,
          ∃ other < count, other ≠ stop - (visited + 1) ∧ block = a.slot other := by
        intro block member
        rw [← List.map_append] at member
        rcases List.mem_map.mp member with ⟨other, listed, rfl⟩
        simp only [List.append_assoc] at listed
        rcases List.mem_append.mp listed with untouched | listed
        · simp only [List.mem_range'_1] at untouched
          exact ⟨other, by omega, by omega, rfl⟩
        · have := holds.below other listed
          exact ⟨other, by omega, by omega, rfl⟩
      simp only [List.range_succ, List.map_append, List.map_cons, List.map_nil, List.foldl_append,
        List.foldl_cons, List.foldl_nil, address, range, List.cons_append]
      simp only [List.map_append] at threadedHolds others
      refine ⟨?_, ?_, ?_⟩
      · refine threadedHolds.freeLocal (holds.slot_pos _).ne' ?_ ?_
        · intro block member
          rcases others block member with ⟨other, lt, _, rfl⟩
          have := holds.slot_lt lt
          omega
        · intro block member
          rcases others block member with ⟨other, _, ne, rfl⟩
          exact holds.slot_apart ne.symm
      · refine (only.mono fun index member => List.mem_cons_of_mem _ member).trans ?_
        exact onlyLinks_setNext _ List.mem_cons_self
      · refine relinked.setNext _ ?_
        rcases threadedHolds.localList.head_eq_zero_or_mem with null | member
        · exact Or.inl null
        · rcases others _ (List.mem_append_left _ member) with ⟨other, lt, _, equal⟩
          exact Or.inr ⟨other, lt, equal⟩

/-- `extend` moves the next `count` untouched slots, or all that are left, to the local list. -/
theorem extend (holds : a.Holds mem count locals remotes bumped) (wanted : Nat) :
    let bumped' := min (bumped + wanted) count
    (a.extend mem wanted).object = bumped' - bumped ∧
      (a.extend mem wanted).allocator.Holds (a.extend mem wanted).mem count
        (List.range' bumped (bumped' - bumped) ++ locals) remotes bumped' ∧
      SameSlots a (a.extend mem wanted).allocator ∧
      a.OnlyLinks (freeSlots locals remotes bumped count) mem (a.extend mem wanted).mem ∧
      a.Relinked count mem (a.extend mem wanted).mem := by
  intro bumped'
  have size := holds.size_ge
  have bumped_le := holds.bumped_le
  have stop : a.extendEnd wanted = a.slot bumped' := by
    simp only [extendEnd, holds.end_eq, holds.bump_eq]
    have next : a.slot bumped + a.objectSize * wanted = a.slot (bumped + wanted) := by
      rw [slot, slot, Nat.add_mul, Nat.mul_comm wanted]
      omega
    rw [next]
    by_cases beyond : count < bumped + wanted
    · have := slot_add_le_slot (a := a) beyond
      rw [if_pos (by omega), show bumped' = count by omega]
    · have := slot_le_slot (a := a) (show bumped + wanted ≤ count by omega)
      rw [if_neg (by omega), show bumped' = bumped + wanted by omega]
  have visited : (a.extendEnd wanted - a.bumpNext) / a.objectSize = bumped' - bumped := by
    rw [stop, holds.bump_eq]
    simp only [slot]
    rw [Nat.add_sub_add_left, ← Nat.sub_mul]
    exact Nat.mul_div_cancel _ (by omega)
  have threaded := holds.thread bumped' (bumped' - bumped) (by omega) (by omega)
  rw [show bumped' - (bumped' - bumped) = bumped by omega, ← stop] at threaded
  have object : (a.extend mem wanted).object = bumped' - bumped := by
    simp [SizedAllocator.extend, extendBlocks, visited]
  refine ⟨object, ?_, ⟨rfl, rfl, rfl⟩, ?_, ?_⟩
  · constructor
    · exact size
    · exact holds.start_pos
    · exact holds.end_eq
    · exact holds.end_lt
    · exact stop
    · omega
    · simp only [SizedAllocator.extend, extendBlocks, visited]
      exact threaded.1
    · intro index member
      rw [List.append_assoc] at member
      rcases List.mem_append.mp member with untouched | listed
      · simp only [List.mem_range'_1] at untouched
        omega
      · have := holds.below index listed
        omega
    · rw [List.append_assoc]
      refine List.Nodup.append List.nodup_range' holds.nodup ?_
      intro index untouched listed
      have := holds.below index listed
      simp only [List.mem_range'_1] at untouched
      omega
  · simp only [SizedAllocator.extend, extendBlocks, visited]
    refine threaded.2.1.mono ?_
    intro index member
    simp only [List.mem_range'_1] at member
    exact mem_freeSlots.mpr (Or.inr (by omega))
  · simp only [SizedAllocator.extend, extendBlocks, visited]
    exact threaded.2.2

/-- `alloc` after the local list was found or made non-empty. -/
theorem popFree (holds : a.Holds mem count (index :: locals) remotes bumped) :
    (a.popFree mem).object = a.slot index ∧
      (a.popFree mem).allocator.Holds (a.popFree mem).mem count locals remotes bumped ∧
      SameSlots a (a.popFree mem).allocator := by
  rcases holds.lists.pop_cons with ⟨popped, _, rest⟩
  refine ⟨popped, ?_, ⟨rfl, rfl, rfl⟩⟩
  constructor
  · exact holds.size_ge
  · exact holds.start_pos
  · exact holds.end_eq
  · exact holds.end_lt
  · exact holds.bump_eq
  · exact holds.bumped_le
  · exact rest
  · exact fun other member => holds.below other (List.mem_cons_of_mem _ member)
  · exact (List.nodup_cons.mp holds.nodup).2

/-- `swap` on an empty local list. -/
theorem swapped (holds : a.Holds mem count [] remotes bumped) :
    ({ a with freeList := a.freeList.swap } : SizedAllocator).Holds mem count remotes [] bumped where
  size_ge := holds.size_ge
  start_pos := holds.start_pos
  end_eq := holds.end_eq
  end_lt := holds.end_lt
  bump_eq := holds.bump_eq
  bumped_le := holds.bumped_le
  lists := holds.lists.swap
  below := fun other member => holds.below other (by simpa using member)
  nodup := by simpa using holds.nodup

end Holds

/-- The two outcomes of `alloc`: a free slot is taken, or there was none. -/
inductive AllocOutcome (a : SizedAllocator) (mem : Nat → Cell) (count : Nat)
    (locals remotes : List Nat) (bumped : Nat) (result : Allocated Cell) : Prop where
  | full (object : result.object = 0)
      (exhausted : freeSlots locals remotes bumped count = [])
      (holds : result.allocator.Holds result.mem count [] [] count)
      (same : SameSlots a result.allocator)
      (memSame : result.mem = mem)
  | taken (index : Nat) (locals' remotes' : List Nat) (bumped' : Nat)
      (object : result.object = a.slot index)
      (holds : result.allocator.Holds result.mem count locals' remotes' bumped')
      (perm : (freeSlots locals remotes bumped count).Perm
        (index :: freeSlots locals' remotes' bumped' count))
      (same : SameSlots a result.allocator)
      (only : a.OnlyLinks (freeSlots locals remotes bumped count) mem result.mem)
      (relinked : a.Relinked count mem result.mem)

variable {a : SizedAllocator} {mem : Nat → Cell} {count bumped : Nat} {locals remotes : List Nat}

theorem freeSlots_extended (locals remotes : List Nat) {bumped' : Nat} (le : bumped ≤ bumped') (le_count : bumped' ≤ count) :
    (freeSlots locals remotes bumped count).Perm
      (freeSlots (List.range' bumped (bumped' - bumped) ++ locals) remotes bumped' count) := by
  have split : List.range' bumped (count - bumped) =
      List.range' bumped (bumped' - bumped) ++ List.range' bumped' (count - bumped') := by
    have joined := @List.range'_append bumped (bumped' - bumped) (count - bumped') 1
    rw [show bumped + 1 * (bumped' - bumped) = bumped' by omega,
      show bumped' - bumped + (count - bumped') = count - bumped by omega] at joined
    exact joined.symm
  rw [List.perm_iff_count]
  intro index
  simp only [freeSlots, split, List.count_append]
  omega

theorem Holds.alloc (holds : a.Holds mem count locals remotes bumped) :
    AllocOutcome a mem count locals remotes bumped (a.alloc mem) := by
  cases locals with
  | cons index locals =>
      rcases holds.popFree with ⟨object, popped, same⟩
      have found : ¬ (a.freeList.pop mem).1 = 0 := by
        rw [holds.lists.pop_cons.1]
        exact (holds.slot_pos index).ne'
      rw [SizedAllocator.alloc, if_neg found]
      exact .taken index locals remotes bumped object popped (List.Perm.refl _) same
        (OnlyLinks.refl mem) .refl
  | nil =>
      have missing : (a.freeList.pop mem).1 = 0 := by rw [holds.lists.pop_nil]
      rw [SizedAllocator.alloc, if_pos missing, allocSlow]
      rcases holds.extend 128 with ⟨object, extended, same, only, relinked⟩
      have bumped_le := holds.bumped_le
      by_cases more : (a.extend mem 128).object > 0
      · -- the list was extended: the lowest of the new slots is popped
        simp only [if_pos more]
        obtain ⟨others, split⟩ : ∃ others, min (bumped + 128) count - bumped = others + 1 :=
          ⟨min (bumped + 128) count - bumped - 1, by omega⟩
        rw [split, List.range'_succ, List.cons_append] at extended
        rcases extended.popFree with ⟨popped, rest, same'⟩
        refine .taken bumped _ _ _ ?_ rest ?_ (same.trans same') only relinked
        · rw [popped, same.slot_eq]
        · have le : bumped ≤ min (bumped + 128) count := by omega
          have le_count : min (bumped + 128) count ≤ count := by omega
          have moved := freeSlots_extended [] remotes le le_count
          rw [split, List.range'_succ] at moved
          exact moved
      · -- nothing was left to extend: the remote list is taken over
        have exhausted : bumped = count := by omega
        subst exhausted
        simp only [if_neg more]
        rw [show min (bumped + 128) bumped - bumped = 0 by omega, List.range'_zero,
          List.append_nil, show min (bumped + 128) bumped = bumped by omega] at extended
        have taken := extended.swapped
        cases remotes with
        | nil =>
            have none : ¬ (a.extend mem 128).allocator.freeList.swap.hasLocalFree = true := by
              rw [taken.lists.hasLocalFree_eq]
              simp
            rw [if_neg none]
            refine .full rfl (freeSlots_exhausted _) taken ⟨same.start, same.stop, same.size⟩ ?_
            funext address
            refine only address ?_
            simp
        | cons index remotes =>
            have some : (a.extend mem 128).allocator.freeList.swap.hasLocalFree = true := by
              rw [taken.lists.hasLocalFree_eq]
              simp
            rw [if_pos some]
            rcases taken.popFree with ⟨popped, rest, same'⟩
            refine .taken index remotes [] bumped ?_ rest ?_ ?_ only relinked
            · rw [popped]
              exact congrFun same.slot_eq index
            · simp [freeSlots]
            · exact same.trans ⟨same'.start, same'.stop, same'.size⟩

end SizedAllocator

end Alaska
