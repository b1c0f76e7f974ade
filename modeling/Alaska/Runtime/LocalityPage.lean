import Alaska.Runtime.SizedPage
import Mathlib.Algebra.Group.Int.Defs

/-!
# Locality pages

`LocalityPage.cpp`: a page that bump allocates objects of any size for localization. The
records of its objects grow down from the end of the page. A record of a freed object
keeps the object's address, a record of a live one names its mapping, so the address of
an object is found through its mapping, and `find_md` searches the records by address.
-/

namespace Alaska

open Memory

/-- `LocalityPage::Metadata`: `word` is the union of `mapping` and `data_raw`. -/
structure Metadata where
  word : Nat
  allocated : Bool
  size : Nat
  deriving DecidableEq

namespace Metadata

/-- `sizeof(Metadata)`. -/
def bytes : Nat := 16

def getData (md : Metadata) (mappings : Mappings) : Nat :=
  if !md.allocated then md.word else (mappings md.word).getPointer

end Metadata

/-- The fields of the class; `numAllocated` stands for `md_bump_next`, which it determines. -/
structure LocalityPage where
  data : Nat
  dataBumpNext : Nat
  numAllocated : Nat
  metadata : Nat → Metadata
  bytesFreed : Nat
  lastLocalizationEpoch : Nat

namespace LocalityPage

/-- The constructor. -/
def create (memory : Nat) : LocalityPage where
  data := memory
  dataBumpNext := memory
  numAllocated := 0
  metadata := fun _ => ⟨0, false, 0⟩
  bytesFreed := 0
  lastLocalizationEpoch := 0

/-- `get_free_space`, the 64-bit difference of the two bump pointers. -/
def getFreeSpace (p : LocalityPage) : Nat :=
  (((p.data + pageSize : Int) - (p.numAllocated + 1) * Metadata.bytes - p.dataBumpNext) %
    2 ^ 64).toNat

def available (p : LocalityPage) : Nat := (p.getFreeSpace + (2 ^ 64 - Metadata.bytes)) % 2 ^ 64

/-- `alloc`: the address of the object, null when there is no space. -/
def alloc (p : LocalityPage) (m size : Nat) : Nat × LocalityPage :=
  let size := alignedSize size
  if p.getFreeSpace < size then
    (0, p)
  else
    let md : Metadata := { word := m, allocated := true, size := size % 2 ^ 32 }
    (p.dataBumpNext,
      { p with
        dataBumpNext := p.dataBumpNext + size
        numAllocated := p.numAllocated + 1
        metadata := Function.update p.metadata p.numAllocated md })

def getPtr (p : LocalityPage) (mappings : Mappings) (index : Nat) : Nat :=
  (p.metadata index).getData mappings

/-- The loop of `find_md` that goes right; `steps` bounds its iterations. -/
def findRight (p : LocalityPage) (mappings : Mappings) (ptr : Nat) : Nat → Nat → Option Nat
  | 0, _ => none
  | steps + 1, guess =>
      if ptr > p.getPtr mappings guess then
        if guess ≥ p.numAllocated then none else p.findRight mappings ptr steps (guess + 1)
      else
        some guess

/-- The loop of `find_md` that goes left. -/
def findLeft (p : LocalityPage) (mappings : Mappings) (ptr : Nat) : Nat → Option Nat
  | 0 => if ptr < p.getPtr mappings 0 then none else some 0
  | guess + 1 =>
      if ptr < p.getPtr mappings (guess + 1) then
        p.findLeft mappings ptr guess
      else
        some (guess + 1)

/--
`find_md`: the index of the record; `none` for the null pointer, which the callers
dereference, and for a division by zero.
-/
def findMd (p : LocalityPage) (mappings : Mappings) (ptr : Nat) : Option Nat :=
  if ptr < p.data ∨ ptr > p.dataBumpNext then
    none
  else
    let scale := (p.dataBumpNext - p.data) / p.numAllocated
    if scale = 0 then
      none
    else
      let guess := (ptr - p.data) / scale
      let guess := if guess ≥ p.numAllocated then p.numAllocated - 1 else guess
      if ptr > p.getPtr mappings guess then
        p.findRight mappings ptr (p.numAllocated + 2) guess
      else
        p.findLeft mappings ptr guess

/-- `release_local`, and `release_remote`; `none` when the record is not found. -/
def release (p : LocalityPage) (mappings : Mappings) (ptr : Nat) : Option LocalityPage :=
  (p.findMd mappings ptr).map fun index =>
    { p with
      bytesFreed := p.bytesFreed + (p.metadata index).size
      metadata := Function.update p.metadata index
        { p.metadata index with word := ptr, allocated := false } }

def sizeOf (p : LocalityPage) (mappings : Mappings) (ptr : Nat) : Option Nat :=
  (p.findMd mappings ptr).map fun index => (p.metadata index).size

/-! ## Representation invariant -/

/-- The address of object `index`: the objects are adjacent. -/
def start (p : LocalityPage) : Nat → Nat
  | 0 => p.data
  | index + 1 => p.start index + (p.metadata index).size

/-- The mapping a record names. -/
def named (p : LocalityPage) (index : Nat) : Option Nat :=
  if index < p.numAllocated ∧ (p.metadata index).allocated = true then
    some (p.metadata index).word
  else
    none

theorem named_eq_some {p : LocalityPage} {index m : Nat} :
    p.named index = some m ↔ index < p.numAllocated ∧ (p.metadata index).allocated = true ∧
      (p.metadata index).word = m := by
  simp only [named]
  split
  · next holds => simp [holds.1, holds.2]
  · next fails =>
      simp only [reduceCtorEq, false_iff]
      rintro ⟨lt, allocated, _⟩
      exact fails ⟨lt, allocated⟩

/-- The records of the page, in the order of their objects. -/
def records (p : LocalityPage) : List Metadata := (List.range p.numAllocated).map p.metadata

/-- The sum of the sizes of the free records. -/
def freeBytes (p : LocalityPage) : Nat :=
  ((p.records.filter fun md => !md.allocated).map Metadata.size).sum

/-- Records are well formed and apart from the objects, and the bump pointers have not crossed. -/
structure Intact (p : LocalityPage) : Prop where
  memory : SizedPage.PageMemory p.data
  bump : p.dataBumpNext = p.start p.numAllocated
  space : p.dataBumpNext + (p.numAllocated + 1) * Metadata.bytes ≤ p.data + pageSize
  sizes : ∀ index < p.numAllocated, 16 ≤ (p.metadata index).size ∧
    (p.metadata index).size < pageSize
  aligned : ∀ index < p.numAllocated, (p.metadata index).size % 16 = 0
  freed : ∀ index < p.numAllocated, (p.metadata index).allocated = false →
    (p.metadata index).word = p.start index
  accounted : p.bytesFreed = p.freeBytes

/-- There is space for one more record, which `available` takes off. -/
def SparesRecord (p : LocalityPage) : Prop :=
  p.dataBumpNext + (p.numAllocated + 2) * Metadata.bytes ≤ p.data + pageSize

/-- The pages that `localize` allocates on: its check leaves space for one more record. -/
structure Holds (p : LocalityPage) : Prop extends Intact p where
  spare : p.SparesRecord

/-- Every mapping named by a record points to the object of the record. -/
def Backed (p : LocalityPage) (mappings : Mappings) : Prop :=
  ∀ index m, p.named index = some m → (mappings m).getPointer = p.start index

/-- Objects of two pages with the same sizes start at the same addresses. -/
theorem start_congr {p p' : LocalityPage} {index : Nat} (data : p'.data = p.data)
    (sizes : ∀ other < index, (p'.metadata other).size = (p.metadata other).size) :
    p'.start index = p.start index := by
  induction index with
  | zero => exact data
  | succ index ih =>
      have before := ih fun other lt => sizes other (Nat.lt_succ_of_lt lt)
      simp only [start, before, sizes index (Nat.lt_succ_self index)]

theorem Holds.create {memory : Nat} (pageMemory : SizedPage.PageMemory memory) :
    (LocalityPage.create memory).Holds where
  memory := pageMemory
  bump := rfl
  space := by
    simp only [LocalityPage.create, Metadata.bytes, pageSize]
    omega
  sizes := by simp [LocalityPage.create]
  aligned := by simp [LocalityPage.create]
  freed := by simp [LocalityPage.create]
  accounted := rfl
  spare := by
    simp only [SparesRecord, LocalityPage.create, Metadata.bytes, pageSize]
    omega

/-- Splitting the records at one of them. -/
theorem records_at {p : LocalityPage} {index : Nat} (lt : index < p.numAllocated) :
    ∃ before after, ∀ q : LocalityPage, q.numAllocated = p.numAllocated →
      (∀ other, other ≠ index → q.metadata other = p.metadata other) →
        q.records = before ++ q.metadata index :: after := by
  obtain ⟨rest, count⟩ : ∃ rest, p.numAllocated = index + (1 + rest) :=
    ⟨p.numAllocated - index - 1, by omega⟩
  refine ⟨(List.range index).map p.metadata,
    (List.range rest).map fun offset => p.metadata (index + (1 + offset)), fun q same others => ?_⟩
  have before : (List.range index).map q.metadata = (List.range index).map p.metadata := by
    apply List.map_congr_left
    intro other member
    exact others other (Nat.ne_of_lt (List.mem_range.mp member))
  have after : ((List.range rest).map fun offset => q.metadata (index + (1 + offset))) =
      (List.range rest).map fun offset => p.metadata (index + (1 + offset)) := by
    apply List.map_congr_left
    intro other member
    exact others _ (by omega)
  have one : List.range 1 = [0] := rfl
  rw [← before, ← after]
  simp [records, same, count, List.range_add, one, Nat.add_assoc]

/-- An allocation appends a record. -/
theorem records_append {p p' : LocalityPage} (count : p'.numAllocated = p.numAllocated + 1)
    (others : ∀ index < p.numAllocated, p'.metadata index = p.metadata index) :
    p'.records = p.records ++ [p'.metadata p.numAllocated] := by
  have old : (List.range p.numAllocated).map p'.metadata = p.records := by
    apply List.map_congr_left
    intro index member
    exact others index (List.mem_range.mp member)
  rw [records, count, List.range_succ, List.map_append, old, List.map_singleton]

namespace Intact

variable {p : LocalityPage} {mappings : Mappings} {index other m size : Nat}

theorem start_lt (p : LocalityPage) {index other : Nat} (lt : index < other) :
    p.start index + (p.metadata index).size ≤ p.start other := by
  induction other with
  | zero => exact absurd lt (Nat.not_lt_zero _)
  | succ other ih =>
      rcases Nat.lt_succ_iff_lt_or_eq.mp lt with before | equal
      · have below := ih before
        simp only [start]
        omega
      · simp only [equal, start]
        omega

theorem data_le (p : LocalityPage) (index : Nat) : p.data ≤ p.start index := by
  induction index with
  | zero => exact Nat.le_refl _
  | succ index ih =>
      simp only [start]
      omega

/-- Every object lies in the page, below the records. -/
theorem inside (intact : p.Intact) (lt : index < p.numAllocated) :
    p.data ≤ p.start index ∧ p.start index + (p.metadata index).size ≤ p.dataBumpNext ∧
      p.dataBumpNext ≤ p.data + pageSize := by
  have le := start_lt p lt
  have space := intact.space
  rw [← intact.bump] at le
  exact ⟨data_le p index, le, by omega⟩

theorem start_injective (intact : p.Intact) (lt : index < p.numAllocated)
    (other_lt : other < p.numAllocated) (equal : p.start index = p.start other) :
    index = other := by
  have size := (intact.sizes index lt).1
  have otherSize := (intact.sizes other other_lt).1
  rcases Nat.lt_trichotomy index other with before | same | after
  · have := start_lt p before
    omega
  · exact same
  · have := start_lt p after
    omega

theorem getFreeSpace_eq (intact : p.Intact) :
    p.getFreeSpace + p.dataBumpNext + (p.numAllocated + 1) * Metadata.bytes =
      p.data + pageSize := by
  have space := intact.space
  have below := intact.memory.below
  simp only [getFreeSpace, Metadata.bytes, pageSize] at *
  omega

/-- The bump pointer stays aligned. -/
theorem start_aligned (intact : p.Intact) (le : index ≤ p.numAllocated) :
    p.start index % 16 = 0 := by
  induction index with
  | zero =>
      have := intact.memory.aligned
      simp only [start]
      omega
  | succ index ih =>
      have before := ih (Nat.le_of_succ_le le)
      have size := intact.aligned index le
      simp only [start]
      omega

theorem getFreeSpace_aligned (intact : p.Intact) : p.getFreeSpace % 16 = 0 := by
  have free := intact.getFreeSpace_eq
  have bump := intact.start_aligned (Nat.le_refl _)
  have data := intact.memory.aligned
  rw [← intact.bump] at bump
  simp only [Metadata.bytes, pageSize] at free
  omega

/-- Every object takes at least 16 bytes. -/
theorem start_ge (intact : p.Intact) (le : index ≤ p.numAllocated) :
    p.data + 16 * index ≤ p.start index := by
  induction index with
  | zero => exact Nat.le_refl _
  | succ index ih =>
      have before := ih (Nat.le_of_succ_le le)
      have size := (intact.sizes index le).1
      simp only [start]
      omega

/-- `find_md` of a page with records does not divide by zero. -/
theorem scale_pos (intact : p.Intact) (pos : 0 < p.numAllocated) :
    0 < (p.dataBumpNext - p.data) / p.numAllocated := by
  have sizes := intact.start_ge (Nat.le_refl p.numAllocated)
  rw [← intact.bump] at sizes
  refine Nat.div_pos ?_ pos
  omega

/-- While the mappings are right, a record's address is where its object starts. -/
theorem getPtr_eq (intact : p.Intact) (backed : p.Backed mappings) (lt : index < p.numAllocated) :
    p.getPtr mappings index = p.start index := by
  simp only [getPtr, Metadata.getData]
  cases allocated : (p.metadata index).allocated with
  | false => simpa using intact.freed index lt allocated
  | true =>
      have := backed index _ (named_eq_some.mpr ⟨lt, allocated, rfl⟩)
      simpa using this

theorem findRight_start (intact : p.Intact) (backed : p.Backed mappings) {steps guess : Nat}
    (le : guess ≤ index) (lt : index < p.numAllocated) (enough : index < guess + steps) :
    p.findRight mappings (p.start index) steps guess = some index := by
  induction steps generalizing guess with
  | zero => omega
  | succ steps ih =>
      have guess_lt : guess < p.numAllocated := by omega
      rw [findRight, intact.getPtr_eq backed guess_lt]
      rcases Nat.lt_or_eq_of_le le with before | equal
      · have apart := start_lt p before
        have size := (intact.sizes guess guess_lt).1
        rw [if_pos (by omega), if_neg (by omega)]
        exact ih before (by omega)
      · rw [equal, if_neg (by omega)]

theorem findLeft_start (intact : p.Intact) (backed : p.Backed mappings) {guess : Nat}
    (le : index ≤ guess) (lt : guess < p.numAllocated) :
    p.findLeft mappings (p.start index) guess = some index := by
  induction guess with
  | zero =>
      obtain rfl : index = 0 := by omega
      rw [findLeft, intact.getPtr_eq backed lt, if_neg (by omega)]
  | succ guess ih =>
      rw [findLeft, intact.getPtr_eq backed lt]
      rcases Nat.lt_or_eq_of_le le with before | equal
      · have apart := start_lt p before
        have size := (intact.sizes index (by omega)).1
        rw [if_pos (by omega)]
        exact ih (by omega) (by omega)
      · rw [equal, if_neg (by omega)]

/-- `find_md` finds the record of an object, wherever the first guess lands. -/
theorem findMd_start (intact : p.Intact) (backed : p.Backed mappings)
    (lt : index < p.numAllocated) : p.findMd mappings (p.start index) = some index := by
  have inside := intact.inside lt
  have scale := intact.scale_pos (Nat.zero_lt_of_lt lt)
  simp only [findMd]
  rw [if_neg (by omega), if_neg (Nat.ne_of_gt scale)]
  generalize guess_eq : (if (p.start index - p.data) /
      ((p.dataBumpNext - p.data) / p.numAllocated) ≥ p.numAllocated then p.numAllocated - 1
    else (p.start index - p.data) / ((p.dataBumpNext - p.data) / p.numAllocated)) = guess
  have guess_lt : guess < p.numAllocated := by
    split at guess_eq <;> omega
  rw [intact.getPtr_eq backed guess_lt]
  split
  · next beyond =>
      have le : guess ≤ index := by
        by_contra gt
        have := start_lt p (Nat.lt_of_not_le gt)
        omega
      exact intact.findRight_start backed le lt (by omega)
  · next reached =>
      have le : index ≤ guess := by
        by_contra gt
        have := start_lt p (Nat.lt_of_not_le gt)
        have := (intact.sizes guess guess_lt).1
        omega
      exact intact.findLeft_start backed le guess_lt

theorem sizeOf_start (intact : p.Intact) (backed : p.Backed mappings)
    (lt : index < p.numAllocated) :
    p.sizeOf mappings (p.start index) = some (p.metadata index).size := by
  simp [LocalityPage.sizeOf, intact.findMd_start backed lt]

/-- What a successful `alloc` does: a record is appended for the object behind the others. -/
structure Appended (p : LocalityPage) (m size : Nat) (result : Nat × LocalityPage) : Prop where
  object : result.1 = p.start p.numAllocated
  intact : result.2.Intact
  data : result.2.data = p.data
  bump : result.2.dataBumpNext = p.dataBumpNext + size
  count : result.2.numAllocated = p.numAllocated + 1
  starts : ∀ index ≤ p.numAllocated, result.2.start index = p.start index
  record : result.2.metadata p.numAllocated = ⟨m, true, size⟩
  others : ∀ index < p.numAllocated, result.2.metadata index = p.metadata index

/-- Only the localizer reads the epoch of a page. -/
theorem setEpoch (intact : p.Intact) (epoch : Nat) :
    Intact { p with lastLocalizationEpoch := epoch } := by
  have starts : ∀ index,
      LocalityPage.start { p with lastLocalizationEpoch := epoch } index = p.start index :=
    fun index => start_congr rfl fun _ _ => rfl
  refine ⟨intact.memory, ?_, intact.space, intact.sizes, intact.aligned, ?_, intact.accounted⟩
  · rw [starts]
    exact intact.bump
  · intro index lt freed
    rw [starts]
    exact intact.freed index lt freed

theorem Appended.setEpoch {result : Nat × LocalityPage} (spec : Appended p m size result)
    (epoch : Nat) :
    Appended p m size (result.1, { result.2 with lastLocalizationEpoch := epoch }) where
  object := spec.object
  intact := spec.intact.setEpoch epoch
  data := spec.data
  bump := spec.bump
  count := spec.count
  starts index le := by
    rw [← spec.starts index le]
    exact start_congr rfl fun _ _ => rfl
  record := spec.record
  others := spec.others

/-- An allocation appends a record, when the space left is enough for the record. -/
theorem alloc (intact : p.Intact) (request : 16 ≤ alignedSize size)
    (fits : alignedSize size + Metadata.bytes ≤ p.getFreeSpace) :
    Appended p m (alignedSize size) (p.alloc m size) := by
  have free := intact.getFreeSpace_eq
  have below := intact.memory.below
  have behind := data_le p p.numAllocated
  rw [← intact.bump] at behind
  have small : alignedSize size < pageSize := by
    simp only [Metadata.bytes] at *
    omega
  have small32 : alignedSize size % 2 ^ 32 = alignedSize size :=
    Nat.mod_eq_of_lt (by simp only [pageSize] at small; omega)
  obtain ⟨page, isPage⟩ : ∃ page : LocalityPage, page = { p with
      dataBumpNext := p.dataBumpNext + alignedSize size
      numAllocated := p.numAllocated + 1
      metadata := Function.update p.metadata p.numAllocated ⟨m, true, alignedSize size⟩ } :=
    ⟨_, rfl⟩
  have result : p.alloc m size = (p.dataBumpNext, page) := by
    simp only [LocalityPage.alloc, small32, isPage]
    rw [if_neg (by omega)]
  have data : page.data = p.data := by rw [isPage]
  have bump : page.dataBumpNext = p.dataBumpNext + alignedSize size := by rw [isPage]
  have count : page.numAllocated = p.numAllocated + 1 := by rw [isPage]
  have freed : page.bytesFreed = p.bytesFreed := by rw [isPage]
  have record : page.metadata p.numAllocated = ⟨m, true, alignedSize size⟩ := by
    rw [isPage]
    exact Function.update_self _ _ _
  have others : ∀ index < p.numAllocated, page.metadata index = p.metadata index := by
    intro index lt
    rw [isPage]
    exact Function.update_of_ne (Nat.ne_of_lt lt) _ _
  have starts : ∀ index ≤ p.numAllocated, page.start index = p.start index := fun index le =>
    start_congr data fun other lt => congrArg Metadata.size (others other (by omega))
  rw [result]
  refine ⟨intact.bump, ?_, data, bump, count, starts, record, others⟩
  constructor
  · rw [data]
    exact intact.memory
  · have last := starts p.numAllocated (Nat.le_refl _)
    rw [count, start, last, record, bump, intact.bump]
  · rw [data, bump, count]
    simp only [Metadata.bytes] at *
    omega
  · intro index lt
    rcases Nat.lt_succ_iff_lt_or_eq.mp (count ▸ lt) with before | rfl
    · rw [others index before]
      exact intact.sizes index before
    · rw [record]
      exact ⟨request, small⟩
  · intro index lt
    rcases Nat.lt_succ_iff_lt_or_eq.mp (count ▸ lt) with before | rfl
    · rw [others index before]
      exact intact.aligned index before
    · rw [record]
      exact Nat.mul_mod_left _ _
  · intro index lt free
    rcases Nat.lt_succ_iff_lt_or_eq.mp (count ▸ lt) with before | rfl
    · rw [others index before] at free ⊢
      rw [starts index (Nat.le_of_lt before)]
      exact intact.freed index before free
    · rw [record] at free
      cases free
  · rw [freed, intact.accounted]
    simp [freeBytes, records_append count others, record]

/-- A release marks the record and keeps the address in it. -/
theorem release (intact : p.Intact) (backed : p.Backed mappings) (named : p.named index = some m) :
    ∃ p', p.release mappings (p.start index) = some p' ∧ p'.Intact ∧ p'.data = p.data ∧
      p'.dataBumpNext = p.dataBumpNext ∧ p'.numAllocated = p.numAllocated ∧
      (∀ other, p'.start other = p.start other) ∧
      p'.named index = none ∧ (∀ other, other ≠ index → p'.metadata other = p.metadata other) := by
  rcases named_eq_some.mp named with ⟨lt, live, _⟩
  rw [LocalityPage.release, intact.findMd_start backed lt]
  obtain ⟨page, isPage⟩ : ∃ page : LocalityPage, page = { p with
      bytesFreed := p.bytesFreed + (p.metadata index).size
      metadata := Function.update p.metadata index
        { p.metadata index with word := p.start index, allocated := false } } :=
    ⟨_, rfl⟩
  have record : page.metadata index = ⟨p.start index, false, (p.metadata index).size⟩ := by
    rw [isPage]
    exact Function.update_self _ _ _
  have kept : ∀ other, other ≠ index → page.metadata other = p.metadata other := by
    intro other ne
    rw [isPage]
    exact Function.update_of_ne ne _ _
  have sizes : ∀ other, (page.metadata other).size = (p.metadata other).size := by
    intro other
    by_cases equal : other = index
    · rw [equal, record]
    · rw [kept other equal]
  have data : page.data = p.data := by rw [isPage]
  have bump : page.dataBumpNext = p.dataBumpNext := by rw [isPage]
  have count : page.numAllocated = p.numAllocated := by rw [isPage]
  have freed : page.bytesFreed = p.bytesFreed + (p.metadata index).size := by rw [isPage]
  have starts : ∀ other, page.start other = p.start other :=
    fun other => start_congr data fun earlier _ => sizes earlier
  refine ⟨page, by rw [isPage]; rfl, ?_, data, bump, count, starts, ?_, kept⟩
  · constructor
    · rw [data]
      exact intact.memory
    · rw [bump, count, starts]
      exact intact.bump
    · rw [data, bump, count]
      exact intact.space
    · intro other other_lt
      rw [sizes]
      exact intact.sizes other (count ▸ other_lt)
    · intro other other_lt
      rw [sizes]
      exact intact.aligned other (count ▸ other_lt)
    · intro other other_lt free
      rw [starts]
      by_cases equal : other = index
      · rw [equal, record]
      · rw [kept other equal] at free ⊢
        exact intact.freed other (count ▸ other_lt) free
    · rcases records_at lt with ⟨before, after, split⟩
      have was := split p rfl fun _ _ => rfl
      have is := split page count kept
      have accounted := intact.accounted
      rw [freed]
      simp only [freeBytes, was, is, record, List.filter_append, List.filter_cons, live,
        List.map_append, List.sum_append, Bool.not_true, Bool.not_false, if_true, List.map_cons,
        List.sum_cons] at accounted ⊢
      simp only [Bool.false_eq_true, if_false] at accounted
      omega
  · simp [LocalityPage.named, record]

end Intact

namespace Holds

variable {p : LocalityPage} {mappings : Mappings} {index m size : Nat}

theorem available_eq (holds : p.Holds) : p.available + Metadata.bytes = p.getFreeSpace := by
  have free := holds.getFreeSpace_eq
  have spare := holds.spare
  have below := holds.memory.below
  simp only [SparesRecord, available, Metadata.bytes, pageSize] at *
  omega

/-- A successful `alloc` that leaves space for one more record. -/
structure AllocSpec (p : LocalityPage) (m size : Nat) (result : Nat × LocalityPage) : Prop
    extends Intact.Appended p m size result where
  spare : result.2.SparesRecord

theorem AllocSpec.holds {result : Nat × LocalityPage} (spec : AllocSpec p m size result) :
    result.2.Holds :=
  ⟨spec.intact, spec.spare⟩

theorem AllocSpec.setEpoch {result : Nat × LocalityPage} (spec : AllocSpec p m size result)
    (epoch : Nat) :
    AllocSpec p m size (result.1, { result.2 with lastLocalizationEpoch := epoch }) :=
  ⟨spec.toAppended.setEpoch epoch, spec.spare⟩

/-- An allocation appends a record, when the space left afterwards still fits a record. -/
theorem alloc (holds : p.Holds) (aligned : alignedSize size = size) (size_ge : 16 ≤ size)
    (fits : size + 2 * Metadata.bytes ≤ p.getFreeSpace) :
    AllocSpec p m size (p.alloc m size) := by
  have appended : Intact.Appended p m (alignedSize size) (p.alloc m size) := by
    apply holds.toIntact.alloc
    · omega
    · simp only [Metadata.bytes] at *
      omega
  rw [aligned] at appended
  refine ⟨appended, ?_⟩
  have free := holds.getFreeSpace_eq
  rw [SparesRecord, appended.data, appended.bump, appended.count]
  simp only [Metadata.bytes] at *
  omega

/-- A release marks the record and keeps the address in it. -/
theorem release (holds : p.Holds) (backed : p.Backed mappings) (named : p.named index = some m) :
    ∃ p', p.release mappings (p.start index) = some p' ∧ p'.Holds ∧ p'.data = p.data ∧
      p'.numAllocated = p.numAllocated ∧ (∀ other, p'.start other = p.start other) ∧
      p'.named index = none ∧ (∀ other, other ≠ index → p'.metadata other = p.metadata other) := by
  rcases holds.toIntact.release backed named with
    ⟨p', result, intact, data, bump, count, starts, free, others⟩
  have spare := holds.spare
  refine ⟨p', result, ⟨intact, ?_⟩, data, count, starts, free, others⟩
  rwa [SparesRecord, data, bump, count]

end Holds

end LocalityPage

end Alaska
