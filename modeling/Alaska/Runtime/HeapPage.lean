import Alaska.Runtime.Heap

/-!
# A common view of heap pages

Sized pages and locality pages keep their objects differently: slots with headers in one,
adjacent objects with records in the other. For the heap both are a set of places, each
of which may name a mapping: `named`, `addr`, `extent` and `room` read a place, and
`Valid` is the invariant of either kind of page. The lemmas are what the proofs about the
whole runtime use of a page.
-/

namespace Alaska

open Memory

namespace HeapPage

def memory : HeapPage → Nat
  | .sized p => p.memory
  | .locality p => p.data

/-- The mapping that place `index` names. -/
def named : HeapPage → Nat → Option Nat
  | .sized p, index => if index < p.capacity then (p.headers index).named else none
  | .locality p, index => p.named index

def addr : HeapPage → Nat → Nat
  | .sized p, index => p.indToObject index
  | .locality p, index => p.start index

/-- The bytes a place takes up. -/
def extent : HeapPage → Nat → Nat
  | .sized p, _ => p.objectSize
  | .locality p, index => (p.metadata index).size

/-- The value of `size_of` for the object in a place. -/
def room : HeapPage → Nat → Nat
  | .sized p, index => p.objectSize - (p.headers index).sizeSlack
  | .locality p, index => (p.metadata index).size

/-- The invariant of a page. -/
def Valid (bytes : Bytes) : HeapPage → Prop
  | .sized p => ∃ locals remotes bumped, p.Holds bytes locals remotes bumped
  | .locality p => p.Holds

/-- An address inside a place that names a mapping. -/
def Occupied (page : HeapPage) (address : Nat) : Prop :=
  ∃ index m, page.named index = some m ∧ page.addr index ≤ address ∧
    address < page.addr index + page.extent index

variable {page : HeapPage} {bytes bytes' : Bytes} {index other m m' : Nat}

theorem named_sized {p : SizedPage} :
    (HeapPage.sized p).named index = some m ↔
      index < p.capacity ∧ (p.headers index).named = some m := by
  simp only [named]
  split
  · next lt => simp [lt]
  · next ge => simp [ge]

theorem room_le : page.room index ≤ page.extent index := by
  cases page with
  | sized p => exact Nat.sub_le _ _
  | locality p => exact Nat.le_refl _

namespace Valid

/-- Objects lie inside their page. -/
theorem inside (valid : page.Valid bytes) (isNamed : page.named index = some m) :
    page.memory ≤ page.addr index ∧
      page.addr index + page.extent index ≤ page.memory + pageSize := by
  cases page with
  | sized p =>
      rcases valid with ⟨_, _, _, holds⟩
      have lt := (named_sized.mp isNamed).1
      have inside := holds.layout.slot_inside lt
      simp only [memory, addr, extent]
      omega
  | locality p =>
      have lt := (LocalityPage.named_eq_some.mp isNamed).1
      have inside := (LocalityPage.Holds.toIntact valid).inside lt
      simp only [memory, addr, extent]
      omega

theorem extent_pos (valid : page.Valid bytes) (isNamed : page.named index = some m) :
    0 < page.extent index := by
  cases page with
  | sized p =>
      rcases valid with ⟨_, _, _, holds⟩
      have := holds.layout.size_ge
      simp only [extent]
      omega
  | locality p =>
      have lt := (LocalityPage.named_eq_some.mp isNamed).1
      have := ((LocalityPage.Holds.toIntact valid).sizes _ lt).1
      simp only [extent]
      omega

/-- Different objects do not overlap. -/
theorem apart (valid : page.Valid bytes) (isNamed : page.named index = some m)
    (otherNamed : page.named other = some m') (ne : index ≠ other) :
    page.addr index + page.extent index ≤ page.addr other ∨
      page.addr other + page.extent other ≤ page.addr index := by
  cases page with
  | sized p => exact p.slots_apart ne
  | locality p =>
      rcases Nat.lt_or_gt_of_ne ne with before | after
      · exact Or.inl (LocalityPage.Intact.start_lt p before)
      · exact Or.inr (LocalityPage.Intact.start_lt p after)

/-- A page survives writes outside of it and writes to its objects. -/
theorem congr (valid : page.Valid bytes)
    (same : ∀ address, page.memory ≤ address → address < page.memory + pageSize →
      bytes' address = bytes address ∨ page.Occupied address) : page.Valid bytes' := by
  cases page with
  | sized p =>
      rcases valid with ⟨locals, remotes, bumped, holds⟩
      refine ⟨locals, remotes, bumped, holds.congr ?_⟩
      intro index listed address lower upper
      have lt := holds.lists.mem_lt listed
      have inside := holds.layout.slot_inside lt
      simp only [memory] at same
      rcases same address (by omega) (by omega) with equal | ⟨other, m, isNamed, otherLower, otherUpper⟩
      · exact equal
      · -- a slot on a list is none of the occupied ones
        rcases named_sized.mp isNamed with ⟨_, otherNamed⟩
        have ne : index ≠ other := by
          rintro rfl
          exact holds.not_mem_freeSlots (Header.named_eq_some.mp otherNamed).1
            (SizedAllocator.mem_freeSlots.mpr (Or.inl listed))
        have apart := p.slots_apart ne
        simp only [addr, extent] at otherLower otherUpper
        omega
  | locality p => exact valid

end Valid

/-! ### Changes of one place -/

/-- Page `page'` is page `page` after an operation on place `index`. -/
structure Changed (page page' : HeapPage) (index : Nat) : Prop where
  memory : page'.memory = page.memory
  sized : ∀ p, page = .sized p → ∃ p', page' = .sized p' ∧ p'.sizeClass = p.sizeClass
  locality : ∀ p, page = .locality p → ∃ p', page' = .locality p'
  others : ∀ other, other ≠ index → page'.named other = page.named other
  same : ∀ other m, other ≠ index → page.named other = some m →
    page'.addr other = page.addr other ∧ page'.extent other = page.extent other ∧
      page'.room other = page.room other

/-- An allocation: place `index` was free and names `m` now. -/
structure Allocated (page : HeapPage) (bytes : Bytes) (page' : HeapPage) (bytes' : Bytes)
    (index m : Nat) : Prop extends Changed page page' index where
  before : page.named index = none
  after : page'.named index = some m
  valid : page'.Valid bytes'
  outside : ∀ address, address < page.memory ∨ page.memory + pageSize ≤ address →
    bytes' address = bytes address
  occupied : ∀ address, page.Occupied address → bytes' address = bytes address

/-- A release: place `index` named `m` and is free now. -/
structure Released (page : HeapPage) (bytes : Bytes) (page' : HeapPage) (bytes' : Bytes)
    (index m : Nat) : Prop extends Changed page page' index where
  before : page.named index = some m
  after : page'.named index = none
  valid : page'.Valid bytes'
  elsewhere : ∀ address, address < page.addr index ∨
    page.addr index + page.extent index ≤ address → bytes' address = bytes address

section Sized

variable {p p' : SizedPage} {s : Store} {size : Nat} {locals remotes : List Nat} {bumped : Nat}

theorem changed_sized (layout : SizedPage.SameLayout p p')
    (others : ∀ other, other ≠ index → p'.headers other = p.headers other) :
    Changed (.sized p) (.sized p') index where
  memory := layout.memory
  sized := by
    rintro q ⟨rfl⟩
    exact ⟨p', rfl, layout.sizeClass⟩
  locality := by simp
  others := by
    intro other ne
    simp only [named, layout.capacity, others other ne]
  same := by
    intro other m ne _
    simp only [addr, extent, room, layout.indToObject, layout.objectSize, others other ne]
    exact ⟨trivial, trivial, trivial⟩

/-- A successful `SizedPage::alloc` as a change of the page, with room for the request. -/
theorem allocated_sized {result : SizedPage.Allocated} {locals' remotes' : List Nat}
    {bumped' : Nat} (holds : p.Holds s.bytes locals remotes bumped)
    (inTable : Mapping.InTable m)
    (spec : SizedPage.Holds.AllocSpec p s m size
      (SizedAllocator.freeSlots locals remotes bumped p.capacity) result index locals' remotes'
      bumped') :
    Allocated (.sized p) s.bytes (.sized result.page) result.store.bytes index m := by
  have layout := holds.layout
  have member : index ∈ SizedAllocator.freeSlots locals remotes bumped p.capacity :=
    spec.perm.mem_iff.mpr List.mem_cons_self
  refine ⟨changed_sized spec.same spec.others, ?_, ?_, ⟨_, _, _, spec.holds⟩, ?_, ?_⟩
  · simp only [named, if_pos spec.index_lt]
    exact Header.named_eq_none.mpr (holds.free index member)
  · rw [named_sized, spec.same.capacity, spec.header]
    exact ⟨spec.index_lt, SizedPage.named_allocHeader inTable⟩
  · intro address outside
    refine spec.bytes address fun other listed => ?_
    have otherInside := layout.slot_inside (holds.lists.freeSlots_lt listed)
    simp only [memory] at outside
    omega
  · rintro address ⟨other, m', isNamed, lower, upper⟩
    refine spec.bytes address fun free listed => ?_
    have ne : other ≠ free := by
      rintro rfl
      exact holds.not_mem_freeSlots
        (Header.named_eq_some.mp (named_sized.mp isNamed).2).1 listed
    have apart := p.slots_apart ne
    simp only [addr, extent] at lower upper
    omega

theorem room_sized {result : SizedPage} {header : Header} (same : SizedPage.SameLayout p result)
    (headers : result.headers index = header) :
    (HeapPage.sized result).room index = p.objectSize - header.sizeSlack := by
  simp only [room, headers, same.objectSize]

/-- A release of a slot as a change of the page. -/
theorem released_sized {result : SizedPage × Store} {locals' remotes' : List Nat} {bumped' : Nat}
    (lt : index < p.capacity) (isNamed : (p.headers index).named = some m)
    (holds : result.1.Holds result.2.bytes locals' remotes' bumped')
    (spec : SizedPage.Holds.ReleaseSpec p s index result) :
    Released (.sized p) s.bytes (.sized result.1) result.2.bytes index m where
  toChanged := changed_sized spec.same spec.others
  before := named_sized.mpr ⟨lt, isNamed⟩
  after := by
    simp only [named, spec.header]
    split <;> rfl
  valid := ⟨_, _, _, holds⟩
  elsewhere := spec.bytes

end Sized

section Locality

variable {p : LocalityPage} {mappings : Mappings} {size : Nat}

/-- A successful `LocalityPage::alloc` as a change of the page; no byte is written. -/
theorem allocated_locality {result : Nat × LocalityPage}
    (spec : LocalityPage.Holds.AllocSpec p m size result) (bytes : Bytes) :
    Allocated (.locality p) bytes (.locality result.2) bytes p.numAllocated m := by
  have kept : ∀ other, other ≠ p.numAllocated → result.2.named other = p.named other := by
    intro other ne
    simp only [LocalityPage.named, spec.count]
    by_cases lt : other < p.numAllocated
    · rw [spec.others other lt]
      simp [lt, Nat.lt_succ_of_lt lt]
    · rw [if_neg (by omega), if_neg (by omega)]
  have lt : p.numAllocated < result.2.numAllocated := by
    rw [spec.count]
    exact Nat.lt_succ_self _
  refine ⟨⟨spec.data, by simp, ?_, kept, ?_⟩, ?_, ?_, spec.holds, fun _ _ => rfl, fun _ _ => rfl⟩
  · rintro q ⟨rfl⟩
    exact ⟨_, rfl⟩
  · intro other m' ne isNamed
    have lt := (LocalityPage.named_eq_some.mp isNamed).1
    simp only [addr, extent, room, spec.starts other (Nat.le_of_lt lt), spec.others other lt]
    exact ⟨trivial, trivial, trivial⟩
  · simp [named, LocalityPage.named]
  · refine LocalityPage.named_eq_some.mpr ⟨lt, ?_, ?_⟩
    · rw [spec.record]
    · rw [spec.record]

/-- A release of a record as a change of the page. -/
theorem released_locality (holds : p.Holds) (backed : p.Backed mappings) (bytes : Bytes)
    (isNamed : p.named index = some m) :
    ∃ p', p.release mappings (p.start index) = some p' ∧
      Released (.locality p) bytes (.locality p') bytes index m := by
  rcases holds.release backed isNamed with ⟨p', result, after, data, count, starts, free, others⟩
  refine ⟨p', result, ⟨⟨data, by simp, ?_, ?_, ?_⟩, isNamed, free, after, fun _ _ => rfl⟩⟩
  · rintro q ⟨rfl⟩
    exact ⟨_, rfl⟩
  · intro other ne
    simp only [named, LocalityPage.named, count, others other ne]
  · intro other m' ne _
    simp only [addr, extent, room, starts, others other ne]
    exact ⟨trivial, trivial, trivial⟩

end Locality

end HeapPage

/-! ## The heap invariant -/

namespace Heap

/-- Where `mmap` puts the heap: page aligned user memory, away from the handle table. -/
structure Placed (start : Nat) : Prop where
  pos : 0 < start
  aligned : start % 4096 = 0
  below : start + heapSize ≤ 2 ^ 47
  apart : start + heapSize + pageSize ≤ handleTableLocation ∨ 2 * handleTableLocation ≤ start

/-- The pages, the page table and the magazines agree, and every page is valid. -/
structure Invariant (h : Heap) (bytes : Bytes) : Prop where
  placed : Placed h.start
  count_le : h.allocCount * pageSize ≤ heapSize
  entry : ∀ n < h.allocCount,
    h.pageTable (n % 2 ^ bitsPerPtLevel) (n / 2 ^ bitsPerPtLevel % 2 ^ bitsPerPtLevel) = some n
  memory : ∀ n < h.allocCount, (h.pages n).memory = h.getPage n
  valid : ∀ n < h.allocCount, (h.pages n).Valid bytes
  noEntry : ∀ ind1 ind2 n, h.pageTable ind1 ind2 = some n → n < h.allocCount
  classes : ∀ cls, ∀ n ∈ h.sizeClasses cls,
    n < h.allocCount ∧ ∃ p, h.pages n = .sized p ∧ p.sizeClass = cls
  localities : ∀ n ∈ h.localityPages, n < h.allocCount ∧ ∃ p, h.pages n = .locality p

namespace Invariant

variable {h : Heap} {bytes bytes' : Bytes} {n address : Nat}

theorem create {start : Nat} (bytes : Bytes) (placed : Placed start) :
    (Heap.create start).Invariant bytes where
  placed := placed
  count_le := by simp [Heap.create]
  entry := by simp [Heap.create]
  memory := by simp [Heap.create]
  valid := by simp [Heap.create]
  noEntry := by simp [Heap.create]
  classes := by simp [Heap.create]
  localities := by simp [Heap.create]

/-- A page lies inside the heap region. -/
theorem getPage_le (invariant : h.Invariant bytes) (lt : n < h.allocCount) :
    h.start ≤ h.getPage n ∧ h.getPage n + pageSize ≤ h.start + heapSize := by
  have le : (n + 1) * pageSize ≤ h.allocCount * pageSize := Nat.mul_le_mul_right _ lt
  have := invariant.count_le
  simp only [getPage, Nat.succ_mul] at *
  omega

/-- Pages do not overlap. -/
theorem getPage_apart {other : Nat} (ne : n ≠ other) :
    h.getPage n + pageSize ≤ h.getPage other ∨ h.getPage other + pageSize ≤ h.getPage n := by
  simp only [getPage, pageSize]
  omega

/-- Every address inside a page finds the page. -/
theorem getUnaligned_eq (invariant : h.Invariant bytes) (lt : n < h.allocCount)
    (lower : h.getPage n ≤ address) (upper : address < h.getPage n + pageSize) :
    h.getUnaligned address = some n := by
  have placed := invariant.placed
  have region := placed.below
  have page := invariant.getPage_le lt
  have small : n < 4096 := by
    have := invariant.count_le
    simp only [pageSize, heapSize] at this
    omega
  have index : (address + (2 ^ 64 - h.start)) % 2 ^ 64 / pageSize = n := by
    simp only [getPage, pageSize, heapSize] at *
    omega
  have walked : h.walk ((h.start + n * pageSize) % 2 ^ 64) = some n := by
    have number : ((h.start + n * pageSize) % 2 ^ 64 + (2 ^ 64 - h.start)) % 2 ^ 64 / pageSize =
        n := by
      simp only [getPage, pageSize, heapSize] at *
      omega
    rw [walk, number, if_neg (by simp only [bitsPerPtLevel]; omega)]
    exact invariant.entry n lt
  rw [getUnaligned, index, walked]

/-- Null and the addresses of the handle table are on no page. -/
theorem getUnaligned_none (invariant : h.Invariant bytes)
    (outside : address = 0 ∨
      handleTableLocation ≤ address ∧ address < 2 * handleTableLocation) :
    h.getUnaligned address = none := by
  have placed := invariant.placed
  have pos := placed.pos
  have below := placed.below
  have apart := placed.apart
  have location : handleTableLocation = 2 ^ 42 := rfl
  have number : ((h.start + (address + (2 ^ 64 - h.start)) % 2 ^ 64 / pageSize * pageSize) %
      2 ^ 64 + (2 ^ 64 - h.start)) % 2 ^ 64 / pageSize > 2 ^ (bitsPerPtLevel * 2) := by
    simp only [pageSize, heapSize, bitsPerPtLevel, location] at *
    omega
  rw [getUnaligned, walk, if_pos number]

/-- Changing owners does not matter. -/
theorem setOwner (invariant : h.Invariant bytes) (n : Nat) (owner : Option Nat) :
    (h.setOwner n owner).Invariant bytes :=
  ⟨invariant.placed, invariant.count_le, invariant.entry, invariant.memory, invariant.valid,
    invariant.noEntry, invariant.classes, invariant.localities⟩

/-- Replacing a page by a valid one of the same kind over the same memory. -/
theorem setPage (invariant : h.Invariant bytes) {page : HeapPage}
    (valid : page.Valid bytes') (memory : page.memory = (h.pages n).memory)
    (sized : ∀ p, h.pages n = .sized p → ∃ p', page = .sized p' ∧ p'.sizeClass = p.sizeClass)
    (locality : ∀ p, h.pages n = .locality p → ∃ p', page = .locality p')
    (others : ∀ other < h.allocCount, other ≠ n → (h.pages other).Valid bytes') :
    (h.setPage n page).Invariant bytes' := by
  refine ⟨invariant.placed, invariant.count_le, invariant.entry, ?_, ?_, invariant.noEntry,
    ?_, ?_⟩
  · intro other lt
    by_cases equal : other = n
    · subst equal
      simpa [Heap.setPage, getPage, memory] using invariant.memory other lt
    · simpa [Heap.setPage, getPage, equal] using invariant.memory other lt
  · intro other lt
    by_cases equal : other = n
    · subst equal
      simpa [Heap.setPage] using valid
    · simpa [Heap.setPage, equal] using others other lt equal
  · intro cls other member
    rcases invariant.classes cls other member with ⟨lt, p, isSized, isClass⟩
    refine ⟨lt, ?_⟩
    by_cases equal : other = n
    · subst equal
      rcases sized p isSized with ⟨p', rfl, same⟩
      exact ⟨p', by simp [Heap.setPage], same.trans isClass⟩
    · exact ⟨p, by simpa [Heap.setPage, equal] using isSized, isClass⟩
  · intro other member
    rcases invariant.localities other member with ⟨lt, p, isLocality⟩
    refine ⟨lt, ?_⟩
    by_cases equal : other = n
    · subst equal
      rcases locality p isLocality with ⟨p', rfl⟩
      exact ⟨p', by simp [Heap.setPage]⟩
    · exact ⟨p, by simpa [Heap.setPage, equal] using isLocality⟩

end Invariant

/-! ## New pages -/

/-- `h'` is `h` with possibly more, empty, pages and other owners. -/
structure Extends (h h' : Heap) : Prop where
  start : h'.start = h.start
  count_le : h.allocCount ≤ h'.allocCount
  pages : ∀ n < h.allocCount, h'.pages n = h.pages n
  fresh : ∀ n < h'.allocCount, h.allocCount ≤ n → ∀ index, (h'.pages n).named index = none

namespace Extends

variable {h h' h'' : Heap} {bytes : Bytes} {n owner : Nat}

theorem refl (h : Heap) : Extends h h :=
  ⟨rfl, Nat.le_refl _, fun _ _ => rfl, fun _ lt ge => absurd lt (Nat.not_lt.mpr ge)⟩

theorem trans (first : Extends h h') (second : Extends h' h'') : Extends h h'' where
  start := second.start.trans first.start
  count_le := first.count_le.trans second.count_le
  pages := fun n lt =>
    (second.pages n (Nat.lt_of_lt_of_le lt first.count_le)).trans (first.pages n lt)
  fresh := by
    intro n lt ge index
    by_cases old : n < h'.allocCount
    · rw [second.pages n old]
      exact first.fresh n old ge index
    · exact second.fresh n lt (Nat.not_lt.mp old) index

theorem setOwner (h : Heap) (n : Nat) (owner : Option Nat) : Extends h (h.setOwner n owner) :=
  ⟨rfl, Nat.le_refl _, fun _ _ => rfl, fun _ lt ge => absurd lt (Nat.not_lt.mpr ge)⟩

end Extends

variable {h h' : Heap} {bytes : Bytes} {n owner : Nat}

theorem findPage_mem {magazine : List Nat} {availRequirement : Nat}
    (found : h.findPage magazine availRequirement = some n) : n ∈ magazine :=
  List.mem_of_find?_eq_some found

/-- A freshly allocated page, before it is in a magazine. -/
theorem Invariant.allocPage (invariant : h.Invariant bytes) {create : Nat → HeapPage}
    (memory : ∀ start, (create start).memory = start)
    (valid : ∀ start, SizedPage.PageMemory start → (create start).Valid bytes)
    (empty : ∀ start index, (create start).named index = none)
    (allocated : h.allocPage owner create = some (n, h')) :
    h'.Invariant bytes ∧ Extends h h' ∧ n = h.allocCount ∧ n < h'.allocCount ∧
      h'.pages n = create (h.getPage n) ∧ h'.sizeClasses = h.sizeClasses ∧
      h'.localityPages = h.localityPages := by
  have placed := invariant.placed
  have region := placed.below
  have pos := placed.pos
  have aligned := placed.aligned
  have count_le := invariant.count_le
  simp only [Heap.allocPage] at allocated
  split at allocated
  · next room =>
      simp only [Option.some.injEq, Prod.mk.injEq] at allocated
      rcases allocated with ⟨rfl, rfl⟩
      have small : h.allocCount < 4096 := by
        simp only [getPage, pageSize, heapSize] at room
        omega
      have pageMemory : SizedPage.PageMemory (h.getPage h.allocCount) := by
        constructor
        · simp only [getPage]
          omega
        · simp only [getPage, pageSize]
          omega
        · simp only [getPage, pageSize, heapSize] at *
          omega
      have others : ∀ other < h.allocCount,
          Function.update h.pages h.allocCount (create (h.getPage h.allocCount)) other =
            h.pages other :=
        fun other lt => Function.update_of_ne (Nat.ne_of_lt lt) _ _
      refine ⟨?_, ⟨rfl, Nat.le_succ _, others, ?_⟩, rfl, Nat.lt_succ_self _, ?_, rfl, rfl⟩
      · refine ⟨placed, ?_, ?_, ?_, ?_, ?_, ?_, ?_⟩
        · show (h.allocCount + 1) * pageSize ≤ heapSize
          simp only [pageSize, heapSize]
          omega
        · intro other lt
          have lt : other < h.allocCount + 1 := lt
          simp only [Heap.setOwner, Heap.setPage, setEntry]
          split
          · next same =>
              -- page numbers below 4096 with equal table indices are equal
              simp only [bitsPerPtLevel] at same
              obtain rfl : other = h.allocCount := by omega
              rfl
          · next different =>
              refine invariant.entry other ?_
              by_contra ge
              obtain rfl : other = h.allocCount := by omega
              exact different ⟨rfl, rfl⟩
        · intro other lt
          by_cases equal : other = h.allocCount
          · simp [Heap.setOwner, Heap.setPage, setEntry, getPage, equal, memory]
          · have old : other < h.allocCount := Nat.lt_of_le_of_ne (Nat.le_of_lt_succ lt) equal
            simpa [Heap.setOwner, Heap.setPage, setEntry, getPage, equal] using
              invariant.memory other old
        · intro other lt
          by_cases equal : other = h.allocCount
          · simpa [Heap.setOwner, Heap.setPage, setEntry, equal] using valid _ pageMemory
          · have old : other < h.allocCount := Nat.lt_of_le_of_ne (Nat.le_of_lt_succ lt) equal
            simpa [Heap.setOwner, Heap.setPage, setEntry, equal] using invariant.valid other old
        · intro ind1 ind2 other found
          simp only [Heap.setOwner, Heap.setPage, setEntry] at found ⊢
          split at found
          · obtain rfl := Option.some.inj found
            exact Nat.lt_succ_self _
          · exact Nat.lt_succ_of_lt (invariant.noEntry _ _ _ found)
        · intro cls other member
          rcases invariant.classes cls other member with ⟨lt, p, isSized, isClass⟩
          refine ⟨Nat.lt_succ_of_lt lt, p, ?_, isClass⟩
          exact (others other lt).trans isSized
        · intro other member
          rcases invariant.localities other member with ⟨lt, p, isLocality⟩
          refine ⟨Nat.lt_succ_of_lt lt, p, ?_⟩
          exact (others other lt).trans isLocality
      · intro other lt ge index
        obtain rfl : other = h.allocCount := by
          have lt : other < h.allocCount + 1 := lt
          omega
        simp [Heap.setOwner, Heap.setPage, empty]
      · simp [Heap.setOwner, Heap.setPage]
  · exact absurd allocated (by simp)

/-- `get_sizedpage` returns a page of the requested class and disturbs no other page. -/
theorem Invariant.getSizedpage (invariant : h.Invariant bytes) {cls : Nat}
    (class_lt : cls < numSizeClasses)
    (found : h.getSizedpage (classToSize cls) owner = some (n, h')) :
    h'.Invariant bytes ∧ Extends h h' ∧ n < h'.allocCount ∧
      ∃ p, h'.pages n = .sized p ∧ p.sizeClass = cls := by
  have sameClass := sizeToClass_classToSize cls class_lt
  simp only [Heap.getSizedpage, sameClass] at found
  split at found
  · next other search =>
      simp only [Option.some.injEq, Prod.mk.injEq] at found
      rcases found with ⟨rfl, rfl⟩
      rcases invariant.classes cls other (findPage_mem search) with ⟨lt, p, isSized, isClass⟩
      exact ⟨invariant.setOwner _ _, Extends.setOwner _ _ _, lt, p, isSized, isClass⟩
  · simp only [Option.map_eq_some_iff, Prod.exists, Prod.mk.injEq] at found
    rcases found with ⟨other, h₁, allocated, rfl, rfl⟩
    have empty : ∀ start index,
        (HeapPage.sized (SizedPage.setSizeClass start cls)).named index = none := by
      intro start index
      simp only [HeapPage.named]
      split <;> rfl
    have valid : ∀ start, SizedPage.PageMemory start →
        (HeapPage.sized (SizedPage.setSizeClass start cls)).Valid bytes :=
      fun start pageMemory =>
        ⟨[], [], 0, SizedPage.Holds.setSizeClass bytes pageMemory class_lt⟩
    rcases invariant.allocPage (fun _ => rfl) valid empty allocated with ⟨after, extension, same, lt, page, sizeClasses, _⟩
    refine ⟨⟨after.placed, after.count_le, after.entry, after.memory, after.valid,
      after.noEntry, ?_, after.localities⟩, ⟨extension.start, extension.count_le,
      extension.pages, extension.fresh⟩, lt, _, page, rfl⟩
    intro cls' other' member
    by_cases equal : cls' = cls
    · subst equal
      simp only [Function.update_self, List.mem_append, List.mem_singleton] at member
      rcases member with old | rfl
      · exact after.classes cls' other' old
      · exact ⟨lt, _, page, rfl⟩
    · simp only [Function.update_of_ne equal] at member
      exact after.classes cls' other' member

/-- `get_localitypage` returns a locality page and disturbs no other page. -/
theorem Invariant.getLocalitypage (invariant : h.Invariant bytes) {sizeRequirement : Nat}
    (found : h.getLocalitypage sizeRequirement owner = some (n, h')) :
    h'.Invariant bytes ∧ Extends h h' ∧ n < h'.allocCount ∧ (∃ p, h'.pages n = .locality p) ∧
      ((∃ start, h'.pages n = .locality (LocalityPage.create start)) ∨
        (h'.available n % 2 ^ 64).toNat ≥ sizeRequirement) := by
  simp only [Heap.getLocalitypage] at found
  split at found
  · next other search =>
      simp only [Option.some.injEq, Prod.mk.injEq] at found
      rcases found with ⟨rfl, rfl⟩
      rcases invariant.localities other (findPage_mem search) with ⟨lt, p, isLocality⟩
      refine ⟨invariant.setOwner _ _, Extends.setOwner _ _ _, lt, ⟨p, isLocality⟩, Or.inr ?_⟩
      have holds := List.find?_some search
      simp only [Bool.and_eq_true, decide_eq_true_eq] at holds
      exact holds.1
  · simp only [Option.map_eq_some_iff, Prod.exists, Prod.mk.injEq] at found
    rcases found with ⟨other, h₁, allocated, rfl, rfl⟩
    have empty : ∀ start index,
        (HeapPage.locality (LocalityPage.create start)).named index = none := by
      intro start index
      simp [HeapPage.named, LocalityPage.named, LocalityPage.create]
    have valid : ∀ start, SizedPage.PageMemory start →
        (HeapPage.locality (LocalityPage.create start)).Valid bytes :=
      fun start pageMemory => LocalityPage.Holds.create pageMemory
    rcases invariant.allocPage (fun _ => rfl) valid empty allocated with ⟨after, extension, same, lt, page, _, localityPages⟩
    refine ⟨⟨after.placed, after.count_le, after.entry, after.memory, after.valid,
      after.noEntry, after.classes, ?_⟩, ⟨extension.start, extension.count_le,
      extension.pages, extension.fresh⟩, lt, ⟨_, page⟩, Or.inl ⟨_, page⟩⟩
    intro other' member
    simp only [List.mem_append, List.mem_singleton] at member
    rcases member with old | rfl
    · exact after.localities other' old
    · exact ⟨lt, _, page⟩

end Heap

end Alaska
