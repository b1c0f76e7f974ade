import Alaska.Runtime.HeapPageTable
import Alaska.Runtime.LocalityPage
import Alaska.Runtime.SizedPageCompaction

/-!
# The heap

`Heap.cpp`: the page manager bumps two-megabyte pages off one large region, the page
table maps a page number to its page object, and the magazines list the pages of a size
class and the locality pages. Page objects are identified by their page number. The page
manager's own free list is left out: nothing in the runtime frees a page.
-/

namespace Alaska

/-- A page object. -/
inductive HeapPage where
  | sized (page : SizedPage)
  | locality (page : LocalityPage)

/-- `pm`, `pt`, the magazines, and the page objects with their owners. -/
structure Heap where
  start : Nat
  allocCount : Nat
  pages : Nat → HeapPage
  owners : Nat → Option Nat
  pageTable : Nat → Nat → Option Nat
  sizeClasses : Nat → List Nat
  localityPages : List Nat

namespace Heap

variable {h : Heap}

/-- A heap whose backing memory `mmap` placed at `start`. -/
def create (start : Nat) : Heap where
  start := start
  allocCount := 0
  pages := fun _ => .locality (LocalityPage.create 0)
  owners := fun _ => none
  pageTable := fun _ _ => none
  sizeClasses := fun _ => []
  localityPages := []

/-- The memory of a page, `pm.get_page`. -/
def getPage (h : Heap) (n : Nat) : Nat := h.start + n * pageSize

/-- `HeapPageTable::walk`, with the load of the entry. -/
def walk (h : Heap) (vpage : Nat) : Option Nat :=
  let pageNumber := (vpage + (2 ^ 64 - h.start)) % 2 ^ 64 / pageSize
  if pageNumber > 2 ^ (bitsPerPtLevel * 2) then
    none
  else
    h.pageTable (pageNumber % 2 ^ bitsPerPtLevel)
      (pageNumber / 2 ^ bitsPerPtLevel % 2 ^ bitsPerPtLevel)

def getUnaligned (h : Heap) (addr : Nat) : Option Nat :=
  let pageInd := (addr + (2 ^ 64 - h.start)) % 2 ^ 64 / pageSize
  h.walk ((h.start + pageInd * pageSize) % 2 ^ 64)

/-- `pt.set` for page number `n`. -/
def setEntry (h : Heap) (n : Nat) : Heap :=
  { h with
    pageTable := fun ind1 ind2 =>
      if ind1 = n % 2 ^ bitsPerPtLevel ∧ ind2 = n / 2 ^ bitsPerPtLevel % 2 ^ bitsPerPtLevel then
        some n
      else
        h.pageTable ind1 ind2 }

def setOwner (h : Heap) (n : Nat) (owner : Option Nat) : Heap :=
  { h with owners := Function.update h.owners n owner }

def setPage (h : Heap) (n : Nat) (page : HeapPage) : Heap :=
  { h with pages := Function.update h.pages n page }

def available (h : Heap) (n : Nat) : Int :=
  match h.pages n with
  | .sized page => page.available
  | .locality page => page.available

/-- The search of `find_or_alloc_page` through a magazine, which compares unsigned values. -/
def findPage (h : Heap) (magazine : List Nat) (availRequirement : Nat) : Option Nat :=
  magazine.find? fun n =>
    decide ((h.available n % 2 ^ 64).toNat ≥ availRequirement) && h.owners n == none

/--
The other half of `find_or_alloc_page`: a new page for `owner`, not yet in a magazine;
`none` when the heap is exhausted and the assertion of `alloc_page` fails.
-/
def allocPage (h : Heap) (owner : Nat) (create : Nat → HeapPage) : Option (Nat × Heap) :=
  if h.getPage h.allocCount < h.start + heapSize then
    some (h.allocCount,
      (({ h with allocCount := h.allocCount + 1 }.setEntry h.allocCount).setPage h.allocCount
        (create (h.getPage h.allocCount))).setOwner h.allocCount (some owner))
  else
    none

def getSizedpage (h : Heap) (size owner : Nat) : Option (Nat × Heap) :=
  let cls := sizeToClass size
  match h.findPage (h.sizeClasses cls) 1 with
  | some n => some (n, h.setOwner n (some owner))
  | none =>
      (h.allocPage owner fun memory => .sized (SizedPage.setSizeClass memory cls)).map
        fun (n, h) =>
          (n, { h with
            sizeClasses := Function.update h.sizeClasses cls (h.sizeClasses cls ++ [n]) })

def getLocalitypage (h : Heap) (sizeRequirement owner : Nat) : Option (Nat × Heap) :=
  match h.findPage h.localityPages sizeRequirement with
  | some n => some (n, h.setOwner n (some owner))
  | none =>
      (h.allocPage owner fun memory => .locality (LocalityPage.create memory)).map
        fun (n, h) => (n, { h with localityPages := h.localityPages ++ [n] })

/-- `put_page`. -/
def putPage (h : Heap) (n : Nat) : Heap := h.setOwner n none

/-- Gives back the page a thread cache had before, if any. -/
def putOldPage (h : Heap) : Option Nat → Heap
  | some old => h.putPage old
  | none => h

/-- The walk is the lookup in a page table with the same entries. -/
theorem walk_eq_get {t : HeapPageTable Nat} (start : t.heapStart = h.start)
    (entries : ∀ ind1 ind2, t.load (ind1, ind2) = h.pageTable ind1 ind2) (vpage : Nat) :
    h.walk vpage = (t.get vpage).1 := by
  rw [(HeapPageTable.get_spec t vpage).1]
  unfold walk HeapPageTable.heapOffset
  rw [HeapPageTable.entryOf_eq, entries, start]
  rfl

theorem getUnaligned_eq_get {t : HeapPageTable Nat} (start : t.heapStart = h.start)
    (entries : ∀ ind1 ind2, t.load (ind1, ind2) = h.pageTable ind1 ind2) (addr : Nat) :
    h.getUnaligned addr = (t.getUnaligned addr).1 := by
  unfold getUnaligned HeapPageTable.getUnaligned HeapPageTable.heapOffset
  rw [← start]
  exact walk_eq_get start entries _

end Heap

end Alaska
