import Alaska.Lib.Run
import Alaska.Runtime.Heap

/-!
# The page manager

`PageManager` of `Heap.cpp`, with the free list that is stored in the free pages. Both
operations hold the lock, so they take turns. Between them the owners of allocated pages
may write to those pages, and anyone to the memory outside of the heap.
-/

namespace Alaska

open Memory Memory.LinkCells Lts

/-- The heap, its end, the bump pointer, the number of pages in use, and the free list. -/
structure PageManager where
  heap : Nat
  heapEnd : Nat
  bump : Nat
  allocCount : Nat
  freeList : Nat

namespace PageManager

/-- A page manager whose backing memory `mmap` placed at `heap`. -/
def create (heap : Nat) : PageManager where
  heap := heap
  heapEnd := (heap + heapSize) % 2 ^ 64
  bump := heap
  allocCount := 0
  freeList := 0

/-- `alloc_page`; `none` when its assertion fails. -/
def allocPage (pm : PageManager) (mem : Bytes) : Option (Nat × PageManager) :=
  if pm.freeList ≠ 0 then
    some (pm.freeList,
      { pm with
        freeList := next mem pm.freeList
        allocCount := (pm.allocCount + 1) % 2 ^ 64 })
  else if pm.bump < pm.heapEnd then
    some (pm.bump,
      { pm with
        bump := (pm.bump + pageSize) % 2 ^ 64
        allocCount := (pm.allocCount + 1) % 2 ^ 64 })
  else
    none

def freePage (pm : PageManager) (mem : Bytes) (page : Nat) : PageManager × Bytes :=
  if page < pm.heap ∨ page ≥ pm.heapEnd then
    (pm, mem)
  else
    ({ pm with
        freeList := page
        allocCount := (pm.allocCount + (2 ^ 64 - 1)) % 2 ^ 64 },
      setNext mem page pm.freeList)

def getPage (pm : PageManager) (i : Nat) : Nat := pm.heap + i * pageSize

/-- While no page has been freed, pages are handed out as the heap does it. -/
theorem allocPage_eq_heap {pm : PageManager} {h : Heap} {mem : Bytes}
    (heap : pm.heap = h.start) (heapEnd : pm.heapEnd = h.start + heapSize)
    (bump : pm.bump = h.getPage h.allocCount) (freeList : pm.freeList = 0) (owner : Nat)
    (create : Nat → HeapPage) :
    (pm.allocPage mem).map Prod.fst =
      (h.allocPage owner create).map fun (n, _) => pm.getPage n := by
  have empty : ¬ pm.freeList ≠ 0 := not_not.mpr freeList
  rw [allocPage, Heap.allocPage, if_neg empty, bump, heapEnd]
  by_cases room : h.getPage h.allocCount < h.start + heapSize
  · rw [if_pos room, if_pos room]
    simp only [Option.map_some, getPage, heap, Heap.getPage]
  · rw [if_neg room, if_neg room]
    rfl

end PageManager

/-- The page manager, the memory, and the pages that callers hold. -/
structure ManagedPages where
  manager : PageManager
  mem : Bytes
  allocated : List Nat

inductive PageManagerOp
  | allocPage
  | freePage (page : Nat)
  | write (address : Nat) (value : UInt8)

namespace ManagedPages

def start (heap : Nat) (mem : Bytes) : ManagedPages := ⟨.create heap, mem, []⟩

def Outside (t : ManagedPages) (address : Nat) : Prop :=
  address < t.manager.heap ∨ t.manager.heapEnd ≤ address

instance (t : ManagedPages) (address : Nat) : Decidable (t.Outside address) :=
  inferInstanceAs (Decidable (_ ∨ _))

/--
One operation. Callers free only the pages they hold and addresses outside of the heap, and
of the heap they write only to the pages they hold.
-/
def next (t : ManagedPages) : PageManagerOp → Option ManagedPages
  | .allocPage =>
      (t.manager.allocPage t.mem).map fun (page, manager) =>
        { t with manager := manager, allocated := page :: t.allocated }
  | .freePage page =>
      if page ∈ t.allocated ∨ t.Outside page then
        some
          { manager := (t.manager.freePage t.mem page).1
            mem := (t.manager.freePage t.mem page).2
            allocated := t.allocated.erase page }
      else
        none
  | .write address value =>
      if (∃ page ∈ t.allocated, page ≤ address ∧ address < page + pageSize) ∨
          t.Outside address then
        some { t with mem := Function.update t.mem address value }
      else
        none

/-! ## The invariant -/

/--
The pages up to the bump pointer are the allocated pages and the pages of the free list,
each once.
-/
structure Invariant (t : ManagedPages) (heap : Nat) (free : List Nat) (bumped : Nat) :
    Prop where
  pos : 0 < heap
  fits : heap + heapSize < 2 ^ 64
  start : t.manager.heap = heap
  heapEnd : t.manager.heapEnd = heap + heapSize
  bump : t.manager.bump = heap + bumped * pageSize
  bumped_le : bumped ≤ heapSize / pageSize
  list : IsList t.mem t.manager.freeList free
  pages : (t.allocated ++ free).Perm ((List.range bumped).map fun n => heap + n * pageSize)
  count : t.manager.allocCount = t.allocated.length

namespace Invariant

variable {t t' : ManagedPages} {heap page other bumped : Nat} {free : List Nat} {mem : Bytes}

theorem initial (pos : 0 < heap) (fits : heap + heapSize < 2 ^ 64) (mem : Bytes) :
    (ManagedPages.start heap mem).Invariant heap [] 0 where
  pos := pos
  fits := fits
  start := rfl
  heapEnd := Nat.mod_eq_of_lt fits
  bump := by simp [ManagedPages.start, PageManager.create]
  bumped_le := Nat.zero_le _
  list := rfl
  pages := .nil
  count := rfl

theorem mem_iff (inv : t.Invariant heap free bumped) :
    page ∈ t.allocated ++ free ↔ ∃ n < bumped, heap + n * pageSize = page := by
  rw [inv.pages.mem_iff]
  simp

/-- A page that was ever handed out is a whole page of the heap. -/
theorem page_of_mem (inv : t.Invariant heap free bumped) (member : page ∈ t.allocated ++ free) :
    ∃ n < heapSize / pageSize, page = heap + n * pageSize := by
  rcases inv.mem_iff.mp member with ⟨n, lt, rfl⟩
  exact ⟨n, lt.trans_le inv.bumped_le, rfl⟩

theorem inside (inv : t.Invariant heap free bumped) (member : page ∈ t.allocated ++ free) :
    heap ≤ page ∧ page + pageSize ≤ heap + heapSize := by
  rcases inv.page_of_mem member with ⟨n, lt, rfl⟩
  simp only [pageSize, heapSize] at *
  omega

theorem nodup (inv : t.Invariant heap free bumped) : (t.allocated ++ free).Nodup := by
  refine inv.pages.nodup_iff.mpr (List.nodup_range.map ?_)
  intro n m same
  simp only [pageSize] at same
  omega

theorem length (inv : t.Invariant heap free bumped) :
    t.allocated.length + free.length = bumped := by
  have same := inv.pages.length_eq
  simpa using same

/-- Different pages do not overlap. -/
theorem apart (inv : t.Invariant heap free bumped) (member : page ∈ t.allocated ++ free)
    (member' : other ∈ t.allocated ++ free) (ne : page ≠ other) :
    page + pageSize ≤ other ∨ other + pageSize ≤ page := by
  rcases inv.page_of_mem member with ⟨n, _, rfl⟩
  rcases inv.page_of_mem member' with ⟨m, _, rfl⟩
  have different : n ≠ m := by
    rintro rfl
    exact ne rfl
  simp only [pageSize]
  omega

theorem notMem_free (inv : t.Invariant heap free bumped) (held : page ∈ t.allocated) :
    page ∉ free :=
  fun member => (List.nodup_append.mp inv.nodup).2.2 page held page member rfl

/-- The count does not wrap. -/
theorem length_lt (inv : t.Invariant heap free bumped) : t.allocated.length + 1 < 2 ^ 64 := by
  have length := inv.length
  have bumped_le := inv.bumped_le
  simp only [heapSize, pageSize] at bumped_le
  omega

/-- The bump pointer does not wrap. -/
theorem bump_next (inv : t.Invariant heap free bumped) (more : bumped < heapSize / pageSize) :
    (heap + bumped * pageSize + pageSize) % 2 ^ 64 = heap + (bumped + 1) * pageSize := by
  have fits := inv.fits
  simp only [heapSize, pageSize] at fits more ⊢
  omega

/-- The count does not wrap. -/
theorem count_next (inv : t.Invariant heap free bumped) :
    (t.manager.allocCount + 1) % 2 ^ 64 = t.allocated.length + 1 := by
  rw [inv.count]
  exact Nat.mod_eq_of_lt inv.length_lt

/-- `alloc_page` of a page from the free list. -/
theorem allocPage_reuse (inv : t.Invariant heap free bumped) (nonempty : t.manager.freeList ≠ 0) :
    ∃ pm rest, t.manager.allocPage t.mem = some (t.manager.freeList, pm) ∧
      ManagedPages.Invariant ⟨pm, t.mem, t.manager.freeList :: t.allocated⟩ heap rest bumped := by
  rcases inv.list.cons_of_ne_zero nonempty with ⟨rest, rfl, list⟩
  have result : t.manager.allocPage t.mem = some (t.manager.freeList, _) := if_pos nonempty
  rw [inv.count_next] at result
  have pages := List.perm_middle.symm.trans inv.pages
  exact ⟨_, rest, result, inv.pos, inv.fits, inv.start, inv.heapEnd, inv.bump, inv.bumped_le, list,
    pages, rfl⟩

/-- `alloc_page` of the next page, when the free list is empty. -/
theorem allocPage_bump (inv : t.Invariant heap [] bumped) (more : bumped < heapSize / pageSize) :
    ∃ pm, t.manager.allocPage t.mem = some (heap + bumped * pageSize, pm) ∧
      ManagedPages.Invariant ⟨pm, t.mem, (heap + bumped * pageSize) :: t.allocated⟩ heap []
        (bumped + 1) := by
  have empty : ¬ t.manager.freeList ≠ 0 := not_not.mpr inv.list
  have room : t.manager.bump < t.manager.heapEnd := by
    rw [inv.bump, inv.heapEnd]
    simp only [heapSize, pageSize] at *
    omega
  have result : t.manager.allocPage t.mem = some (t.manager.bump, _) :=
    (if_neg empty).trans (if_pos room)
  rw [inv.bump, inv.bump_next more, inv.count_next] at result
  have pages : ((heap + bumped * pageSize) :: t.allocated ++ []).Perm
      ((List.range (bumped + 1)).map fun n => heap + n * pageSize) := by
    rw [List.range_succ, List.map_append]
    refine List.Perm.trans ?_ (inv.pages.append_right _)
    rw [List.append_nil, List.append_nil, List.map_singleton]
    exact (List.perm_append_singleton _ _).symm
  rcases t with ⟨⟨start, heapEnd, bump, allocCount, freeList⟩, mem, allocated⟩
  exact ⟨_, result, inv.pos, inv.fits, inv.start, inv.heapEnd, rfl, more, inv.list, pages, rfl⟩

/-- `alloc_page` hands out a page unless every page of the heap is allocated. -/
theorem allocPage (inv : t.Invariant heap free bumped) :
    (t.manager.allocPage t.mem = none ∧ t.allocated.length = heapSize / pageSize) ∨
      ∃ page pm free' bumped', t.manager.allocPage t.mem = some (page, pm) ∧
        ManagedPages.Invariant ⟨pm, t.mem, page :: t.allocated⟩ heap free' bumped' := by
  by_cases empty : t.manager.freeList = 0
  · have list := inv.list
    rw [empty, IsList.zero_iff] at list
    subst list
    rcases inv.bumped_le.lt_or_eq with more | all
    · rcases inv.allocPage_bump more with ⟨pm, result, inv'⟩
      exact Or.inr ⟨_, pm, [], bumped + 1, result, inv'⟩
    · refine Or.inl ⟨?_, inv.length.trans all⟩
      have full : ¬ t.manager.bump < t.manager.heapEnd := by
        rw [inv.bump, inv.heapEnd, all]
        simp only [heapSize, pageSize]
        omega
      rw [PageManager.allocPage, if_neg (not_not.mpr empty), if_neg full]
  · rcases inv.allocPage_reuse empty with ⟨pm, rest, result, inv'⟩
    exact Or.inr ⟨_, pm, rest, bumped, result, inv'⟩

/-- `free_page` of an allocated page. -/
theorem freePage (inv : t.Invariant heap free bumped) (held : page ∈ t.allocated) :
    ManagedPages.Invariant
      ⟨(t.manager.freePage t.mem page).1, (t.manager.freePage t.mem page).2,
        t.allocated.erase page⟩ heap (page :: free) bumped := by
  have member : page ∈ t.allocated ++ free := List.mem_append_left _ held
  have bounds := inv.inside member
  have inHeap : ¬ (page < t.manager.heap ∨ page ≥ t.manager.heapEnd) := by
    rw [inv.start, inv.heapEnd]
    simp only [pageSize] at bounds
    omega
  have list : IsList (setNext t.mem page t.manager.freeList) page (page :: free) := by
    have positive := inv.pos
    have fits := inv.fits
    refine inv.list.push (by omega) ?_ ?_
    · intro other isFree
      have := inv.inside (List.mem_append_right t.allocated isFree)
      omega
    · intro other isFree
      have ne : page ≠ other := by
        rintro rfl
        exact inv.notMem_free held isFree
      have apart := inv.apart member (List.mem_append_right _ isFree) ne
      simp only [pageSize] at apart
      unfold Apart
      omega
  have pages : (t.allocated.erase page ++ page :: free).Perm
      ((List.range bumped).map fun n => heap + n * pageSize) := by
    refine List.perm_middle.trans (List.Perm.trans ?_ inv.pages)
    exact (List.perm_cons_erase held).symm.append_right free
  have count : (t.manager.allocCount + (2 ^ 64 - 1)) % 2 ^ 64 =
      (t.allocated.erase page).length := by
    have small := inv.length_lt
    have pos := List.length_pos_of_mem held
    rw [List.length_erase_of_mem held, inv.count]
    omega
  rw [PageManager.freePage, if_neg inHeap, count]
  rcases t with ⟨⟨start, heapEnd, bump, allocCount, freeList⟩, mem, allocated⟩
  exact ⟨inv.pos, inv.fits, inv.start, inv.heapEnd, inv.bump, inv.bumped_le, list, pages, rfl⟩

/-- Writes outside of the free pages leave the free list as it is. -/
theorem write {address : Nat} {value : UInt8} (inv : t.Invariant heap free bumped)
    (allowed : (∃ page ∈ t.allocated, page ≤ address ∧ address < page + pageSize) ∨
      t.Outside address) :
    ManagedPages.Invariant { t with mem := Function.update t.mem address value } heap free
      bumped := by
  refine { inv with list := inv.list.congr fun other isFree => ?_ }
  have member := List.mem_append_right t.allocated isFree
  have bounds := inv.inside member
  refine next_congr _ _ _ fun read lower upper => Function.update_of_ne ?_ _ _
  rintro rfl
  rcases allowed with ⟨page, held, above, below⟩ | outside
  · have ne : page ≠ other := by
      rintro rfl
      exact inv.notMem_free held isFree
    have apart := inv.apart (List.mem_append_left _ held) member ne
    simp only [pageSize] at apart below
    omega
  · unfold Outside at outside
    rw [inv.start, inv.heapEnd] at outside
    simp only [pageSize] at bounds
    omega

theorem step {op : PageManagerOp} (inv : t.Invariant heap free bumped)
    (next : t.next op = some t') : ∃ free' bumped', t'.Invariant heap free' bumped' := by
  cases op with
  | allocPage =>
      rcases inv.allocPage with ⟨result, _⟩ | ⟨page, pm, free', bumped', result, inv'⟩
      · rw [ManagedPages.next, result] at next
        exact nomatch next
      · rw [ManagedPages.next, result] at next
        exact ⟨free', bumped', Option.some.inj next ▸ inv'⟩
  | freePage page =>
      simp only [ManagedPages.next, Option.ite_none_right_eq_some, Option.some.injEq] at next
      rcases next with ⟨allowed, rfl⟩
      by_cases held : page ∈ t.allocated
      · exact ⟨page :: free, bumped, inv.freePage held⟩
      · -- an address outside of the heap is ignored
        have outside : page < t.manager.heap ∨ page ≥ t.manager.heapEnd :=
          allowed.resolve_left held
        refine ⟨free, bumped, ?_⟩
        rw [PageManager.freePage, if_pos outside, List.erase_of_not_mem held]
        exact inv
  | write address value =>
      simp only [ManagedPages.next, Option.ite_none_right_eq_some, Option.some.injEq] at next
      rcases next with ⟨allowed, rfl⟩
      exact ⟨free, bumped, inv.write allowed⟩

theorem run {ops : List PageManagerOp} (inv : t.Invariant heap free bumped)
    (run : Run (ofFunction ManagedPages.next) t ops t') :
    ∃ free' bumped', t'.Invariant heap free' bumped' := by
  refine run.invariant (fun t => ∃ free bumped, t.Invariant heap free bumped) ?_
    ⟨free, bumped, inv⟩
  rintro s op s' ⟨free, bumped, inv⟩ next
  exact inv.step next

end Invariant

/-- What the callers of the page manager rely on. -/
structure Exclusive (t : ManagedPages) (heap : Nat) : Prop where
  count : t.manager.allocCount = t.allocated.length
  distinct : t.allocated.Nodup
  handedOut : ∀ page pm, t.manager.allocPage t.mem = some (page, pm) →
    (∃ n < heapSize / pageSize, page = heap + n * pageSize) ∧ page ∉ t.allocated
  exhausted : t.manager.allocPage t.mem = none ↔ t.allocated.length = heapSize / pageSize

theorem Invariant.exclusive {t : ManagedPages} {heap bumped : Nat} {free : List Nat}
    (inv : t.Invariant heap free bumped) : t.Exclusive heap := by
  rcases inv.allocPage with ⟨result, all⟩ | ⟨page, pm, free', bumped', result, inv'⟩
  · refine ⟨inv.count, inv.nodup.of_append_left, ?_, iff_of_true result all⟩
    intro page pm next
    rw [result] at next
    exact nomatch next
  · have nodup := inv'.nodup
    rw [List.cons_append, List.nodup_cons] at nodup
    have length := inv'.length
    have bumped_le := inv'.bumped_le
    rw [List.length_cons] at length
    refine ⟨inv.count, inv.nodup.of_append_left, ?_, ?_⟩
    · intro other pm' next
      obtain ⟨rfl, -⟩ := Prod.mk.inj (Option.some.inj (result.symm.trans next))
      exact ⟨inv'.page_of_mem (by simp), fun held => nodup.1 (List.mem_append_left _ held)⟩
    · rw [result]
      exact iff_of_false (fun fails => nomatch fails) (by omega)

/--
After any sequence of operations, the next page handed out is a page of the heap that nobody
holds, the count is the number of allocated pages, and the heap is exhausted only when all
pages are allocated.
-/
theorem exclusive_of_run {heap : Nat} {mem : Bytes} {ops : List PageManagerOp} {t : ManagedPages}
    (pos : 0 < heap) (fits : heap + heapSize < 2 ^ 64)
    (run : Run (ofFunction next) (start heap mem) ops t) : t.Exclusive heap := by
  rcases (Invariant.initial pos fits mem).run run with ⟨free, bumped, inv⟩
  exact inv.exclusive

/-- Two pages are allocated; the first one is freed, reused and written to. -/
def reuseOps : List PageManagerOp :=
  [.allocPage, .allocPage, .freePage (2 ^ 40), .freePage 4096, .allocPage, .write (2 ^ 40) 7]

theorem exclusive_of_run_reuse : ∃ t,
    Run (ofFunction next) (start (2 ^ 40) fun _ => 0) reuseOps t ∧ t.Exclusive (2 ^ 40) := by
  have runs : (replay next (start (2 ^ 40) fun _ => 0) reuseOps).isSome = true := by decide
  rcases Option.isSome_iff_exists.mp runs with ⟨t, replayed⟩
  have run := run_of_replay replayed
  exact ⟨t, run, exclusive_of_run (by decide) (by decide) run⟩

end ManagedPages

end Alaska
