import Alaska.Runtime.SizeClass
import Mathlib.Logic.Function.Basic

/-!
# The page table of the heap

`HeapPageTable` in `Heap.cpp` maps the pages of the heap to their page objects with a radix
tree of two levels. The tables of the second level are allocated when a walk needs them, by a
lookup too. The walk compares the page number with the number of pages, but lets the number
that follows the last page pass.
-/

namespace Alaska

/-- `heap_size`, for `HEAP_SIZE_SHIFT_FACTOR` 33. -/
def heapSize : Nat := 2 ^ 33

/-- `bits_per_pt_level`. -/
def bitsPerPtLevel : Nat := 6

/-- `pt_level_mask`. -/
def ptLevelMask : Nat := 2 ^ bitsPerPtLevel - 1

/-- A null entry is `none`, and so is a table that is not allocated. -/
structure HeapPageTable (Page : Type) where
  heapStart : Nat
  root : Nat → Option (Nat → Option Page)

namespace HeapPageTable

variable {Page : Type}

/-- The constructor. -/
def create (heapStart : Nat) : HeapPageTable Page := ⟨heapStart, fun _ => none⟩

/-- The distance of an address from the start of the heap. -/
def heapOffset (t : HeapPageTable Page) (addr : Nat) : Nat :=
  (addr + (2 ^ 64 - t.heapStart)) % 2 ^ 64

/-- `walk`: the indices of the entry, and the table with what the walk has allocated. -/
def walk (t : HeapPageTable Page) (vpage : Nat) : Option (Nat × Nat) × HeapPageTable Page :=
  let pageNumber := t.heapOffset vpage / pageSize
  if pageNumber > 2 ^ (bitsPerPtLevel * 2) then
    (none, t)
  else
    let ind1 := pageNumber &&& ptLevelMask
    let ind2 := pageNumber >>> bitsPerPtLevel &&& ptLevelMask
    let pt1 := (t.root ind1).getD fun _ => none
    (some (ind1, ind2), { t with root := Function.update t.root ind1 (some pt1) })

/-- The load of an entry. -/
def load (t : HeapPageTable Page) (entry : Nat × Nat) : Option Page :=
  (t.root entry.1).bind fun pt1 => pt1 entry.2

def get (t : HeapPageTable Page) (page : Nat) : Option Page × HeapPageTable Page :=
  match t.walk page with
  | (none, t) => (none, t)
  | (some entry, t) => (t.load entry, t)

/-- `get_unaligned`. -/
def getUnaligned (t : HeapPageTable Page) (addr : Nat) : Option Page × HeapPageTable Page :=
  t.get ((t.heapStart + t.heapOffset addr / pageSize * pageSize) % 2 ^ 64)

/-- `set`; a walk that fails leaves no entry to write. -/
def set (t : HeapPageTable Page) (page : Nat) (hp : Option Page) : Option (HeapPageTable Page) :=
  match t.walk page with
  | (none, _) => none
  | (some entry, t) => some { t with
      root := Function.update t.root entry.1
        ((t.root entry.1).map fun pt1 => Function.update pt1 entry.2 hp) }

/-! ## What a lookup reads -/

/-- The indices of a page number. -/
def entryOf (pageNumber : Nat) : Nat × Nat :=
  (pageNumber &&& ptLevelMask, pageNumber >>> bitsPerPtLevel &&& ptLevelMask)

variable {t t' : HeapPageTable Page} {start addr n m : Nat}
  {entries : Nat → Option Page}

theorem entryOf_eq (n : Nat) : entryOf n = (n % 64, n / 64 % 64) := by
  simp only [entryOf, ptLevelMask, bitsPerPtLevel, Nat.shiftRight_eq_div_pow,
    Nat.and_two_pow_sub_one_eq_mod]

/-- Two pages of the heap have different entries. -/
theorem entryOf_injective (lt : n < heapSize / pageSize) (lt' : m < heapSize / pageSize)
    (equal : entryOf n = entryOf m) : n = m := by
  simp only [heapSize, pageSize] at lt lt'
  simp only [entryOf_eq, Prod.mk.injEq] at equal
  omega

/-- The number after the last page has the entry of the first one. -/
theorem entryOf_heapSize : entryOf (heapSize / pageSize) = entryOf 0 := by
  decide

theorem walk_of_beyond (beyond : t.heapOffset addr / pageSize > heapSize / pageSize) :
    t.walk addr = (none, t) :=
  if_pos beyond

/-- The tables that a walk allocates are empty, so no entry changes. -/
theorem walk_of_le (le : t.heapOffset addr / pageSize ≤ heapSize / pageSize) :
    ∃ t', t.walk addr = (some (entryOf (t.heapOffset addr / pageSize)), t') ∧
      t'.heapStart = t.heapStart ∧ (∀ entry, t'.load entry = t.load entry) ∧
      (t'.root (entryOf (t.heapOffset addr / pageSize)).1).isSome = true := by
  refine ⟨_, if_neg (Nat.not_lt.mpr le), rfl, fun entry => ?_, ?_⟩
  · unfold load
    simp only
    by_cases same : entry.1 = t.heapOffset addr / pageSize &&& ptLevelMask
    · rw [same, Function.update_self]
      cases t.root (t.heapOffset addr / pageSize &&& ptLevelMask) with
      | none => rfl
      | some pt1 => rfl
    · rw [Function.update_of_ne same]
  · simp [entryOf]

theorem get_spec (t : HeapPageTable Page) (addr : Nat) :
    (t.get addr).1 = (if t.heapOffset addr / pageSize > heapSize / pageSize then none
      else t.load (entryOf (t.heapOffset addr / pageSize))) ∧
      (t.get addr).2.heapStart = t.heapStart ∧
      ∀ entry, (t.get addr).2.load entry = t.load entry := by
  unfold get
  by_cases beyond : t.heapOffset addr / pageSize > heapSize / pageSize
  · rw [walk_of_beyond beyond, if_pos beyond]
    exact ⟨rfl, rfl, fun _ => rfl⟩
  · rcases walk_of_le (Nat.not_lt.mp beyond) with ⟨t', walked, start_eq, loads, _⟩
    rw [walked, if_neg beyond]
    exact ⟨loads _, start_eq, loads⟩

/-- The page number of the page that `get_unaligned` looks up. -/
theorem heapOffset_aligned (small : t.heapStart < 2 ^ 64) :
    t.heapOffset ((t.heapStart + t.heapOffset addr / pageSize * pageSize) % 2 ^ 64) / pageSize =
      t.heapOffset addr / pageSize := by
  simp only [heapOffset, pageSize]
  omega

/-- `get_unaligned` is `get` at every address of the page. -/
theorem getUnaligned_spec (small : t.heapStart < 2 ^ 64) (addr : Nat) :
    (t.getUnaligned addr).1 = (t.get addr).1 ∧ (t.getUnaligned addr).2.heapStart = t.heapStart ∧
      ∀ entry, (t.getUnaligned addr).2.load entry = t.load entry := by
  unfold getUnaligned
  rcases get_spec t ((t.heapStart + t.heapOffset addr / pageSize * pageSize) % 2 ^ 64) with
    ⟨found, start_eq, loads⟩
  rw [heapOffset_aligned small] at found
  exact ⟨found.trans (get_spec t addr).1.symm, start_eq, loads⟩

/-- The address of a page of the heap. -/
def pageAt (t : HeapPageTable Page) (n : Nat) : Nat := t.heapStart + n * pageSize

theorem heapOffset_pageAt (fits : t.heapStart + heapSize ≤ 2 ^ 64) (lt : n < heapSize / pageSize) :
    t.heapOffset (t.pageAt n) / pageSize = n := by
  simp only [heapOffset, pageAt, pageSize, heapSize] at *
  omega

theorem set_of_walk {page : Nat} {entry : Nat × Nat} (walked : t.walk page = (some entry, t')) :
    t.set page hp = some { t' with
      root := Function.update t'.root entry.1
        ((t'.root entry.1).map fun pt1 => Function.update pt1 entry.2 hp) } := by
  unfold set
  rw [walked]

/-- `set` changes the entry of the page, and no other. -/
theorem set_spec (fits : t.heapStart + heapSize ≤ 2 ^ 64) (lt : n < heapSize / pageSize)
    (hp : Option Page) :
    ∃ t', t.set (t.pageAt n) hp = some t' ∧ t'.heapStart = t.heapStart ∧
      ∀ m < heapSize / pageSize, t'.load (entryOf m) =
        if m = n then hp else t.load (entryOf m) := by
  have number := heapOffset_pageAt fits lt
  rcases walk_of_le (number.le.trans (Nat.le_of_lt lt)) with
    ⟨t', walked, start_eq, loads, allocated⟩
  rw [number] at walked allocated
  obtain ⟨pt1, isTable⟩ := Option.isSome_iff_exists.mp allocated
  refine ⟨_, set_of_walk walked, start_eq, fun m m_lt => ?_⟩
  rw [← loads]
  unfold load
  simp only [isTable, Option.map_some]
  by_cases equal : m = n
  · subst m
    simp
  · rw [if_neg equal]
    by_cases row : (entryOf m).1 = (entryOf n).1
    · have column : (entryOf m).2 ≠ (entryOf n).2 :=
        fun same => equal (entryOf_injective m_lt lt (Prod.ext row same))
      rw [row, Function.update_self, isTable]
      exact Function.update_of_ne column _ _
    · rw [Function.update_of_ne row]

/-! ## Sequences of calls -/

/-- A call; `set` is called with a page of the heap, a lookup with any address. -/
inductive Call (Page : Type) where
  | set (n : Nat) (hp : Option Page)
  | get (page : Nat)
  | getUnaligned (addr : Nat)

/-- The table after a call. -/
def step (t : HeapPageTable Page) : Call Page → Option (HeapPageTable Page)
  | .set n hp => t.set (t.pageAt n) hp
  | .get page => some (t.get page).2
  | .getUnaligned addr => some (t.getUnaligned addr).2

def Call.InHeap : Call Page → Prop
  | .set n _ => n < heapSize / pageSize
  | _ => True

/-- What the table is for: the last entry that was set for a page. -/
def entriesAfter : List (Call Page) → (Nat → Option Page) → Nat → Option Page
  | [], entries => entries
  | .set n hp :: calls, entries => entriesAfter calls (Function.update entries n hp)
  | _ :: calls, entries => entriesAfter calls entries

/-- The table holds the entries of the pages of the heap. -/
structure Represents (t : HeapPageTable Page) (start : Nat) (entries : Nat → Option Page) :
    Prop where
  heapStart : t.heapStart = start
  load : ∀ n < heapSize / pageSize, t.load (entryOf n) = entries n

theorem represents_create (start : Nat) :
    (create start : HeapPageTable Page).Represents start fun _ => none where
  heapStart := rfl
  load := fun _ _ => rfl

theorem Represents.after_step (represents : t.Represents start entries)
    (fits : start + heapSize ≤ 2 ^ 64) {c : Call Page} (inHeap : c.InHeap) :
    ∃ t', t.step c = some t' ∧ t'.Represents start (entriesAfter [c] entries) := by
  obtain ⟨rfl, load⟩ := represents
  cases c with
  | set n hp =>
      rcases set_spec fits inHeap hp with ⟨t', called, start_eq, loads⟩
      refine ⟨t', called, start_eq, fun m lt => ?_⟩
      rw [loads m lt, load m lt, entriesAfter, entriesAfter, Function.update_apply]
  | get page =>
      rcases get_spec t page with ⟨_, start_eq, loads⟩
      exact ⟨_, rfl, start_eq, fun n lt => (loads _).trans (load n lt)⟩
  | getUnaligned addr =>
      have small : t.heapStart < 2 ^ 64 := by
        simp only [heapSize] at fits
        omega
      rcases getUnaligned_spec small addr with ⟨_, start_eq, loads⟩
      exact ⟨_, rfl, start_eq, fun n lt => (loads _).trans (load n lt)⟩

/-- Any calls from a table that represents its entries. -/
theorem Represents.after_calls {calls : List (Call Page)} (represents : t.Represents start entries)
    (fits : start + heapSize ≤ 2 ^ 64) (inHeap : ∀ c ∈ calls, c.InHeap) :
    ∃ t', calls.foldlM step t = some t' ∧ t'.Represents start (entriesAfter calls entries) := by
  induction calls generalizing t entries with
  | nil => exact ⟨t, rfl, represents⟩
  | cons c calls ih =>
      rcases represents.after_step fits (inHeap c List.mem_cons_self) with ⟨t', called, represents'⟩
      rcases ih represents' fun c member => inHeap c (List.mem_cons_of_mem _ member) with
        ⟨t'', rest, represents''⟩
      refine ⟨t'', ?_, ?_⟩
      · rw [List.foldlM_cons, called]
        exact rest
      · cases c <;> exact represents''

/-- The lookups at an address agree with the entries, and find nothing outside the heap. -/
structure LooksUp (t : HeapPageTable Page) (start : Nat) (entries : Nat → Option Page)
    (addr : Nat) : Prop where
  page : ∀ n < heapSize / pageSize, addr = start + n * pageSize → (t.get addr).1 = entries n
  inside : ∀ n < heapSize / pageSize, start + n * pageSize ≤ addr →
    addr < start + (n + 1) * pageSize → (t.getUnaligned addr).1 = entries n
  outside : addr < start ∨ start + heapSize ≤ addr →
    (t.get addr).1 = none ∧ (t.getUnaligned addr).1 = none

/-- The address is in the page that follows the heap. -/
def FollowsHeap (start addr : Nat) : Prop :=
  (addr + (2 ^ 64 - start)) % 2 ^ 64 / pageSize = heapSize / pageSize

/-- What `get` returns at an address, by the number of its page. -/
theorem Represents.get_eq (represents : t.Represents start entries) (addr : Nat) :
    (t.get addr).1 =
      if t.heapOffset addr / pageSize < heapSize / pageSize then
        entries (t.heapOffset addr / pageSize)
      else if t.heapOffset addr / pageSize = heapSize / pageSize then entries 0
      else none := by
  rw [(get_spec t addr).1]
  generalize t.heapOffset addr / pageSize = number
  by_cases inside : number < heapSize / pageSize
  · rw [if_neg (by omega), if_pos inside, represents.load number inside]
  · by_cases last : number = heapSize / pageSize
    · rw [if_neg (by omega), if_neg inside, if_pos last, last, entryOf_heapSize,
        represents.load 0 (by decide)]
    · rw [if_pos (by omega), if_neg inside, if_neg last]

/-- A lookup is right unless the address follows the heap and the first page has an entry. -/
theorem Represents.looksUp_iff (represents : t.Represents start entries)
    (fits : start + heapSize ≤ 2 ^ 64) (small : addr < 2 ^ 64) :
    t.LooksUp start entries addr ↔ (FollowsHeap start addr → entries 0 = none) := by
  obtain rfl := represents.heapStart
  have below : t.heapStart < 2 ^ 64 := by
    simp only [heapSize] at fits
    omega
  have unaligned := (getUnaligned_spec below addr).1
  have get_eq := represents.get_eq addr
  have follows : FollowsHeap t.heapStart addr ↔
      t.heapOffset addr / pageSize = heapSize / pageSize := Iff.rfl
  have isOutside : addr < t.heapStart ∨ t.heapStart + heapSize ≤ addr ↔
      heapSize / pageSize ≤ t.heapOffset addr / pageSize := by
    simp only [heapOffset, heapSize, pageSize] at *
    omega
  rw [follows]
  constructor
  · intro looksUp last
    have found := (looksUp.outside (isOutside.mpr (by omega))).1
    rwa [get_eq, if_neg (by omega), if_pos last] at found
  · intro first
    have outside : heapSize / pageSize ≤ t.heapOffset addr / pageSize →
        (t.get addr).1 = none := by
      intro beyond
      rw [get_eq, if_neg (by omega)]
      by_cases last : t.heapOffset addr / pageSize = heapSize / pageSize
      · rw [if_pos last, first last]
      · rw [if_neg last]
    have inside : ∀ n < heapSize / pageSize, t.heapStart + n * pageSize ≤ addr →
        addr < t.heapStart + (n + 1) * pageSize → (t.get addr).1 = entries n := by
      intro n lt lower upper
      have number : t.heapOffset addr / pageSize = n := by
        simp only [heapOffset, heapSize, pageSize] at *
        omega
      rw [get_eq, number, if_pos lt]
    refine ⟨fun n lt equal => inside n lt (by omega) ?_, fun n lt lower upper => ?_,
      fun beyond => ?_⟩
    · simp only [pageSize] at equal ⊢
      omega
    · rw [unaligned]
      exact inside n lt lower upper
    · rw [unaligned]
      exact ⟨outside (isOutside.mp beyond), outside (isOutside.mp beyond)⟩

/--
After any calls the lookups at an address are those of the map that was set, unless the
address follows the heap while the first page of the heap has an entry.
-/
theorem looksUp_iff_of_calls {calls : List (Call Page)} (fits : start + heapSize ≤ 2 ^ 64)
    (inHeap : ∀ c ∈ calls, c.InHeap) (small : addr < 2 ^ 64) :
    ∃ t, calls.foldlM step (create start) = some t ∧
      (t.LooksUp start (entriesAfter calls fun _ => none) addr ↔
        (FollowsHeap start addr → entriesAfter calls (fun _ => none) 0 = none)) := by
  rcases (represents_create start).after_calls fits inHeap with ⟨t, called, represents⟩
  exact ⟨t, called, represents.looksUp_iff fits small⟩

/-- Two pages in one table of the second level, and a lookup inside the second of them. -/
theorem looksUp_iff_twoPages :
    ∃ t, [Call.set 1 (some 7), .set 65 (some 8)].foldlM step (create (2 ^ 40)) = some t ∧
      (t.LooksUp (2 ^ 40) (entriesAfter [.set 1 (some 7), .set 65 (some 8)] fun _ => none)
          (2 ^ 40 + 65 * 2 ^ 21 + 8) ↔
        (FollowsHeap (2 ^ 40) (2 ^ 40 + 65 * 2 ^ 21 + 8) →
          entriesAfter [.set 1 (some 7), .set 65 (some 8)] (fun _ => none) 0 = none)) := by
  refine looksUp_iff_of_calls (by decide) ?_ (by decide)
  intro c member
  simp only [List.mem_cons, List.not_mem_nil, or_false] at member
  rcases member with rfl | rfl
  · exact (by decide : 1 < heapSize / pageSize)
  · exact (by decide : 65 < heapSize / pageSize)

/-- The address behind the heap has the entry of the first page. -/
theorem not_looksUp_heapEnd :
    ∃ t, [Call.set 0 (some 7)].foldlM step (create (2 ^ 40)) = some t ∧
      (t.get (2 ^ 40 + heapSize)).1 = some 7 ∧
      ¬ t.LooksUp (2 ^ 40) (entriesAfter [.set 0 (some 7)] fun _ => none) (2 ^ 40 + heapSize) := by
  have inHeap : ∀ c ∈ [Call.set 0 (some 7)], c.InHeap := by
    intro c member
    rw [List.mem_singleton] at member
    subst c
    exact (by decide : 0 < heapSize / pageSize)
  rcases (represents_create (2 ^ 40)).after_calls (by decide) inHeap with ⟨t, called, represents⟩
  have found : (t.get (2 ^ 40 + heapSize)).1 = some 7 := by
    have number : t.heapOffset (2 ^ 40 + heapSize) / pageSize = heapSize / pageSize := by
      rw [heapOffset, represents.heapStart]
      decide
    rw [represents.get_eq, number, if_neg (by decide), if_pos rfl]
    rfl
  refine ⟨t, called, found, fun looksUp => ?_⟩
  have nothing := (looksUp.outside (.inr (Nat.le_refl _))).1
  rw [found] at nothing
  cases nothing

end HeapPageTable

end Alaska
