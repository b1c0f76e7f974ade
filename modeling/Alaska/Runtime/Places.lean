import Alaska.Runtime.HeapPage

/-!
# Places of the heap

A place is a page number with the index of an object in that page. The invariants of the
whole runtime speak about places only. `Evolves` says how an operation of the heap treats
the places it does not touch, and every operation on one page is an instance of it.
-/

namespace Alaska

open Memory

/-- A page number and an index in the page. -/
structure Place where
  page : Nat
  index : Nat
  deriving DecidableEq

namespace Heap

variable {h h' h'' : Heap} {bytes bytes' : Bytes} {place other : Place} {m m' n index : Nat}

/-- The mapping that a place names. -/
def named (h : Heap) (place : Place) : Option Nat :=
  if place.page < h.allocCount then (h.pages place.page).named place.index else none

def addr (h : Heap) (place : Place) : Nat := (h.pages place.page).addr place.index

def extent (h : Heap) (place : Place) : Nat := (h.pages place.page).extent place.index

def room (h : Heap) (place : Place) : Nat := (h.pages place.page).room place.index

theorem named_eq_some :
    h.named place = some m ↔
      place.page < h.allocCount ∧ (h.pages place.page).named place.index = some m := by
  simp only [named]
  split
  · next lt => simp [lt]
  · next ge => simp [ge]

theorem room_le (h : Heap) (place : Place) : h.room place ≤ h.extent place :=
  HeapPage.room_le

namespace Invariant

/-- A place lies inside its page. -/
theorem inside_page (invariant : h.Invariant bytes) (isNamed : h.named place = some m) :
    h.getPage place.page ≤ h.addr place ∧
      h.addr place + h.extent place ≤ h.getPage place.page + pageSize := by
  rcases named_eq_some.mp isNamed with ⟨lt, isNamed⟩
  have inside := (invariant.valid _ lt).inside isNamed
  rwa [invariant.memory _ lt] at inside

/-- A place lies inside the heap region. -/
theorem inside (invariant : h.Invariant bytes) (isNamed : h.named place = some m) :
    h.start ≤ h.addr place ∧ h.addr place + h.extent place ≤ h.start + heapSize := by
  have page := invariant.inside_page isNamed
  have region := invariant.getPage_le (named_eq_some.mp isNamed).1
  exact ⟨region.1.trans page.1, page.2.trans region.2⟩

theorem extent_pos (invariant : h.Invariant bytes) (isNamed : h.named place = some m) :
    0 < h.extent place := by
  rcases named_eq_some.mp isNamed with ⟨lt, isNamed⟩
  exact (invariant.valid _ lt).extent_pos isNamed

theorem addr_lt (invariant : h.Invariant bytes) (isNamed : h.named place = some m) :
    h.addr place < 2 ^ 47 := by
  have inside := invariant.inside isNamed
  have := invariant.extent_pos isNamed
  have := invariant.placed.below
  omega

/-- Different places do not overlap. -/
theorem apart (invariant : h.Invariant bytes) (isNamed : h.named place = some m)
    (otherNamed : h.named other = some m') (ne : place ≠ other) :
    h.addr place + h.extent place ≤ h.addr other ∨
      h.addr other + h.extent other ≤ h.addr place := by
  by_cases samePage : place.page = other.page
  · rcases place with ⟨n, index⟩
    rcases other with ⟨n', index'⟩
    obtain rfl : n = n' := samePage
    have indices : index ≠ index' := fun equal => ne (congrArg (Place.mk n) equal)
    rcases named_eq_some.mp isNamed with ⟨lt, isNamed⟩
    exact (invariant.valid _ lt).apart isNamed (named_eq_some.mp otherNamed).2 indices
  · have := invariant.inside_page isNamed
    have := invariant.inside_page otherNamed
    have := getPage_apart (h := h) samePage
    omega

/-- The address determines the place. -/
theorem place_ext (invariant : h.Invariant bytes) (isNamed : h.named place = some m)
    (otherNamed : h.named other = some m') (equal : h.addr place = h.addr other) :
    place = other := by
  by_contra ne
  have := invariant.apart isNamed otherNamed ne
  have := invariant.extent_pos isNamed
  have := invariant.extent_pos otherNamed
  omega

/-- The page of a place is found by the address. -/
theorem getUnaligned_addr (invariant : h.Invariant bytes) (isNamed : h.named place = some m) :
    h.getUnaligned (h.addr place) = some place.page := by
  have page := invariant.inside_page isNamed
  have := invariant.extent_pos isNamed
  exact invariant.getUnaligned_eq (named_eq_some.mp isNamed).1 page.1 (by omega)

end Invariant

/-- An address inside a place that names a mapping. -/
def Occupied (h : Heap) (address : Nat) : Prop :=
  ∃ place m, h.named place = some m ∧ h.addr place ≤ address ∧
    address < h.addr place + h.extent place

/-! ## Evolution -/

/-- From `h` to `h'` only places in `touched` change. -/
structure Evolves (h h' : Heap) (touched : Place → Prop) : Prop where
  start : h'.start = h.start
  count_le : h.allocCount ≤ h'.allocCount
  sized : ∀ n < h.allocCount, ∀ p, h.pages n = .sized p →
    ∃ p', h'.pages n = .sized p' ∧ p'.sizeClass = p.sizeClass
  locality : ∀ n < h.allocCount, ∀ p, h.pages n = .locality p → ∃ p', h'.pages n = .locality p'
  named : ∀ place, ¬ touched place → h'.named place = h.named place
  same : ∀ place m, ¬ touched place → h.named place = some m →
    h'.addr place = h.addr place ∧ h'.extent place = h.extent place ∧
      h'.room place = h.room place

theorem Extends.evolves (extension : Extends h h') : Evolves h h' fun _ => False where
  start := extension.start
  count_le := extension.count_le
  sized := by
    intro n lt p isSized
    exact ⟨p, (extension.pages n lt).trans isSized, rfl⟩
  locality := by
    intro n lt p isLocality
    exact ⟨p, (extension.pages n lt).trans isLocality⟩
  named := by
    intro place _
    simp only [Heap.named]
    by_cases old : place.page < h.allocCount
    · rw [if_pos old, if_pos (Nat.lt_of_lt_of_le old extension.count_le),
        extension.pages _ old]
    · rw [if_neg old]
      split
      · next lt => exact extension.fresh _ lt (Nat.not_lt.mp old) _
      · rfl
  same := by
    intro place m _ isNamed
    have page := extension.pages _ (named_eq_some.mp isNamed).1
    simp only [addr, extent, room, page]
    exact ⟨trivial, trivial, trivial⟩

theorem setPage_pages_self {page : HeapPage} : (h.setPage n page).pages n = page :=
  Function.update_self _ _ _

theorem setPage_pages_of_ne {page : HeapPage} (ne : m ≠ n) :
    (h.setPage n page).pages m = h.pages m :=
  Function.update_of_ne ne _ _

theorem named_setPage {page : HeapPage} (lt : n < h.allocCount) :
    (h.setPage n page).named ⟨n, index⟩ = page.named index := by
  rw [Heap.named, setPage_pages_self]
  exact if_pos lt

theorem named_setPage_of_ne {page : HeapPage} (ne : place.page ≠ n) :
    (h.setPage n page).named place = h.named place := by
  rw [Heap.named, setPage_pages_of_ne ne]
  rfl

/-- Replacing a whole page by one of its kind. -/
theorem evolves_setPage {page : HeapPage}
    (sized : ∀ p, h.pages n = .sized p → ∃ p', page = .sized p' ∧ p'.sizeClass = p.sizeClass)
    (locality : ∀ p, h.pages n = .locality p → ∃ p', page = .locality p') :
    Evolves h (h.setPage n page) fun place => place.page = n where
  start := rfl
  count_le := Nat.le_refl _
  sized := by
    intro other _ p isSized
    by_cases equal : other = n
    · subst equal
      rw [setPage_pages_self]
      exact sized p isSized
    · rw [setPage_pages_of_ne equal]
      exact ⟨p, isSized, rfl⟩
  locality := by
    intro other _ p isLocality
    by_cases equal : other = n
    · subst equal
      rw [setPage_pages_self]
      exact locality p isLocality
    · rw [setPage_pages_of_ne equal]
      exact ⟨p, isLocality⟩
  named := fun _ untouched => named_setPage_of_ne untouched
  same := by
    intro place m untouched _
    simp only [addr, extent, room]
    rw [setPage_pages_of_ne untouched]
    exact ⟨rfl, rfl, rfl⟩

/-- A change of one place of one page. -/
theorem evolves_of_changed {page : HeapPage} (lt : n < h.allocCount)
    (changed : HeapPage.Changed (h.pages n) page index) :
    Evolves h (h.setPage n page) fun place => place = ⟨n, index⟩ := by
  have whole := evolves_setPage changed.sized changed.locality
  refine ⟨whole.start, whole.count_le, whole.sized, whole.locality, ?_, ?_⟩
  · rintro ⟨other, index'⟩ untouched
    by_cases equal : other = n
    · subst equal
      rw [named_setPage lt, Heap.named, if_pos lt]
      exact changed.others index' fun same => untouched (by rw [same])
    · exact whole.named _ equal
  · rintro ⟨other, index'⟩ m untouched isNamed
    by_cases equal : other = n
    · subst equal
      simp only [addr, extent, room]
      rw [setPage_pages_self]
      exact changed.same index' m (fun same => untouched (by rw [same]))
        (named_eq_some.mp isNamed).2
    · exact whole.same _ m equal isNamed

namespace Invariant

/-- The heap survives writes to its objects and writes elsewhere. -/
theorem setBytes (invariant : h.Invariant bytes)
    (same : ∀ address, bytes' address = bytes address ∨ h.Occupied address ∨
      address < h.start ∨ h.start + heapSize ≤ address) : h.Invariant bytes' where
  placed := invariant.placed
  count_le := invariant.count_le
  entry := invariant.entry
  memory := invariant.memory
  noEntry := invariant.noEntry
  classes := invariant.classes
  localities := invariant.localities
  valid := by
    intro n lt
    have region := invariant.getPage_le lt
    refine (invariant.valid n lt).congr fun address lower upper => ?_
    rw [invariant.memory n lt] at lower upper
    rcases same address with equal | ⟨place, m, isNamed, left, right⟩ | below | above
    · exact Or.inl equal
    · -- the place is on this page, since pages do not overlap
      have page := invariant.inside_page isNamed
      rcases named_eq_some.mp isNamed with ⟨_, pageNamed⟩
      have samePage : place.page = n := by
        by_contra ne
        have := getPage_apart (h := h) ne
        omega
      subst samePage
      exact Or.inr ⟨place.index, m, pageNamed, left, right⟩
    · omega
    · omega

/-- The heap after a change of one place, with writes only on the page of the place. -/
theorem changed (invariant : h.Invariant bytes) {page : HeapPage}
    (changed : HeapPage.Changed (h.pages n) page index) (valid : page.Valid bytes')
    (outside : ∀ address, address < h.getPage n ∨ h.getPage n + pageSize ≤ address →
      bytes' address = bytes address) : (h.setPage n page).Invariant bytes' := by
  refine invariant.setPage valid changed.memory changed.sized changed.locality ?_
  intro other other_lt ne
  refine (invariant.valid other other_lt).congr fun address lower upper => Or.inl ?_
  rw [invariant.memory other other_lt] at lower upper
  have := getPage_apart (h := h) ne
  exact outside address (by omega)

/-- An allocation on page `n`. -/
theorem allocated (invariant : h.Invariant bytes) {page : HeapPage} (lt : n < h.allocCount)
    (spec : HeapPage.Allocated (h.pages n) bytes page bytes' index m) :
    (h.setPage n page).Invariant bytes' ∧
      Evolves h (h.setPage n page) (fun place => place = ⟨n, index⟩) ∧
      h.named ⟨n, index⟩ = none ∧ (h.setPage n page).named ⟨n, index⟩ = some m ∧
      ∀ address, h.Occupied address ∨ address < h.start ∨ h.start + heapSize ≤ address →
        bytes' address = bytes address := by
  have outside : ∀ address, address < h.getPage n ∨ h.getPage n + pageSize ≤ address →
      bytes' address = bytes address := by
    intro address
    rw [← invariant.memory n lt]
    exact spec.outside address
  refine ⟨invariant.changed spec.toChanged spec.valid outside, evolves_of_changed lt spec.toChanged,
    ?_, ?_, ?_⟩
  · rw [Heap.named, if_pos lt]
    exact spec.before
  · rw [named_setPage lt]
    exact spec.after
  · have region := invariant.getPage_le lt
    rintro address (⟨place, m', isNamed, left, right⟩ | apart)
    · by_cases equal : place.page = n
      · subst equal
        exact spec.occupied address
          ⟨place.index, m', (named_eq_some.mp isNamed).2, left, right⟩
      · have page := invariant.inside_page isNamed
        have := getPage_apart (h := h) equal
        exact outside address (by omega)
    · exact outside address (by omega)

/-- A release on page `n`. -/
theorem released (invariant : h.Invariant bytes) {page : HeapPage} (lt : n < h.allocCount)
    (spec : HeapPage.Released (h.pages n) bytes page bytes' index m) :
    (h.setPage n page).Invariant bytes' ∧
      Evolves h (h.setPage n page) (fun place => place = ⟨n, index⟩) ∧
      (h.setPage n page).named ⟨n, index⟩ = none ∧
      ∀ address, address < h.addr ⟨n, index⟩ ∨
        h.addr ⟨n, index⟩ + h.extent ⟨n, index⟩ ≤ address → bytes' address = bytes address := by
  have isNamed : h.named ⟨n, index⟩ = some m := named_eq_some.mpr ⟨lt, spec.before⟩
  have page := invariant.inside_page isNamed
  simp only at page
  refine ⟨invariant.changed spec.toChanged spec.valid ?_, evolves_of_changed lt spec.toChanged, ?_,
    spec.elsewhere⟩
  · intro address apart
    have : h.addr ⟨n, index⟩ = (h.pages n).addr index := rfl
    have : h.extent ⟨n, index⟩ = (h.pages n).extent index := rfl
    exact spec.elsewhere address (by omega)
  · rw [named_setPage lt]
    exact spec.after

end Invariant

end Heap

end Alaska
