import Alaska.Lib.Loop
import Alaska.Runtime.LocalityPage

/-!
# Compaction of locality pages

`LocalityPage::compact` scans the records once. A free record that is followed by the record
of an object that is not pinned changes places with it, and the object slides down. Then the
free records at the end are pruned, until a record of an object is found; behind the first
record of the page there is none to stop at.
-/

namespace Alaska

open Memory Loop

namespace LocalityPage

/-! ## One pass -/

/-- `get_md(index)`, when that is a record of the page. -/
def record (p : LocalityPage) (index : Nat) : Option Metadata :=
  if index < p.numAllocated then some (p.metadata index) else none

/-- The local variables of `compact`, the page and the store. -/
structure Sliding where
  index : Nat
  moved : Nat
  page : LocalityPage
  store : Store

/-- Slides the object of record `index + 1` down over the free record `index`. -/
def slideObject (p : LocalityPage) (s : Store) (index : Nat) (l r : Metadata) :
    LocalityPage × Store :=
  let dst := l.getData s.mappings
  let src := r.getData s.mappings
  let newFreeData := dst + r.size
  let free : Metadata := { word := newFreeData, allocated := false, size := l.size }
  let object : Metadata := { word := r.word, allocated := true, size := r.size }
  ({ p with
      metadata := Function.update (Function.update p.metadata (index + 1) free) index object },
    { s with bytes := s.bytes.memmove dst src r.size }.setPointer r.word dst)

/-- `contains`. -/
def contains (p : LocalityPage) (ptr : Nat) : Bool := p.data ≤ ptr ∧ ptr < p.data + pageSize

/--
The assertions of a slide; those on the fields that the slide has just set hold. A mapping
that is null has been dereferenced before it is asserted against.
-/
def slideAsserts (p : LocalityPage) (s : Store) (l r : Metadata) : Bool :=
  let dst := l.getData s.mappings
  let src := r.getData s.mappings
  decide (l.size = r.size → src = dst + r.size) && p.contains src && p.contains dst &&
    decide (l.word = dst) && decide (((s.mappings r.word).setPointer dst).getPointer = dst)

/-- The body of the scan. -/
def slideStep (c : Sliding) : Option Sliding := do
  let l ← c.page.record c.index
  let r ← c.page.record (c.index + 1)
  if l.allocated then
    some { c with index := c.index + 1 }
  else if !r.allocated || (c.store.mappings r.word).isPinned then
    some { c with index := c.index + 1 }
  else if c.page.slideAsserts c.store l r then
    let slid := c.page.slideObject c.store c.index l r
    some { index := c.index + 1, moved := c.moved + 1, page := slid.1, store := slid.2 }
  else
    none

/-- Neither of the two records is the bump record. -/
def scanning (c : Sliding) : Bool :=
  !(decide (c.index = c.page.numAllocated) || decide (c.index + 1 = c.page.numAllocated))

def scan (p : LocalityPage) (s : Store) : Option Sliding :=
  whileOption scanning slideStep p.numAllocated { index := 0, moved := 0, page := p, store := s }

/-- The last loop of `compact`: drops the free records behind the last object. -/
def prune : Nat → LocalityPage → Option LocalityPage
  | 0, _ => none  -- `md_bump_next[1]` is no record of the page
  | count + 1, p =>
      if (p.metadata count).allocated then
        some p
      else
        prune count
          { p with
            numAllocated := count
            bytesFreed := p.bytesFreed - (p.metadata count).size }

/--
`compact`: the number of moved objects, the page and the store; `none` when an assertion
fails, or when it inspects a record outside of the page.
-/
def compact (p : LocalityPage) (s : Store) : Option (Nat × LocalityPage × Store) := do
  let c ← p.scan s
  let pruned ← prune c.page.numAllocated c.page
  let pruneCount := c.page.numAllocated - pruned.numAllocated
  if pruneCount > 0 then
    let last := pruned.numAllocated - 1
    let bump := pruned.getPtr c.store.mappings last + (pruned.metadata last).size
    some (c.moved, { pruned with dataBumpNext := bump }, c.store)
  else
    some (c.moved, pruned, c.store)

/-- `while (lp->compact() != 0)`, for a number of passes. -/
def compactAll : Nat → LocalityPage → Store → Option (LocalityPage × Store)
  | 0, _, _ => none
  | passes + 1, p, s => do
      let (moved, p, s) ← p.compact s
      if moved = 0 then some (p, s) else compactAll passes p s

/-! ## The steps of the scan -/

/-- The page holds an object. -/
def HasLive (p : LocalityPage) : Prop :=
  ∃ index < p.numAllocated, (p.metadata index).allocated = true

/-- The scan slides the object of record `index + 1`. -/
def Movable (p : LocalityPage) (s : Store) (index : Nat) : Prop :=
  (p.metadata index).allocated = false ∧ (p.metadata (index + 1)).allocated = true ∧
    (s.mappings (p.metadata (index + 1)).word).isPinned = false

/-- The assertions of the slide at the index of the scan. -/
def Sliding.Asserts (c : Sliding) : Prop :=
  c.page.slideAsserts c.store (c.page.metadata c.index) (c.page.metadata (c.index + 1)) = true

/-- The scan after the slide at its index. -/
def Sliding.slid (c : Sliding) : Sliding where
  index := c.index + 1
  moved := c.moved + 1
  page := (c.page.slideObject c.store c.index (c.page.metadata c.index)
    (c.page.metadata (c.index + 1))).1
  store := (c.page.slideObject c.store c.index (c.page.metadata c.index)
    (c.page.metadata (c.index + 1))).2

section Scan

variable {p : LocalityPage} {s : Store} {c : Sliding} {index other : Nat}

theorem slideStep_of_movable (lt : c.index + 1 < c.page.numAllocated)
    (movable : c.page.Movable c.store c.index) (asserts : c.Asserts) :
    slideStep c = some c.slid := by
  rw [Sliding.Asserts] at asserts
  rcases movable with ⟨free, live, unpinned⟩
  have left : c.page.record c.index = some (c.page.metadata c.index) :=
    if_pos (Nat.lt_of_succ_lt lt)
  have right : c.page.record (c.index + 1) = some (c.page.metadata (c.index + 1)) := if_pos lt
  simp [slideStep, left, right, free, live, unpinned, asserts, Sliding.slid]

theorem slideStep_of_not_movable (lt : c.index + 1 < c.page.numAllocated)
    (stays : ¬ c.page.Movable c.store c.index) :
    slideStep c = some { c with index := c.index + 1 } := by
  have left : c.page.record c.index = some (c.page.metadata c.index) :=
    if_pos (Nat.lt_of_succ_lt lt)
  have right : c.page.record (c.index + 1) = some (c.page.metadata (c.index + 1)) := if_pos lt
  simp only [slideStep, left, right, Option.bind_eq_bind, Option.bind_some]
  split
  · rfl
  · next free =>
      split
      · rfl
      · next live =>
          refine absurd ⟨by simpa using free, ?_⟩ stays
          simpa [not_or] using live

/-- A property of the state that both outcomes of a step keep is kept by the scan. -/
theorem scan_ends (property : Sliding → Prop)
    (start : property { index := 0, moved := 0, page := p, store := s })
    (slides : ∀ c, property c → c.index + 1 < c.page.numAllocated →
      c.page.Movable c.store c.index → c.Asserts ∧ property c.slid)
    (skips : ∀ c, property c → c.index + 1 < c.page.numAllocated →
      ¬ c.page.Movable c.store c.index → property { c with index := c.index + 1 }) :
    ∃ c, p.scan s = some c ∧ property c ∧ c.page.numAllocated = p.numAllocated ∧
      c.page.numAllocated ≤ c.index + 1 := by
  let invariant : Sliding → Prop := fun c =>
    property c ∧ c.page.numAllocated = p.numAllocated ∧
      (c.index < p.numAllocated ∨ p.numAllocated = 0 ∧ c.index = 0)
  have started : invariant { index := 0, moved := 0, page := p, store := s } :=
    ⟨start, rfl, (Nat.eq_zero_or_pos p.numAllocated).elim (fun none => .inr ⟨none, rfl⟩) .inl⟩
  have progress : ∀ c, invariant c → scanning c = true → ∃ c', slideStep c = some c' ∧
      invariant c' ∧ p.numAllocated - c'.index < p.numAllocated - c.index := by
    rintro c ⟨holds, count, within⟩ goes
    have lt : c.index + 1 < c.page.numAllocated := by
      simp only [scanning, Bool.not_eq_true', Bool.or_eq_false_iff, decide_eq_false_iff_not] at goes
      omega
    by_cases movable : c.page.Movable c.store c.index
    · rcases slides c holds lt movable with ⟨asserts, after⟩
      refine ⟨_, slideStep_of_movable lt movable asserts, ⟨after, count, ?_⟩, ?_⟩
      · simp only [Sliding.slid]
        omega
      · simp only [Sliding.slid]
        omega
    · refine ⟨_, slideStep_of_not_movable lt movable, ⟨skips c holds lt movable, count, ?_⟩, ?_⟩
      · simp only
        omega
      · simp only
        omega
  rcases whileOption_ends (fun c => p.numAllocated - c.index) progress started
    (Nat.sub_le p.numAllocated 0) with ⟨c, result, ⟨holds, count, within⟩, stops⟩
  refine ⟨c, result, holds, count, ?_⟩
  simp only [scanning, Bool.not_eq_false', Bool.or_eq_true, decide_eq_true_eq] at stops
  omega

theorem slid_left (c : Sliding) :
    c.slid.page.metadata c.index = { c.page.metadata (c.index + 1) with allocated := true } := by
  simp [Sliding.slid, slideObject]

theorem slid_right (c : Sliding) :
    c.slid.page.metadata (c.index + 1) =
      { word := (c.page.metadata c.index).getData c.store.mappings +
          (c.page.metadata (c.index + 1)).size
        allocated := false
        size := (c.page.metadata c.index).size } := by
  simp [Sliding.slid, slideObject]

theorem slid_of_ne (left : other ≠ c.index) (right : other ≠ c.index + 1) :
    c.slid.page.metadata other = c.page.metadata other := by
  simp [Sliding.slid, slideObject, left, right]

/-- A slide takes a record of an object from one index to the next. -/
theorem slid_hasLive (lt : c.index + 1 < c.page.numAllocated)
    (movable : c.page.Movable c.store c.index) : c.slid.page.HasLive ∧ c.page.HasLive := by
  refine ⟨⟨c.index, Nat.lt_of_succ_lt lt, ?_⟩, ⟨c.index + 1, lt, movable.2.1⟩⟩
  rw [slid_left]

theorem prune_isSome (count : Nat) (p : LocalityPage) :
    (prune count p).isSome = true ↔
      ∃ index < count, (p.metadata index).allocated = true := by
  induction count generalizing p with
  | zero => simp [prune]
  | succ count ih =>
      rw [prune]
      split
      · next live => exact iff_of_true rfl ⟨count, Nat.lt_succ_self count, live⟩
      · next free =>
          rw [ih]
          constructor
          · rintro ⟨index, lt, live⟩
            exact ⟨index, Nat.lt_succ_of_lt lt, live⟩
          · rintro ⟨index, lt, live⟩
            rcases Nat.lt_succ_iff_lt_or_eq.mp lt with before | rfl
            · exact ⟨index, before, live⟩
            · exact absurd live free

end Scan

end LocalityPage

end Alaska
