import Alaska.Lib.Loop
import Alaska.Runtime.SizedPage
import Mathlib.Logic.Equiv.Basic
import Mathlib.Data.List.Perm.Basic

/-!
# Compaction and jumbling of sized pages

`SizedPage::compact` and `SizedPage::jumble` move objects between the slots of one page.
Both are loops over two fingers, and both are summarised by `Relocated`: the headers are
permuted, every object takes its bytes along, and its mapping follows it unless it is
pinned, in which case it stays where it is.

Compaction also rebuilds the free list and the bump pointer. `Accounts` says which free
slots the rebuilt allocator covers: all of them, except the slot on which the fingers meet.
-/

namespace Alaska

open Memory Loop

namespace SizedPage

/-! ## The two loops -/

/-- The local variables of `compact`, the page and the store. -/
structure Compaction where
  left : Nat
  right : Nat
  lastObject : Option Nat
  movedObjects : Nat
  page : SizedPage
  store : Store

/-- Frees slot `index` on the local list. -/
def releaseSlot (p : SizedPage) (s : Store) (index : Nat) : SizedPage × Store :=
  ({ p with allocator := (p.allocator.releaseLocal s.bytes (p.indToObject index)).1 },
    { s with bytes := (p.allocator.releaseLocal s.bytes (p.indToObject index)).2 })

/-- Moves the object of slot `source` to slot `target` and poisons the old location. -/
def moveObject (p : SizedPage) (s : Store) (source target : Nat) : SizedPage × Store :=
  let objectToMove := p.indToObject source
  let freeSlot := p.indToObject target
  let moved := Bytes.memmove s.bytes freeSlot objectToMove p.objectSize
  let poisoned := Bytes.memset moved objectToMove 0xF0 p.objectSize
  let s := { s with bytes := poisoned }.setPointer (p.headers source).getMapping freeSlot
  let p := p.setHeader target (p.headers source)
  (p.setHeader source (((p.headers source).setMapping 0).setSizeSlack 0), s)

/-- The body of the loop of `compact`. -/
def compactStep (c : Compaction) : Compaction :=
  if (c.page.headers c.left).isFree = false then
    { c with left := c.left + 1 }
  else if (c.page.headers c.right).isFree then
    if c.lastObject.isSome then
      let released := c.page.releaseSlot c.store c.right
      { c with page := released.1, store := released.2, right := c.right - 1 }
    else
      { c with right := c.right - 1 }
  else if (c.store.mappings (c.page.headers c.right).getMapping).isPinned then
    { c with lastObject := some (c.lastObject.getD c.right), right := c.right - 1 }
  else
    let moved := c.page.moveObject c.store c.right c.left
    { c with page := moved.1, store := moved.2, movedObjects := c.movedObjects + 1 }

/-- The loop of `compact`; the fingers meet within `2 * capacity` steps. -/
def compactLoop (p : SizedPage) (s : Store) : Compaction :=
  whileLoop (fun c => decide (c.right > c.left)) compactStep (2 * p.capacity)
    { left := 0
      right := p.capacity - 1
      lastObject := none
      movedObjects := 0
      page := { p with allocator := p.allocator.resetFreeList }
      store := s }

/-- `compact`: the number of moved objects, the page and the store. -/
def compact (p : SizedPage) (s : Store) : Nat × SizedPage × Store :=
  if p.liveObjects = p.capacity then
    (0, p, s)
  else
    let c := p.compactLoop s
    let afterHeap := c.page.indToObject (c.lastObject.getD c.right + 1)
    (c.movedObjects,
      { c.page with allocator := c.page.allocator.resetBumpAllocator afterHeap }, c.store)

/-- The local variables of `jumble`, the page and the store. -/
structure Jumbling where
  left : Nat
  right : Nat
  swapped : Nat
  page : SizedPage
  store : Store

/-- Swaps the objects of two slots through a buffer on the stack. -/
def swapObjects (p : SizedPage) (s : Store) (left right : Nat) : SizedPage × Store :=
  let lo := p.headers left
  let ro := p.headers right
  let leftPtr := p.indToObject left
  let rightPtr := p.indToObject right
  let buf := fun offset => s.bytes (leftPtr + offset)
  let copied := Bytes.memmove s.bytes leftPtr rightPtr p.objectSize
  let swapped := Bytes.write copied rightPtr buf p.objectSize
  let s := { s with bytes := swapped }.setPointer ro.getMapping leftPtr
  let s := s.setPointer lo.getMapping rightPtr
  let p := p.setHeader right ((ro.setMapping lo.getMapping).setSizeSlack lo.sizeSlack)
  (p.setHeader left ((lo.setMapping ro.getMapping).setSizeSlack ro.sizeSlack), s)

/-- The null or pinned test of `jumble`. -/
def stuck (p : SizedPage) (s : Store) (index : Nat) : Bool :=
  (p.headers index).isFree || (s.mappings (p.headers index).getMapping).isPinned

def jumbleStep (j : Jumbling) : Jumbling :=
  if j.page.stuck j.store j.right then
    { j with right := j.right - 1 }
  else if j.page.stuck j.store j.left then
    { j with left := j.left + 1 }
  else
    let swapped := j.page.swapObjects j.store j.left j.right
    { left := j.left + 1
      right := j.right - 1
      swapped := j.swapped + 1
      page := swapped.1
      store := swapped.2 }

/-- The loop of `jumble`; every step moves a finger. -/
def jumbleLoop (p : SizedPage) (s : Store) : Jumbling :=
  whileLoop (fun j => decide (j.right > j.left)) jumbleStep p.capacity
    { left := 0, right := p.capacity - 1, swapped := 0, page := p, store := s }

/-- `jumble`: the number of swaps, the page and the store. -/
def jumble (p : SizedPage) (s : Store) : Nat × SizedPage × Store :=
  ((p.jumbleLoop s).swapped, (p.jumbleLoop s).page, (p.jumbleLoop s).store)

/-! ## Relocation -/

/-- No two headers name the same mapping. -/
def Distinct (p : SizedPage) : Prop :=
  ∀ index other m, index < p.capacity → other < p.capacity →
    (p.headers index).named = some m → (p.headers other).named = some m → index = other

/--
The objects of page `p` were moved between its slots: the object now in slot `index`
was in slot `slots index`.
-/
structure Relocated (p : SizedPage) (s : Store) (p' : SizedPage) (s' : Store)
    (slots : Equiv.Perm Nat) : Prop where
  same : SameLayout p p'
  outside : ∀ index, p.capacity ≤ index → slots index = index
  headers : ∀ index < p.capacity,
    (p'.headers index).isFree = false ∨ (p.headers (slots index)).isFree = false →
      p'.headers index = p.headers (slots index)
  bytes : ∀ index < p.capacity, (p'.headers index).isFree = false → ∀ offset < p.objectSize,
    s'.bytes (p.indToObject index + offset) = s.bytes (p.indToObject (slots index) + offset)
  words : ∀ index < p.capacity, ∀ m, (p'.headers index).named = some m →
    s'.mappings m = s.mappings m ∧ slots index = index ∨
      (s.mappings m).isPinned = false ∧
        s'.mappings m = (s.mappings m).setPointer (p.indToObject index)
  otherWords : ∀ m, (∀ index < p.capacity, (p'.headers index).named ≠ some m) →
    s'.mappings m = s.mappings m
  otherBytes : ∀ address, (∀ index < p.capacity, address < p.indToObject index ∨
    p.indToObject index + p.objectSize ≤ address) → s'.bytes address = s.bytes address

/-- Every mapping named by a header points to the slot of the header. -/
def Backed (p : SizedPage) (mappings : Mappings) : Prop :=
  ∀ index < p.capacity, ∀ m, (p.headers index).named = some m →
    (mappings m).getPointer = p.indToObject index

theorem Backed.distinct {p : SizedPage} {mappings : Mappings} (backed : p.Backed mappings)
    (layout : p.Layout) : p.Distinct := by
  intro index other m index_lt other_lt left right
  exact layout.indToObject_injective
    ((backed index index_lt m left).symm.trans (backed other other_lt m right))

namespace Relocated

variable {p p' p'' : SizedPage} {s s' s'' : Store} {slots slots' : Equiv.Perm Nat}

theorem refl (p : SizedPage) (s : Store) : Relocated p s p s (Equiv.refl Nat) where
  same := SameLayout.refl p
  outside := fun _ _ => rfl
  headers := fun _ _ _ => rfl
  bytes := fun _ _ _ _ _ => rfl
  words := fun _ _ _ _ => Or.inl ⟨rfl, rfl⟩
  otherWords := fun _ _ => rfl
  otherBytes := fun _ _ => rfl

theorem slots_lt (relocated : Relocated p s p' s' slots) {index : Nat} (lt : index < p.capacity) :
    slots index < p.capacity := by
  by_contra ge
  have fixed := relocated.outside (slots index) (by omega)
  have := slots.injective fixed
  omega

theorem symm_lt (relocated : Relocated p s p' s' slots) {index : Nat} (lt : index < p.capacity) :
    slots.symm index < p.capacity := by
  by_contra ge
  have fixed := relocated.outside (slots.symm index) (by omega)
  rw [Equiv.apply_symm_apply] at fixed
  omega

theorem named_eq (relocated : Relocated p s p' s' slots) {index : Nat} (lt : index < p.capacity) :
    (p'.headers index).named = (p.headers (slots index)).named := by
  cases after : (p'.headers index).isFree with
  | false => rw [relocated.headers index lt (Or.inl after)]
  | true =>
      cases before : (p.headers (slots index)).isFree with
      | false => rw [relocated.headers index lt (Or.inr before)]
      | true => rw [Header.named_eq_none.mpr after, Header.named_eq_none.mpr before]

theorem isFree_eq (relocated : Relocated p s p' s' slots) {index : Nat} (lt : index < p.capacity) :
    (p'.headers index).isFree = (p.headers (slots index)).isFree := by
  have named := relocated.named_eq lt
  cases before : (p.headers (slots index)).isFree with
  | true => exact Header.named_eq_none.mp (named.trans (Header.named_eq_none.mpr before))
  | false =>
      rw [relocated.headers index lt (Or.inr before)]
      exact before

/-- A relocation keeps the set of mappings that the headers name. -/
theorem exists_named_iff (relocated : Relocated p s p' s' slots) {m : Nat} :
    (∃ index < p.capacity, (p'.headers index).named = some m) ↔
      ∃ index < p.capacity, (p.headers index).named = some m := by
  constructor
  · rintro ⟨index, lt, named⟩
    exact ⟨slots index, relocated.slots_lt lt, by rwa [← relocated.named_eq lt]⟩
  · rintro ⟨index, lt, named⟩
    refine ⟨slots.symm index, relocated.symm_lt lt, ?_⟩
    rwa [relocated.named_eq (relocated.symm_lt lt), Equiv.apply_symm_apply]

theorem distinct (relocated : Relocated p s p' s' slots) (distinct : p.Distinct) : p'.Distinct := by
  intro index other m index_lt other_lt left right
  rw [relocated.same.capacity] at index_lt other_lt
  rw [relocated.named_eq index_lt] at left
  rw [relocated.named_eq other_lt] at right
  exact slots.injective
    (distinct _ _ m (relocated.slots_lt index_lt) (relocated.slots_lt other_lt) left right)

theorem trans (first : Relocated p s p' s' slots) (second : Relocated p' s' p'' s'' slots') :
    Relocated p s p'' s'' (slots'.trans slots) := by
  have capacity := first.same.capacity
  have ind := first.same.indToObject
  have slots'_lt : ∀ {index}, index < p.capacity → slots' index < p.capacity := by
    intro index lt
    rw [← capacity] at lt ⊢
    exact second.slots_lt lt
  constructor
  · exact first.same.trans second.same
  · intro index ge
    rw [Equiv.trans_apply, second.outside index (by omega), first.outside index ge]
  · intro index lt live
    rw [Equiv.trans_apply] at live ⊢
    have middle : (p'.headers (slots' index)).isFree = false := by
      rcases live with after | before
      · rw [← second.isFree_eq (by omega), after]
      · rw [first.isFree_eq (slots'_lt lt), before]
    rw [second.headers index (by omega) (Or.inr middle),
      first.headers _ (slots'_lt lt) (Or.inl middle)]
  · intro index lt live offset small
    have middle : (p'.headers (slots' index)).isFree = false := by
      rw [← second.isFree_eq (by omega), live]
    have late := second.bytes index (by omega) live offset (by rw [first.same.objectSize]; exact small)
    rw [ind] at late
    rw [late, first.bytes _ (slots'_lt lt) middle offset small]
    rfl
  · intro index lt m named
    have middle : (p'.headers (slots' index)).named = some m := by
      rw [← second.named_eq (by omega), named]
    have late := second.words index (by omega) m named
    have early := first.words _ (slots'_lt lt) m middle
    rw [ind] at late
    rw [Equiv.trans_apply]
    rcases late with ⟨lateWord, lateSlot⟩ | ⟨latePinned, lateWord⟩
    · rw [lateSlot] at early ⊢
      rw [lateWord]
      exact early
    · right
      rcases early with ⟨earlyWord, _⟩ | ⟨earlyPinned, earlyWord⟩
      · rw [earlyWord] at latePinned lateWord
        exact ⟨latePinned, lateWord⟩
      · refine ⟨earlyPinned, ?_⟩
        rw [lateWord]
        rfl
  · intro m unnamed
    rw [second.otherWords m (by rwa [capacity])]
    refine first.otherWords m fun index lt named => ?_
    rcases second.exists_named_iff.mpr ⟨index, by omega, named⟩ with ⟨other, other_lt, late⟩
    exact unnamed other (by omega) late
  · intro address outside
    rw [second.otherBytes address, first.otherBytes address outside]
    intro index lt
    rw [ind, first.same.objectSize]
    exact outside index (by omega)

theorem backed (relocated : Relocated p s p' s' slots) (layout : p.Layout)
    (backed : p.Backed s.mappings) : p'.Backed s'.mappings := by
  intro index lt m named
  rw [relocated.same.capacity] at lt
  rw [relocated.same.indToObject]
  rcases relocated.words index lt m named with ⟨word, fixed⟩ | ⟨_, word⟩
  · rw [relocated.named_eq lt, fixed] at named
    rw [word]
    exact backed index lt m named
  · have := layout.slot_lt lt
    rw [word]
    exact Mapping.getPointer_setPointer (by omega)

end Relocated

section Steps

variable {p : SizedPage} {s : Store} {left right index : Nat}

/-- Pushing a free slot on the free list moves nothing. -/
theorem relocated_releaseSlot (layout : p.Layout) (lt : index < p.capacity)
    (free : (p.headers index).isFree = true) :
    Relocated p s (p.releaseSlot s index).1 (p.releaseSlot s index).2 (Equiv.refl Nat) where
  same := ⟨rfl, rfl, rfl, rfl, rfl, rfl⟩
  outside := fun _ _ => rfl
  headers := fun _ _ _ => rfl
  words := fun _ _ _ _ => Or.inl ⟨rfl, rfl⟩
  otherWords := fun _ _ => rfl
  bytes := by
    intro other _ live offset small
    have ne : other ≠ index := by
      rintro rfl
      exact Bool.noConfusion (free.symm.trans live)
    have apart := p.slots_apart ne
    have size := layout.size_ge
    refine Bytes.store64_outside ?_
    omega
  otherBytes := by
    intro address outside
    have apart := outside index lt
    have size := layout.size_ge
    refine Bytes.store64_outside ?_
    omega

theorem moveObject_target (ne : left ≠ right) :
    (p.moveObject s right left).1.headers left = p.headers right := by
  simp [moveObject, setHeader, ne]

theorem moveObject_source (p : SizedPage) (s : Store) (left right : Nat) :
    ((p.moveObject s right left).1.headers right).isFree = true := by
  simp [moveObject, setHeader, Header.clear_eq_zero]

theorem moveObject_of_ne (neLeft : index ≠ left) (neRight : index ≠ right) :
    (p.moveObject s right left).1.headers index = p.headers index := by
  simp [moveObject, setHeader, neLeft, neRight]

theorem moveObject_bytes {address : Nat}
    (outLeft : address < p.indToObject left ∨ p.indToObject left + p.objectSize ≤ address)
    (outRight : address < p.indToObject right ∨ p.indToObject right + p.objectSize ≤ address) :
    (p.moveObject s right left).2.bytes address = s.bytes address := by
  simp only [moveObject, Store.bytes_setPointer]
  rw [Bytes.memset_outside outRight, Bytes.memmove_outside outLeft]

/-- Moving an unpinned object into a free slot swaps the two slots. -/
theorem relocated_moveObject (distinct : p.Distinct) (left_lt : left < p.capacity)
    (right_lt : right < p.capacity) (leftFree : (p.headers left).isFree = true)
    (rightLive : (p.headers right).isFree = false)
    (unpinned : (s.mappings (p.headers right).getMapping).isPinned = false) :
    Relocated p s (p.moveObject s right left).1 (p.moveObject s right left).2
      (Equiv.swap left right) := by
  have ne : left ≠ right := by
    rintro rfl
    exact Bool.noConfusion (leftFree.symm.trans rightLive)
  have named : (p.headers right).named = some (p.headers right).getMapping :=
    Header.named_eq_some.mpr ⟨rightLive, rfl⟩
  constructor
  · exact ⟨rfl, rfl, rfl, rfl, rfl, rfl⟩
  · intro other ge
    exact Equiv.swap_apply_of_ne_of_ne (by omega) (by omega)
  · intro other _ live
    by_cases isLeft : other = left
    · subst isLeft
      rw [moveObject_target ne, Equiv.swap_apply_left]
    · by_cases isRight : other = right
      · subst isRight
        rw [Equiv.swap_apply_right, moveObject_source, leftFree] at live
        simp at live
      · rw [moveObject_of_ne isLeft isRight, Equiv.swap_apply_of_ne_of_ne isLeft isRight]
  · intro other _ live offset small
    by_cases isLeft : other = left
    · subst isLeft
      have apart := p.slots_apart ne
      simp only [moveObject, Store.bytes_setPointer, Equiv.swap_apply_left]
      rw [Bytes.memset_outside (by omega), Bytes.memmove_inside (by omega) (by omega)]
      congr 1
      omega
    · by_cases isRight : other = right
      · subst isRight
        exact Bool.noConfusion ((moveObject_source p s left other).symm.trans live)
      · have apartLeft := p.slots_apart isLeft
        have apartRight := p.slots_apart isRight
        rw [Equiv.swap_apply_of_ne_of_ne isLeft isRight]
        exact moveObject_bytes (by omega) (by omega)
  · intro other lt m namedOther
    by_cases isLeft : other = left
    · subst isLeft
      rw [moveObject_target ne, named, Option.some.injEq] at namedOther
      subst namedOther
      exact Or.inr ⟨unpinned, by simp [moveObject]⟩
    · by_cases isRight : other = right
      · subst isRight
        rw [Header.named_eq_none.mpr (moveObject_source p s left other)] at namedOther
        exact absurd namedOther (by simp)
      · rw [moveObject_of_ne isLeft isRight] at namedOther
        have other_ne : m ≠ (p.headers right).getMapping := by
          rintro rfl
          exact isRight (distinct _ _ _ lt right_lt namedOther named)
        refine Or.inl ⟨?_, Equiv.swap_apply_of_ne_of_ne isLeft isRight⟩
        simp [moveObject, Store.mappings_setPointer_of_ne other_ne]
  · intro m unnamed
    have other_ne : m ≠ (p.headers right).getMapping := by
      rintro rfl
      exact unnamed left left_lt (by rw [moveObject_target ne, named])
    simp [moveObject, Store.mappings_setPointer_of_ne other_ne]
  · intro address outside
    exact moveObject_bytes (outside left left_lt) (outside right right_lt)

theorem stuck_eq_false :
    p.stuck s index = false ↔ (p.headers index).isFree = false ∧
      (s.mappings (p.headers index).getMapping).isPinned = false := by
  simp [stuck]

theorem swapObjects_left :
    (p.swapObjects s left right).1.headers left = p.headers right := by
  simp only [swapObjects, setHeader, Function.update_self]
  exact Header.setSizeSlack_setMapping _ _

theorem swapObjects_right (ne : left ≠ right) :
    (p.swapObjects s left right).1.headers right = p.headers left := by
  simp only [swapObjects, setHeader, Function.update_of_ne ne.symm, Function.update_self]
  exact Header.setSizeSlack_setMapping _ _

theorem swapObjects_of_ne (neLeft : index ≠ left) (neRight : index ≠ right) :
    (p.swapObjects s left right).1.headers index = p.headers index := by
  simp [swapObjects, setHeader, neLeft, neRight]

theorem swapObjects_bytes {address : Nat}
    (outLeft : address < p.indToObject left ∨ p.indToObject left + p.objectSize ≤ address)
    (outRight : address < p.indToObject right ∨ p.indToObject right + p.objectSize ≤ address) :
    (p.swapObjects s left right).2.bytes address = s.bytes address := by
  simp only [swapObjects, Store.bytes_setPointer]
  rw [Bytes.write_outside outRight, Bytes.memmove_outside outLeft]

/-- Swapping two unpinned objects swaps their slots. -/
theorem relocated_swapObjects (distinct : p.Distinct) (left_lt : left < p.capacity)
    (right_lt : right < p.capacity) (ne : left ≠ right)
    (leftMovable : p.stuck s left = false) (rightMovable : p.stuck s right = false) :
    Relocated p s (p.swapObjects s left right).1 (p.swapObjects s left right).2
      (Equiv.swap left right) := by
  rw [stuck_eq_false] at leftMovable rightMovable
  rcases leftMovable with ⟨leftLive, leftUnpinned⟩
  rcases rightMovable with ⟨rightLive, rightUnpinned⟩
  have namedLeft : (p.headers left).named = some (p.headers left).getMapping :=
    Header.named_eq_some.mpr ⟨leftLive, rfl⟩
  have namedRight : (p.headers right).named = some (p.headers right).getMapping :=
    Header.named_eq_some.mpr ⟨rightLive, rfl⟩
  have mappings_ne : (p.headers left).getMapping ≠ (p.headers right).getMapping := by
    intro equal
    rw [equal] at namedLeft
    exact ne (distinct _ _ _ left_lt right_lt namedLeft namedRight)
  constructor
  · exact ⟨rfl, rfl, rfl, rfl, rfl, rfl⟩
  · intro other ge
    exact Equiv.swap_apply_of_ne_of_ne (by omega) (by omega)
  · intro other _ _
    by_cases isLeft : other = left
    · rw [isLeft, swapObjects_left, Equiv.swap_apply_left]
    · by_cases isRight : other = right
      · rw [isRight, swapObjects_right ne, Equiv.swap_apply_right]
      · rw [swapObjects_of_ne isLeft isRight, Equiv.swap_apply_of_ne_of_ne isLeft isRight]
  · intro other _ _ offset small
    have apart := p.slots_apart ne
    by_cases isLeft : other = left
    · simp only [swapObjects, Store.bytes_setPointer]
      rw [isLeft, Equiv.swap_apply_left, Bytes.write_outside (by omega),
        Bytes.memmove_inside (by omega) (by omega)]
      congr 1
      omega
    · by_cases isRight : other = right
      · simp only [swapObjects, Store.bytes_setPointer]
        rw [isRight, Equiv.swap_apply_right, Bytes.write_inside (by omega) (by omega)]
        congr 1
        omega
      · have apartLeft := p.slots_apart isLeft
        have apartRight := p.slots_apart isRight
        rw [Equiv.swap_apply_of_ne_of_ne isLeft isRight]
        exact swapObjects_bytes (by omega) (by omega)
  · intro other lt m namedOther
    by_cases isLeft : other = left
    · rw [isLeft, swapObjects_left, namedRight, Option.some.injEq] at namedOther
      subst namedOther
      refine Or.inr ⟨rightUnpinned, ?_⟩
      simp [swapObjects, Store.mappings_setPointer_of_ne mappings_ne.symm, isLeft]
    · by_cases isRight : other = right
      · rw [isRight, swapObjects_right ne, namedLeft, Option.some.injEq] at namedOther
        subst namedOther
        refine Or.inr ⟨leftUnpinned, ?_⟩
        simp [swapObjects, Store.mappings_setPointer_of_ne mappings_ne, isRight]
      · rw [swapObjects_of_ne isLeft isRight] at namedOther
        have neLeft : m ≠ (p.headers left).getMapping := by
          rintro rfl
          exact isLeft (distinct _ _ _ lt left_lt namedOther namedLeft)
        have neRight : m ≠ (p.headers right).getMapping := by
          rintro rfl
          exact isRight (distinct _ _ _ lt right_lt namedOther namedRight)
        refine Or.inl ⟨?_, Equiv.swap_apply_of_ne_of_ne isLeft isRight⟩
        simp [swapObjects, Store.mappings_setPointer_of_ne neLeft,
          Store.mappings_setPointer_of_ne neRight]
  · intro m unnamed
    have neLeft : m ≠ (p.headers left).getMapping := by
      rintro rfl
      exact unnamed right right_lt (by rw [swapObjects_right ne, namedLeft])
    have neRight : m ≠ (p.headers right).getMapping := by
      rintro rfl
      exact unnamed left left_lt (by rw [swapObjects_left, namedRight])
    simp [swapObjects, Store.mappings_setPointer_of_ne neLeft,
      Store.mappings_setPointer_of_ne neRight]
  · intro address outside
    exact swapObjects_bytes (outside left left_lt) (outside right right_lt)

end Steps

/-! ## The invariant of the compaction loop -/

/-- The slot `last_object` points to, or would point to if the loop ended now. -/
def Compaction.last (c : Compaction) : Nat := c.lastObject.getD c.right

/--
The state of `compact` after some steps: slots left of the left finger are live, slots
beyond the last object are free, and the free list holds the free slots between the right
finger and the last object. Once a finger has left its place, one of them is on a free slot.
-/
structure Compacting (p : SizedPage) (s : Store) (c : Compaction) : Prop where
  relocated : ∃ slots, Relocated p s c.page c.store slots
  sameSlots : p.allocator.SameSlots c.page.allocator
  left_le : c.left ≤ c.right
  right_lt : c.right < p.capacity
  last_lt : ∀ last, c.lastObject = some last →
    c.right < last ∧ last < p.capacity ∧ (c.page.headers last).isFree = false
  packed : ∀ index < c.left, (c.page.headers index).isFree = false
  beyond : ∀ index, c.last < index → index < p.capacity → (c.page.headers index).isFree = true
  gaps : ∃ locals : List Nat, locals.Nodup ∧
    (∀ index, index ∈ locals ↔
      c.right < index ∧ index < c.last ∧ (c.page.headers index).isFree = true) ∧
    c.page.allocator.freeList.Holds c.store.bytes (locals.map p.indToObject) []
  meeting : c.right + 1 = p.capacity ∧ c.lastObject = none ∨
    (c.page.headers c.left).isFree = true ∨ (c.page.headers c.right).isFree = true

namespace Compacting

variable {p : SizedPage} {s : Store} {c : Compaction}

theorem last_cases (compacting : Compacting p s c) :
    c.lastObject = none ∧ c.last = c.right ∨
      c.lastObject = some c.last ∧ c.right < c.last ∧ c.last < p.capacity ∧
        (c.page.headers c.last).isFree = false := by
  cases object : c.lastObject with
  | none => exact Or.inl ⟨rfl, by simp [Compaction.last, object]⟩
  | some last =>
      have bounds := compacting.last_lt last object
      have : c.last = last := by simp [Compaction.last, object]
      exact Or.inr ⟨by rw [this], by omega, by omega, by rw [this]; exact bounds.2.2⟩

theorem start (capacity_pos : 0 < p.capacity) :
    Compacting p s
      { left := 0
        right := p.capacity - 1
        lastObject := none
        movedObjects := 0
        page := { p with allocator := p.allocator.resetFreeList }
        store := s } where
  relocated := ⟨Equiv.refl Nat, ⟨rfl, rfl, rfl, rfl, rfl, rfl⟩, fun _ _ => rfl, fun _ _ _ => rfl,
    fun _ _ _ _ _ => rfl, fun _ _ _ _ => Or.inl ⟨rfl, rfl⟩, fun _ _ => rfl, fun _ _ => rfl⟩
  sameSlots := ⟨rfl, rfl, rfl⟩
  left_le := Nat.zero_le _
  right_lt := by
    show p.capacity - 1 < p.capacity
    omega
  last_lt := by simp
  packed := by simp
  beyond := by
    intro index above lt
    simp only [Compaction.last, Option.getD_none] at above
    omega
  gaps := by
    refine ⟨[], List.nodup_nil, ?_, ShardedFreeList.Holds.empty _⟩
    intro index
    simp only [Compaction.last, Option.getD_none, List.not_mem_nil, false_iff]
    omega
  meeting := by
    left
    exact ⟨Nat.sub_add_cancel capacity_pos, rfl⟩

theorem walkLeft (compacting : Compacting p s c) (apart : c.left < c.right)
    (live : (c.page.headers c.left).isFree = false) :
    Compacting p s { c with left := c.left + 1 } where
  relocated := compacting.relocated
  sameSlots := compacting.sameSlots
  left_le := apart
  right_lt := compacting.right_lt
  last_lt := compacting.last_lt
  packed := by
    intro index lt
    rcases Nat.lt_succ_iff_lt_or_eq.mp lt with before | rfl
    · exact compacting.packed index before
    · exact live
  beyond := compacting.beyond
  gaps := compacting.gaps
  meeting := by
    rcases compacting.meeting with untouched | leftFree | rightFree
    · exact Or.inl untouched
    · exact Bool.noConfusion (leftFree.symm.trans live)
    · exact Or.inr (Or.inr rightFree)

/-- Without a pinned object behind it, a free slot under the right finger is left to the bump. -/
theorem skipFree (compacting : Compacting p s c) (apart : c.left < c.right)
    (leftFree : (c.page.headers c.left).isFree = true)
    (rightFree : (c.page.headers c.right).isFree = true) (none : c.lastObject = none) :
    Compacting p s { c with right := c.right - 1 } where
  relocated := compacting.relocated
  sameSlots := compacting.sameSlots
  left_le := Nat.le_sub_one_of_lt apart
  right_lt := Nat.lt_of_le_of_lt (Nat.sub_le _ _) compacting.right_lt
  last_lt := by simp [none]
  packed := compacting.packed
  beyond := by
    intro index above lt
    simp only [Compaction.last, none, Option.getD_none] at above
    by_cases equal : index = c.right
    · rw [equal]
      exact rightFree
    · refine compacting.beyond index ?_ lt
      simp only [Compaction.last, none, Option.getD_none]
      omega
  gaps := by
    rcases compacting.gaps with ⟨locals, nodup, member, holds⟩
    refine ⟨locals, nodup, ?_, holds⟩
    intro index
    simp only [Compaction.last, none, Option.getD_none] at member ⊢
    rw [member]
    omega
  meeting := Or.inr (Or.inl leftFree)

/-- Behind a pinned object, a free slot under the right finger goes to the free list. -/
theorem releaseFree (compacting : Compacting p s c) (layout : p.Layout) (apart : c.left < c.right)
    (leftFree : (c.page.headers c.left).isFree = true)
    (rightFree : (c.page.headers c.right).isFree = true) {last : Nat}
    (object : c.lastObject = some last) :
    Compacting p s
      { c with
        page := (c.page.releaseSlot c.store c.right).1
        store := (c.page.releaseSlot c.store c.right).2
        right := c.right - 1 } := by
  rcases compacting.relocated with ⟨slots, relocated⟩
  have ind := relocated.same.indToObject
  have right_lt := compacting.right_lt
  have bounds := compacting.last_lt last object
  have last_eq : c.last = last := by simp [Compaction.last, object]
  have capacity := relocated.same.capacity
  have released := relocated_releaseSlot (s := c.store) (layout.of_same relocated.same)
    (by omega) rightFree
  refine ⟨⟨_, relocated.trans released⟩, ?_, Nat.le_sub_one_of_lt apart, ?_, ?_,
    compacting.packed, ?_, ?_, Or.inr (Or.inl leftFree)⟩
  · have same := compacting.sameSlots
    exact ⟨same.start, same.stop, same.size⟩
  · exact Nat.lt_of_le_of_lt (Nat.sub_le _ _) right_lt
  · intro other equal
    rw [object, Option.some.injEq] at equal
    subst equal
    exact ⟨Nat.lt_of_le_of_lt (Nat.sub_le _ _) bounds.1, bounds.2⟩
  · intro index above lt
    simp only [Compaction.last, object, Option.getD_some] at above
    exact compacting.beyond index (by omega) lt
  · rcases compacting.gaps with ⟨locals, nodup, member, holds⟩
    have fresh : c.right ∉ locals := by
      rw [member]
      omega
    refine ⟨c.right :: locals, List.nodup_cons.mpr ⟨fresh, nodup⟩, ?_, ?_⟩
    · intro index
      simp only [Compaction.last, object, Option.getD_some, List.mem_cons, releaseSlot] at member ⊢
      rw [member]
      constructor
      · rintro (rfl | ⟨above, below, free⟩)
        · exact ⟨by omega, by omega, rightFree⟩
        · exact ⟨by omega, below, free⟩
      · rintro ⟨above, below, free⟩
        by_cases equal : index = c.right
        · exact Or.inl equal
        · exact Or.inr ⟨by omega, below, free⟩
    · -- the pushed slot is none of the listed ones
      have others : ∀ block ∈ locals.map p.indToObject ++ [],
          ∃ index, index ≠ c.right ∧ index < p.capacity ∧ block = p.indToObject index := by
        intro block listed
        rw [List.append_nil] at listed
        rcases List.mem_map.mp listed with ⟨index, inLocals, rfl⟩
        have := (member index).mp inLocals
        exact ⟨index, by omega, by omega, rfl⟩
      have size := layout.size_ge
      have nonzero : p.indToObject c.right ≠ 0 := by
        have := (layout.slot_inside right_lt).1
        have := layout.memory.pos
        omega
      have pushed := holds.freeLocal nonzero
        (by
          intro block listed
          rcases others block listed with ⟨index, _, lt, rfl⟩
          have := layout.slot_lt lt
          omega)
        (by
          intro block listed
          rcases others block listed with ⟨index, ne, _, rfl⟩
          have := p.slots_apart ne
          unfold Apart
          omega)
      simp only [releaseSlot, SizedAllocator.releaseLocal, ind]
      exact pushed

/-- A pinned object under the right finger is the last object if it is the first one met. -/
theorem skipPinned (compacting : Compacting p s c) (apart : c.left < c.right)
    (leftFree : (c.page.headers c.left).isFree = true)
    (rightLive : (c.page.headers c.right).isFree = false) :
    Compacting p s { c with lastObject := some (c.lastObject.getD c.right), right := c.right - 1 } := by
  have cases := compacting.last_cases
  have right_lt := compacting.right_lt
  refine ⟨compacting.relocated, compacting.sameSlots, Nat.le_sub_one_of_lt apart, ?_, ?_,
    compacting.packed, compacting.beyond, ?_, Or.inr (Or.inl leftFree)⟩
  · exact Nat.lt_of_le_of_lt (Nat.sub_le _ _) right_lt
  · intro last equal
    simp only [Option.some.injEq] at equal
    subst equal
    show c.right - 1 < c.last ∧ c.last < p.capacity ∧ (c.page.headers c.last).isFree = false
    rcases cases with ⟨_, equal⟩ | ⟨_, above, lt, live⟩
    · rw [equal]
      exact ⟨by omega, right_lt, rightLive⟩
    · exact ⟨by omega, lt, live⟩
  · rcases compacting.gaps with ⟨locals, nodup, member, holds⟩
    refine ⟨locals, nodup, ?_, holds⟩
    intro index
    rw [member]
    simp only [Compaction.last, Option.getD_some]
    constructor
    · rintro ⟨above, below, free⟩
      exact ⟨by omega, below, free⟩
    · rintro ⟨above, below, free⟩
      by_cases equal : index = c.right
      · rw [equal] at free
        exact Bool.noConfusion (free.symm.trans rightLive)
      · exact ⟨by omega, below, free⟩

theorem move (compacting : Compacting p s c) (layout : p.Layout) (distinct : p.Distinct)
    (apart : c.left < c.right) (leftFree : (c.page.headers c.left).isFree = true)
    (rightLive : (c.page.headers c.right).isFree = false)
    (unpinned : (c.store.mappings (c.page.headers c.right).getMapping).isPinned = false) :
    Compacting p s
      { c with
        page := (c.page.moveObject c.store c.right c.left).1
        store := (c.page.moveObject c.store c.right c.left).2
        movedObjects := c.movedObjects + 1 } := by
  rcases compacting.relocated with ⟨slots, relocated⟩
  have ind := relocated.same.indToObject
  have capacity := relocated.same.capacity
  have right_lt := compacting.right_lt
  have last_cases := compacting.last_cases
  have moved := relocated_moveObject (relocated.distinct distinct) (by omega) (by omega)
    leftFree rightLive unpinned
  refine ⟨⟨_, relocated.trans moved⟩, ?_, compacting.left_le, right_lt, ?_,
    ?_, ?_, ?_, Or.inr (Or.inr (moveObject_source c.page c.store c.left c.right))⟩
  · have same := compacting.sameSlots
    exact ⟨same.start, same.stop, same.size⟩
  · intro last object
    rcases compacting.last_lt last object with ⟨above, lt, live⟩
    refine ⟨above, lt, ?_⟩
    show ((c.page.moveObject c.store c.right c.left).1.headers last).isFree = false
    rw [moveObject_of_ne (by omega) (by omega)]
    exact live
  · intro index lt
    show ((c.page.moveObject c.store c.right c.left).1.headers index).isFree = false
    rw [moveObject_of_ne (Nat.ne_of_lt lt) (Nat.ne_of_lt (Nat.lt_trans lt apart))]
    exact compacting.packed index lt
  · intro index above lt
    have beyond := compacting.beyond index above lt
    show ((c.page.moveObject c.store c.right c.left).1.headers index).isFree = true
    have : c.last < index := above
    rw [moveObject_of_ne (by omega) (by omega)]
    exact beyond
  · rcases compacting.gaps with ⟨locals, nodup, member, holds⟩
    refine ⟨locals, nodup, ?_, ?_⟩
    · intro index
      rw [member]
      show _ ↔ c.right < index ∧ index < c.last ∧
        ((c.page.moveObject c.store c.right c.left).1.headers index).isFree = true
      constructor
      · rintro ⟨above, below, free⟩
        rw [moveObject_of_ne (by omega) (by omega)]
        exact ⟨above, below, free⟩
      · rintro ⟨above, below, free⟩
        rw [moveObject_of_ne (by omega) (by omega)] at free
        exact ⟨above, below, free⟩
    · refine holds.congr ?_
      intro block listed
      rw [List.append_nil] at listed
      rcases List.mem_map.mp listed with ⟨index, inLocals, rfl⟩
      have := (member index).mp inLocals
      have size := layout.size_ge
      have apartLeft := p.slots_apart (show index ≠ c.left by omega)
      have apartRight := p.slots_apart (show index ≠ c.right by omega)
      refine LinkCells.next_congr _ _ _ ?_
      intro address lower upper
      refine moveObject_bytes ?_ ?_
      · rw [ind, relocated.same.objectSize]
        omega
      · rw [ind, relocated.same.objectSize]
        omega

theorem step (compacting : Compacting p s c) (layout : p.Layout) (distinct : p.Distinct)
    (apart : c.left < c.right) : Compacting p s (compactStep c) := by
  unfold compactStep
  split
  · next live => exact compacting.walkLeft apart live
  · next notLive =>
      have leftFree : (c.page.headers c.left).isFree = true := by simpa using notLive
      split
      · next rightFree =>
          split
          · next isSome =>
              rcases Option.isSome_iff_exists.mp isSome with ⟨last, object⟩
              exact compacting.releaseFree layout apart leftFree rightFree object
          · next isNone =>
              have object : c.lastObject = none := by simpa using isNone
              exact compacting.skipFree apart leftFree rightFree object
      · next notFree =>
          have rightLive : (c.page.headers c.right).isFree = false := by simpa using notFree
          split
          · exact compacting.skipPinned apart leftFree rightLive
          · next notPinned =>
              exact compacting.move layout distinct apart leftFree rightLive (by simpa using notPinned)

/-- The two fingers approach each other, or the left one gets an object to walk over. -/
def measure (c : Compaction) : Nat :=
  2 * (c.right - c.left) + (c.page.headers c.left).isFree.toNat

theorem step_decreases (apart : c.left < c.right) : measure (compactStep c) < measure c := by
  have bit := Bool.toNat_le (c.page.headers (c.left + 1)).isFree
  unfold compactStep
  split
  · simp only [measure]
    omega
  · next notLive =>
      have leftFree : (c.page.headers c.left).isFree = true := by simpa using notLive
      split
      · split
        · simp only [measure, releaseSlot, leftFree, Bool.toNat_true]
          omega
        · simp only [measure, leftFree, Bool.toNat_true]
          omega
      · next notFree =>
          have rightLive : (c.page.headers c.right).isFree = false := by simpa using notFree
          split
          · simp only [measure, leftFree, Bool.toNat_true]
            omega
          · simp only [measure, moveObject_target (Nat.ne_of_lt apart), rightLive, leftFree,
              Bool.toNat_true, Bool.toNat_false]
            omega

/-- The loop ends with the fingers on the same slot. -/
theorem loop (layout : p.Layout) (distinct : p.Distinct) (capacity_pos : 0 < p.capacity) :
    Compacting p s (p.compactLoop s) ∧ (p.compactLoop s).left = (p.compactLoop s).right := by
  have preserved : ∀ c, Compacting p s c → decide (c.right > c.left) = true →
      Compacting p s (compactStep c) := by
    intro c compacting apart
    exact compacting.step layout distinct (by simpa using apart)
  have invariant : Compacting p s (p.compactLoop s) :=
    whileLoop_invariant preserved _ (start capacity_pos)
  have stopped : decide ((p.compactLoop s).right > (p.compactLoop s).left) = false := by
    refine whileLoop_finished measure preserved
      (fun c _ apart => step_decreases (by simpa using apart)) (start capacity_pos) ?_
    have bit := Bool.toNat_le (p.headers 0).isFree
    simp only [measure]
    omega
  have met : ¬ (p.compactLoop s).right > (p.compactLoop s).left := of_decide_eq_false stopped
  have := invariant.left_le
  exact ⟨invariant, by omega⟩

end Compacting

/-! ## What the two operations do -/

/-- Every slot of the page holds an object. -/
def Full (p : SizedPage) : Prop := ∀ index < p.capacity, (p.headers index).isFree = false

/-- The slots `free` and the slot `lost` are all the slots without an object. -/
structure Accounts (p : SizedPage) (free : List Nat) (lost : Option Nat) : Prop where
  covered : ∀ index < p.capacity, (p.headers index).isFree = true → index ∈ free ∨ lost = some index
  lost_free : ∀ index, lost = some index →
    index < p.capacity ∧ (p.headers index).isFree = true ∧ index ∉ free

/-- Whether a page is full does not depend on where its objects are. -/
theorem Relocated.full_iff {p p' : SizedPage} {s s' : Store} {slots : Equiv.Perm Nat}
    (relocated : Relocated p s p' s' slots) : p'.Full ↔ p.Full := by
  constructor
  · intro full index lt
    have := full (slots.symm index) (by rw [relocated.same.capacity]; exact relocated.symm_lt lt)
    rwa [relocated.isFree_eq (relocated.symm_lt lt), Equiv.apply_symm_apply] at this
  · intro full index lt
    rw [relocated.same.capacity] at lt
    rw [relocated.isFree_eq lt]
    exact full _ (relocated.slots_lt lt)

variable {p : SizedPage} {s : Store} {locals remotes : List Nat} {bumped : Nat}

/--
`compact` relocates objects and rebuilds the allocator. The rebuilt allocator covers every
free slot but the one on which the fingers met, which is free unless the page is full.
-/
theorem Holds.compact (holds : p.Holds s.bytes locals remotes bumped) (distinct : p.Distinct)
    (capacity_pos : 0 < p.capacity) :
    ∃ locals' bumped' lost slots,
      (p.compact s).2.1.Holds (p.compact s).2.2.bytes locals' [] bumped' ∧
      Relocated p s (p.compact s).2.1 (p.compact s).2.2 slots ∧
      (p.compact s).2.1.Accounts
        (SizedAllocator.freeSlots locals' [] bumped' p.capacity) lost ∧
      (lost = none ↔ p.Full) := by
  have layout := holds.layout
  rcases Compacting.loop (s := s) layout distinct capacity_pos with ⟨compacting, met⟩
  have started : ¬ p.liveObjects = p.capacity := by
    rw [layout.liveObjects]
    omega
  simp only [SizedPage.compact, if_neg started]
  generalize p.compactLoop s = c at compacting met ⊢
  rcases compacting.relocated with ⟨slots, relocated⟩
  rcases compacting.gaps with ⟨locals', nodup, member, lists⟩
  have right_lt := compacting.right_lt
  have last_cases := compacting.last_cases
  have ind := relocated.same.indToObject
  have slot_eq : c.page.allocator.slot = p.indToObject := by
    rw [compacting.sameSlots.slot_eq, holds.configured.slot_eq]
  have last_lt : c.last < p.capacity := by omega
  have relocated' : Relocated p s
      { c.page with
        allocator := c.page.allocator.resetBumpAllocator (c.page.indToObject (c.last + 1)) }
      c.store slots :=
    ⟨⟨relocated.same.memory, relocated.same.sizeClass, relocated.same.objectSize,
      relocated.same.objects, relocated.same.capacity, relocated.same.liveObjects⟩,
      relocated.outside, relocated.headers, relocated.bytes, relocated.words,
      relocated.otherWords, relocated.otherBytes⟩
  have free : ∀ index, index ∈ SizedAllocator.freeSlots locals' [] (c.last + 1) p.capacity ↔
      (c.right < index ∧ index < p.capacity ∧ (c.page.headers index).isFree = true) := by
    intro index
    rw [SizedAllocator.mem_freeSlots, List.append_nil, member]
    constructor
    · rintro (⟨above, below, isFree⟩ | ⟨above, lt⟩)
      · exact ⟨above, by omega, isFree⟩
      · exact ⟨by omega, lt, compacting.beyond index (by omega) lt⟩
    · rintro ⟨above, lt, isFree⟩
      by_cases beyond : c.last + 1 ≤ index
      · exact Or.inr ⟨beyond, lt⟩
      · refine Or.inl ⟨above, ?_, isFree⟩
        rcases last_cases with ⟨_, equal⟩ | ⟨_, _, _, live⟩
        · omega
        · have : index ≠ c.last := by
            rintro rfl
            exact Bool.noConfusion (isFree.symm.trans live)
          omega
  refine ⟨locals', c.last + 1, if (c.page.headers c.right).isFree then some c.right else none,
    slots, ⟨layout.of_same relocated'.same, ?_, ?_, ?_⟩, relocated', ⟨?_, ?_⟩, ?_⟩
  · constructor
    · exact compacting.sameSlots.start.trans (holds.configured.start.trans relocated.same.objects.symm)
    · exact compacting.sameSlots.size.trans
        (holds.configured.size.trans relocated.same.objectSize.symm)
  · -- the rebuilt allocator
    have size := compacting.sameSlots.size
    have start := compacting.sameSlots.start
    have stop := compacting.sameSlots.stop
    have same := holds.configured.slot_eq
    constructor
    · exact size ▸ holds.lists.size_ge
    · exact start ▸ holds.lists.start_pos
    · have := holds.lists.end_eq
      show c.page.allocator.objectsEnd = c.page.allocator.slot c.page.capacity
      rw [stop, this, slot_eq, same, relocated.same.capacity]
    · exact stop ▸ holds.lists.end_lt
    · show c.page.indToObject (c.last + 1) = c.page.allocator.slot (c.last + 1)
      rw [slot_eq, ind]
    · show c.last + 1 ≤ c.page.capacity
      rw [relocated.same.capacity]
      omega
    · show c.page.allocator.freeList.Holds c.store.bytes (locals'.map c.page.allocator.slot) _
      rw [slot_eq]
      exact lists
    · intro index listed
      rw [List.append_nil, member] at listed
      omega
    · rwa [List.append_nil]
  · intro index listed
    have listed' : index ∈ SizedAllocator.freeSlots locals' [] (c.last + 1) p.capacity := by
      rw [← relocated.same.capacity]
      exact listed
    exact ((free index).mp listed').2.2
  · intro index lt isFree
    have index_lt : index < p.capacity := by rwa [relocated'.same.capacity] at lt
    have isFree' : (c.page.headers index).isFree = true := isFree
    rw [free]
    by_cases above : c.right < index
    · exact Or.inl ⟨above, index_lt, isFree'⟩
    · right
      by_cases equal : index = c.right
      · rw [equal] at isFree' ⊢
        rw [if_pos isFree']
      · exact Bool.noConfusion (isFree'.symm.trans (compacting.packed index (by omega)))
  · intro index isLost
    split at isLost
    · next isFree =>
        rw [Option.some.injEq] at isLost
        subst isLost
        refine ⟨by rw [relocated'.same.capacity]; exact right_lt, isFree, ?_⟩
        rw [free]
        omega
    · exact absurd isLost (by simp)
  · rw [← relocated.full_iff]
    constructor
    · intro isNone
      have rightLive : (c.page.headers c.right).isFree = false := by
        by_contra isFree
        rw [if_pos (by simpa using isFree)] at isNone
        exact absurd isNone (by simp)
      -- a live meeting slot means that no finger ever found a free slot
      have untouched : c.right + 1 = p.capacity := by
        rcases compacting.meeting with ⟨untouched, _⟩ | leftFree | rightFree
        · exact untouched
        · rw [met] at leftFree
          exact Bool.noConfusion (leftFree.symm.trans rightLive)
        · exact Bool.noConfusion (rightFree.symm.trans rightLive)
      intro index lt
      rw [relocated.same.capacity] at lt
      by_cases equal : index = c.right
      · rw [equal]
        exact rightLive
      · exact compacting.packed index (by omega)
    · intro full
      have rightLive := full c.right (by rw [relocated.same.capacity]; exact right_lt)
      rw [if_neg (by simp [rightLive])]

/--
The state of `jumble` after some steps: only live slots were touched, so the free slots
and the allocator are as they were.
-/
structure Jumbled (p : SizedPage) (s : Store) (j : Jumbling) : Prop where
  relocated : ∃ slots, Relocated p s j.page j.store slots
  allocator : j.page.allocator = p.allocator
  right_le : j.right ≤ p.capacity - 1
  isFree : ∀ index, (j.page.headers index).isFree = (p.headers index).isFree
  freeBytes : ∀ index < p.capacity, (p.headers index).isFree = true → ∀ address,
    p.indToObject index ≤ address → address < p.indToObject index + p.objectSize →
      j.store.bytes address = s.bytes address

namespace Jumbled

variable {j : Jumbling}

theorem swap (jumbled : Jumbled p s j) (distinct : p.Distinct) (apart : j.left < j.right)
    (rightMovable : j.page.stuck j.store j.right = false)
    (leftMovable : j.page.stuck j.store j.left = false) :
    Jumbled p s
      { left := j.left + 1
        right := j.right - 1
        swapped := j.swapped + 1
        page := (j.page.swapObjects j.store j.left j.right).1
        store := (j.page.swapObjects j.store j.left j.right).2 } := by
  rcases jumbled.relocated with ⟨slots, relocated⟩
  have right_le := jumbled.right_le
  have capacity := relocated.same.capacity
  have ne := Nat.ne_of_lt apart
  have swapped := relocated_swapObjects (relocated.distinct distinct) (by omega) (by omega) ne
    leftMovable rightMovable
  have leftLive := (stuck_eq_false.mp leftMovable).1
  have rightLive := (stuck_eq_false.mp rightMovable).1
  refine ⟨⟨_, relocated.trans swapped⟩, jumbled.allocator, ?_, ?_, ?_⟩
  · show j.right - 1 ≤ p.capacity - 1
    omega
  · intro index
    rw [← jumbled.isFree]
    by_cases isLeft : index = j.left
    · rw [isLeft, swapObjects_left, leftLive, rightLive]
    · by_cases isRight : index = j.right
      · rw [isRight, swapObjects_right ne, leftLive, rightLive]
      · rw [swapObjects_of_ne isLeft isRight]
  · intro index lt free address lower upper
    rw [← jumbled.freeBytes index lt free address lower upper]
    rw [← jumbled.isFree] at free
    have neLeft : index ≠ j.left := by
      rintro rfl
      exact Bool.noConfusion (free.symm.trans leftLive)
    have neRight : index ≠ j.right := by
      rintro rfl
      exact Bool.noConfusion (free.symm.trans rightLive)
    have apartLeft := p.slots_apart neLeft
    have apartRight := p.slots_apart neRight
    refine swapObjects_bytes ?_ ?_
    · rw [relocated.same.indToObject, relocated.same.objectSize]
      omega
    · rw [relocated.same.indToObject, relocated.same.objectSize]
      omega

theorem step (jumbled : Jumbled p s j) (distinct : p.Distinct) (apart : j.left < j.right) :
    Jumbled p s (jumbleStep j) := by
  unfold jumbleStep
  split
  · exact ⟨jumbled.relocated, jumbled.allocator, (Nat.sub_le _ _).trans jumbled.right_le,
      jumbled.isFree, jumbled.freeBytes⟩
  · next rightMovable =>
      split
      · exact ⟨jumbled.relocated, jumbled.allocator, jumbled.right_le, jumbled.isFree,
          jumbled.freeBytes⟩
      · next leftMovable =>
          exact jumbled.swap distinct apart (by simpa using rightMovable) (by simpa using leftMovable)

theorem loop (distinct : p.Distinct) : Jumbled p s (p.jumbleLoop s) := by
  refine whileLoop_invariant ?_ _ ⟨⟨_, Relocated.refl p s⟩, rfl, le_rfl, fun _ => rfl,
    fun _ _ _ _ _ _ => rfl⟩
  intro j jumbled apart
  exact jumbled.step distinct (by simpa using apart)

end Jumbled

/-- The bound on the loop of `jumble` is large enough: it ends because the fingers met. -/
theorem jumbleLoop_finished : (p.jumbleLoop s).right ≤ (p.jumbleLoop s).left := by
  have stopped : decide ((p.jumbleLoop s).right > (p.jumbleLoop s).left) = false := by
    have kept : ∀ j : Jumbling, True → decide (j.right > j.left) = true → True :=
      fun _ _ _ => trivial
    refine whileLoop_finished (fun j => j.right - j.left) kept ?_ trivial ?_
    · intro j _ apart
      have apart : j.left < j.right := by simpa using apart
      unfold jumbleStep
      split
      · show j.right - 1 - j.left < _
        omega
      · split
        · show j.right - (j.left + 1) < _
          omega
        · show j.right - 1 - (j.left + 1) < _
          omega
    · show p.capacity - 1 - 0 ≤ p.capacity
      omega
  have := of_decide_eq_false stopped
  omega

/-- `jumble` ends, relocates objects between live slots and leaves the allocator as it is. -/
theorem Holds.jumble (holds : p.Holds s.bytes locals remotes bumped) (distinct : p.Distinct) :
    (∃ slots, Relocated p s (p.jumble s).2.1 (p.jumble s).2.2 slots) ∧
      (p.jumble s).2.1.Holds (p.jumble s).2.2.bytes locals remotes bumped ∧
      (∀ index, ((p.jumble s).2.1.headers index).isFree = (p.headers index).isFree) ∧
      (p.jumbleLoop s).right ≤ (p.jumbleLoop s).left := by
  have jumbled := Jumbled.loop (s := s) distinct
  rcases jumbled.relocated with ⟨slots, relocated⟩
  have kept : (p.jumbleLoop s).page.Holds s.bytes locals remotes bumped := by
    refine ⟨holds.layout.of_same relocated.same, ⟨?_, ?_⟩, ?_, ?_⟩
    · rw [jumbled.allocator, relocated.same.objects]
      exact holds.configured.start
    · rw [jumbled.allocator, relocated.same.objectSize]
      exact holds.configured.size
    · rw [jumbled.allocator, relocated.same.capacity]
      exact holds.lists
    · intro index member
      rw [relocated.same.capacity] at member
      rw [jumbled.isFree]
      exact holds.free index member
  refine ⟨jumbled.relocated, kept.congr ?_, jumbled.isFree, p.jumbleLoop_finished⟩
  intro index listed address lower upper
  rw [relocated.same.indToObject] at lower upper
  rw [relocated.same.objectSize] at upper
  have member : index ∈ SizedAllocator.freeSlots locals remotes bumped p.capacity :=
    SizedAllocator.mem_freeSlots.mpr (Or.inl listed)
  exact jumbled.freeBytes index (holds.lists.mem_lt listed) (holds.free index member)
    address lower upper

end SizedPage

end Alaska
