import Mathlib.Data.List.Basic
import Mathlib.Order.Nat

/-!
# Items in a window

Items of a list occupy intervals. `Packed` says that they lie in a window one after the
other without overlap, and `Gap` that there is room for one more before, between or after
them. Both are what an allocator keeps and looks for that cuts pieces out of a block.
-/

namespace Intervals

universe u

variable {Item : Type u} (start stop : Item → Nat)

/-- The items lie in the window from `lower` to `upper` in their order. -/
def Packed : Nat → Nat → List Item → Prop
  | lower, upper, [] => lower ≤ upper
  | lower, upper, item :: items =>
      lower ≤ start item ∧ start item ≤ stop item ∧ Packed (stop item) upper items

/-- There is room for `size` places between the items of the window. -/
def Gap (size : Nat) : Nat → Nat → List Item → Prop
  | lower, upper, [] => lower + size ≤ upper
  | lower, upper, item :: items => lower + size ≤ start item ∨ Gap size (stop item) upper items

/-- The places that the items occupy. -/
def occupied : List Item → Nat
  | [] => 0
  | item :: items => stop item - start item + occupied items

variable {start stop} {lower upper size : Nat} {item other : Item} {items before after : List Item}

namespace Packed

theorem lower_le_upper (packed : Packed start stop lower upper items) : lower ≤ upper := by
  induction items generalizing lower with
  | nil => exact packed
  | cons item items ih =>
      rcases packed with ⟨le, ordered, rest⟩
      exact (le.trans ordered).trans (ih rest)

theorem mono {lower' : Nat} (packed : Packed start stop lower upper items) (le : lower' ≤ lower) :
    Packed start stop lower' upper items := by
  cases items with
  | nil => exact le.trans packed
  | cons item items => exact ⟨le.trans packed.1, packed.2⟩

theorem of_mem (packed : Packed start stop lower upper items) (member : item ∈ items) :
    lower ≤ start item ∧ start item ≤ stop item ∧ stop item ≤ upper := by
  induction items generalizing lower with
  | nil => cases member
  | cons first items ih =>
      rcases packed with ⟨le, ordered, rest⟩
      rcases List.mem_cons.mp member with rfl | later
      · exact ⟨le, ordered, rest.lower_le_upper⟩
      · have inside := ih rest later
        exact ⟨(le.trans ordered).trans inside.1, inside.2⟩

/-- Every item ends before the later ones begin. -/
theorem pairwise (packed : Packed start stop lower upper items) :
    items.Pairwise fun item other => stop item ≤ start other := by
  induction items generalizing lower with
  | nil => exact List.Pairwise.nil
  | cons item items ih =>
      rcases packed with ⟨_, _, rest⟩
      exact List.pairwise_cons.mpr ⟨fun other later => (rest.of_mem later).1, ih rest⟩

theorem append_iff : Packed start stop lower upper (before ++ after) ↔
    ∃ middle, Packed start stop lower middle before ∧ Packed start stop middle upper after := by
  induction before generalizing lower with
  | nil =>
      constructor
      · exact fun packed => ⟨lower, Nat.le_refl lower, packed⟩
      · rintro ⟨middle, le, packed⟩
        exact packed.mono le
  | cons item before ih =>
      simp only [List.cons_append, Packed, ih]
      constructor
      · rintro ⟨le, ordered, middle, left, right⟩
        exact ⟨middle, ⟨le, ordered, left⟩, right⟩
      · rintro ⟨middle, ⟨le, ordered, left⟩, right⟩
        exact ⟨le, ordered, middle, left, right⟩

theorem sublist {items' : List Item} (packed : Packed start stop lower upper items)
    (less : items'.Sublist items) : Packed start stop lower upper items' := by
  induction less generalizing lower with
  | slnil => exact packed
  | cons item _ ih => exact ih (packed.2.2.mono (packed.1.trans packed.2.1))
  | cons_cons item _ ih => exact ⟨packed.1, packed.2.1, ih packed.2.2⟩

/-- What the items occupy fits in the window. -/
theorem occupied_le (packed : Packed start stop lower upper items) :
    lower + occupied start stop items ≤ upper := by
  induction items generalizing lower with
  | nil => exact packed
  | cons item items ih =>
      rcases packed with ⟨le, ordered, rest⟩
      have := ih rest
      rw [occupied]
      omega

/-- A gap fits in the window beside the items. -/
theorem gap_le (packed : Packed start stop lower upper items)
    (gap : Gap start stop size lower upper items) :
    lower + occupied start stop items + size ≤ upper := by
  induction items generalizing lower with
  | nil => exact gap
  | cons item items ih =>
      rcases packed with ⟨le, ordered, rest⟩
      rw [occupied]
      rcases gap with first | later
      · have := rest.occupied_le
        omega
      · have := ih rest later
        omega

end Packed

@[simp]
theorem occupied_cons : occupied start stop (item :: items) =
    stop item - start item + occupied start stop items :=
  rfl

theorem occupied_perm {items' : List Item} (same : items.Perm items') :
    occupied start stop items = occupied start stop items' := by
  induction same with
  | nil => rfl
  | cons item _ ih => rw [occupied_cons, occupied_cons, ih]
  | swap item other items =>
      simp only [occupied_cons]
      omega
  | trans _ _ first second => exact first.trans second

/-- There is a gap exactly when some places of the window are outside all items. -/
theorem gap_iff (packed : Packed start stop lower upper items) :
    Gap start stop size lower upper items ↔
      ∃ place, lower ≤ place ∧ place + size ≤ upper ∧
        ∀ item ∈ items, place + size ≤ start item ∨ stop item ≤ place := by
  induction items generalizing lower with
  | nil =>
      constructor
      · exact fun room => ⟨lower, Nat.le_refl lower, room, fun item member => by cases member⟩
      · rintro ⟨place, le, room, _⟩
        exact (Nat.add_le_add_right le size).trans room
  | cons item items ih =>
      rcases packed with ⟨le, ordered, rest⟩
      simp only [Gap, ih rest]
      constructor
      · rintro (room | ⟨place, above, room, free⟩)
        · have within := rest.lower_le_upper
          refine ⟨lower, Nat.le_refl lower, by omega, List.forall_mem_cons.mpr ⟨Or.inl room, ?_⟩⟩
          intro other later
          have := (rest.of_mem later).1
          exact Or.inl (by omega)
        · refine ⟨place, by omega, room, List.forall_mem_cons.mpr ⟨Or.inr above, free⟩⟩
      · rintro ⟨place, above, room, free⟩
        rcases List.forall_mem_cons.mp free with ⟨here | here, later⟩
        · exact Or.inl (by omega)
        · exact Or.inr ⟨place, here, room, later⟩

end Intervals
