import Mathlib.Order.WellFounded
import Mathlib.Order.WithBot
import Mathlib.Order.Lattice
import Mathlib.Data.Set.Card

/-!
# Forest orders

In a forest the elements below an element form a chain. Two elements then have a least upper
bound as soon as they have any upper bound, namely the larger one, so a new top makes a
forest a semilattice. A forest in which every element has finitely many elements above it
has no infinite ascents.
-/

universe u

/-- The elements below an element are comparable. -/
class ForestOrder (α : Type u) [PartialOrder α] : Prop where
  total_below : ∀ {a b c : α}, a ≤ c → b ≤ c → a ≤ b ∨ b ≤ a

namespace ForestOrder

variable {α : Type u} [PartialOrder α] [DecidableLE α]

/-- The larger of two comparable elements, and the top for others. -/
def join : WithTop α → WithTop α → WithTop α
  | ⊤, _ => ⊤
  | _, ⊤ => ⊤
  | (a : α), (b : α) => if a ≤ b then b else if b ≤ a then a else ⊤

theorem join_coe (a b : α) :
    join (a : WithTop α) b =
      if a ≤ b then (b : WithTop α) else if b ≤ a then (a : WithTop α) else ⊤ :=
  rfl

variable {a b c : WithTop α}

theorem le_join_left : a ≤ join a b := by
  cases a with
  | top => exact le_top
  | coe a =>
      cases b with
      | top => exact le_top
      | coe b =>
          rw [join_coe]
          split
          · next le => exact WithTop.coe_le_coe.mpr le
          · split
            · exact le_rfl
            · exact le_top

theorem le_join_right : b ≤ join a b := by
  cases a with
  | top => exact le_top
  | coe a =>
      cases b with
      | top => exact le_top
      | coe b =>
          rw [join_coe]
          split
          · exact le_rfl
          · split
            · next le => exact WithTop.coe_le_coe.mpr le
            · exact le_top

theorem join_le [ForestOrder α] (left : a ≤ c) (right : b ≤ c) : join a b ≤ c := by
  cases c with
  | top => exact le_top
  | coe c =>
      rcases WithTop.le_coe_iff.mp left with ⟨a, rfl, aLe⟩
      rcases WithTop.le_coe_iff.mp right with ⟨b, rfl, bLe⟩
      rw [join_coe]
      split
      · exact right
      · next notLe =>
          -- the two are below `c`, so they are comparable
          have le := (total_below aLe bLe).resolve_left notLe
          rw [if_pos le]
          exact left

/-- A forest with a new top is a semilattice. -/
abbrev semilatticeSup (α : Type u) [PartialOrder α] [DecidableLE α] [ForestOrder α] :
    SemilatticeSup (WithTop α) where
  sup := join
  le_sup_left _ _ := le_join_left
  le_sup_right _ _ := le_join_right
  sup_le _ _ _ left right := join_le left right

end ForestOrder

/-- With finitely many elements above each element there are no infinite ascents. -/
theorem wellFoundedGT_of_finite_Ici {α : Type u} [PartialOrder α]
    (finite : ∀ a : α, (Set.Ici a).Finite) : WellFoundedGT α := by
  have shrinks : ∀ a b : α, b < a → (Set.Ici a).ncard < (Set.Ici b).ncard := fun a b lt =>
    Set.ncard_lt_ncard (Set.Ici_ssubset_Ici.mpr lt) (finite b)
  exact ⟨Subrelation.wf (fun {a b} lt => shrinks a b lt)
    (InvImage.wf (fun a : α => (Set.Ici a).ncard) Nat.lt_wfRel.wf)⟩
