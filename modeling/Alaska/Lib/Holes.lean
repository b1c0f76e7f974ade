import Mathlib.Data.List.Basic

/-!
# Holes in a list

The elements of a list that a predicate does not keep are its holes. `inversions` counts the
pairs of a hole and a later element that is kept: a compaction that moves kept elements
forward, one hole at a time, is done when there are none.
-/

namespace Holes

universe u

variable {α : Type u}

/-- The pairs of a hole and a later element that is kept. -/
def inversions (kept : α → Bool) : List α → Nat
  | [] => 0
  | a :: rest => (if kept a then 0 else rest.countP kept) + inversions kept rest

variable {kept : α → Bool} {xs ys : List α} {l r l' r' : α}

theorem inversions_append :
    inversions kept (xs ++ ys) =
      inversions kept xs + xs.countP (fun a => !kept a) * ys.countP kept +
        inversions kept ys := by
  induction xs with
  | nil => simp [inversions]
  | cons a xs ih =>
      simp only [List.cons_append, inversions, ih, List.countP_append, List.countP_cons]
      cases kept a with
      | true => simp
      | false =>
          simp only [Bool.false_eq_true, if_false, Bool.not_false, if_true, Nat.add_mul]
          omega

/-- A kept element that changes places with the hole before it leaves one pair less. -/
theorem inversions_swap (left : kept l = false) (right : kept r = true) (left' : kept l' = true)
    (right' : kept r' = false) :
    inversions kept (xs ++ l' :: r' :: ys) + 1 = inversions kept (xs ++ l :: r :: ys) := by
  simp only [inversions_append, inversions, List.countP_cons, left, right, left', right',
    Bool.false_eq_true, if_false, if_true, Nat.add_zero]
  omega

theorem countP_holes (holes : ∀ a ∈ ys, kept a = false) : ys.countP kept = 0 := by
  rw [List.countP_eq_zero]
  intro a member
  simp [holes a member]

theorem inversions_holes (holes : ∀ a ∈ ys, kept a = false) : inversions kept ys = 0 := by
  induction ys with
  | nil => rfl
  | cons a ys ih =>
      have rest : ∀ other ∈ ys, kept other = false :=
        fun other member => holes other (List.mem_cons_of_mem _ member)
      simp [inversions, countP_holes rest, ih rest]

/-- Holes at the end are in no pair. -/
theorem inversions_append_holes (holes : ∀ a ∈ ys, kept a = false) :
    inversions kept (xs ++ ys) = inversions kept xs := by
  rw [inversions_append, countP_holes holes, inversions_holes holes]
  omega

end Holes
