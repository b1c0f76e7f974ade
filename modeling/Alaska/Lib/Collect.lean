import Mathlib.Data.List.Basic

/-!
# Collecting results

`gather` runs a function that can fail on every element of a list and puts the results
together. It fails when one of them fails.
-/

namespace Collect

universe u v

variable {α : Type u} {β : Type v}

def gather (f : α → Option (List β)) : List α → Option (List β)
  | [] => some []
  | a :: rest => do
      let first ← f a
      let others ← gather f rest
      some (first ++ others)

variable {f : α → Option (List β)} {l : List α} {results : List β}

theorem gather_isSome : (gather f l).isSome ↔ ∀ a ∈ l, (f a).isSome := by
  induction l with
  | nil => simp [gather]
  | cons a rest ih =>
      rw [List.forall_mem_cons, ← ih]
      cases first : f a with
      | none => simp [gather, first]
      | some _ =>
          cases others : gather f rest with
          | none => simp [gather, others]
          | some _ => simp [gather, first, others]

theorem mem_gather (gathered : gather f l = some results) {b : β} :
    b ∈ results ↔ ∃ a ∈ l, ∃ found, f a = some found ∧ b ∈ found := by
  induction l generalizing results with
  | nil =>
      obtain rfl := Option.some.inj gathered
      simp
  | cons a rest ih =>
      simp only [gather, Option.bind_eq_bind, Option.bind_eq_some_iff, Option.some.injEq]
        at gathered
      rcases gathered with ⟨first, isFirst, others, isOthers, rfl⟩
      simp [isFirst, ih isOthers]

end Collect
