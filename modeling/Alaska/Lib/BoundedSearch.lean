import Mathlib.Data.Fintype.Card
import Mathlib.Data.Set.Finite.Basic

/-!
# Breadth-first search with a bounded queue and no marks

A search takes the first node of a queue and appends its children, as many as the bound on
the queue allows. It does not remember what it has visited, so it unfolds the graph. It ends
if no cycle can be reached through the children it has room for, and where the bound is never
passed it ends only then; a cycle of first children is followed forever.
-/

namespace BoundedSearch

universe u

variable {α : Type u}

/-- The queue after a number of visits. -/
def search (children : α → List α) (bound : Nat) : Nat → List α → List α
  | 0, queue => queue
  | _ + 1, [] => []
  | visits + 1, a :: rest =>
      search children bound visits (rest ++ (children a).take (bound - rest.length))

/-- `b` is a child of `a`. -/
def Edge (children : α → List α) (b a : α) : Prop := b ∈ children a

/-- The trees below the nodes of the queue have so many nodes. -/
inductive Unfolds (children : α → List α) : List α → Nat → Prop where
  | nil : Unfolds children [] 0
  | cons {a : α} {rest : List α} {below beside : Nat} (tree : Unfolds children (children a) below)
      (others : Unfolds children rest beside) :
      Unfolds children (a :: rest) (below + beside + 1)

variable {children : α → List α} {queue left right : List α} {bound visits count : Nat}

@[simp]
theorem search_nil : search children bound visits [] = [] := by
  cases visits with
  | zero => rfl
  | succ visits => rfl

namespace Unfolds

theorem append {count' : Nat} (first : Unfolds children left count)
    (second : Unfolds children right count') :
    Unfolds children (left ++ right) (count + count') := by
  induction first with
  | nil => simpa using second
  | cons tree others _ ih =>
      have joined := Unfolds.cons tree ih
      rwa [← Nat.add_assoc, Nat.add_right_comm] at joined

theorem take (unfolds : Unfolds children queue count) (number : Nat) :
    ∃ fewer ≤ count, Unfolds children (queue.take number) fewer := by
  induction unfolds generalizing number with
  | nil => exact ⟨0, Nat.le_refl _, by simpa using Unfolds.nil⟩
  | cons tree others _ ih =>
      cases number with
      | zero => exact ⟨0, Nat.zero_le _, by simpa using Unfolds.nil⟩
      | succ number =>
          rcases ih number with ⟨fewer, le, rest⟩
          exact ⟨_, by omega, .cons tree rest⟩

end Unfolds

/-- No cycle can be reached from the node. -/
def Acyclic (children : α → List α) (a : α) : Prop :=
  ∀ b, Relation.ReflTransGen (fun x y => y ∈ children x) a b →
    ¬ Relation.TransGen (fun x y => y ∈ children x) b b

end BoundedSearch
