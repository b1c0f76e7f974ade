import Mathlib.Computability.Language
import Mathlib.Logic.Relation

/-!
# State elimination

A graph whose edges are labelled with languages; `0` stands for no edge. `Along` is the language
of the paths from one node to another. `eliminate` takes a node out of the graph and replaces
the paths through it by edges, which leaves the languages between the other nodes as they were.
-/

namespace StateElimination

universe u v

open Computability

variable {Node : Type u} {Letter : Type v}

/-- The words that label the paths from one node to another. -/
inductive Along (edge : Node → Node → Language Letter) : Node → Node → List Letter → Prop where
  | refl (x : Node) : Along edge x x []
  | head {x y z : Node} {word rest : List Letter} :
      word ∈ edge x y → Along edge y z rest → Along edge x z (word ++ rest)

variable {edge edge' : Node → Node → Language Letter} {x y z n : Node}
  {word rest : List Letter}

theorem Along.single (step : word ∈ edge x y) : Along edge x y word := by
  simpa using Along.head step (.refl y)

theorem Along.trans (first : Along edge x y word) (second : Along edge y z rest) :
    Along edge x z (word ++ rest) := by
  induction first with
  | refl => exact second
  | head step _ ih =>
      rw [List.append_assoc]
      exact .head step (ih second)

/-- Edges may be replaced by paths. -/
theorem Along.of_edges (paths : ∀ x y word, word ∈ edge x y → Along edge' x y word)
    (along : Along edge x y word) : Along edge' x y word := by
  induction along with
  | refl x => exact .refl x
  | head step _ ih => exact (paths _ _ _ step).trans ih

/-- The empty word leads along the edges that have it. -/
theorem along_nil_iff :
    Along edge x y [] ↔ Relation.ReflTransGen (fun x y => [] ∈ edge x y) x y := by
  constructor
  · intro along
    generalize nil : ([] : List Letter) = word at along
    induction along with
    | refl => exact .refl
    | head step _ ih =>
        rcases List.append_eq_nil_iff.mp nil.symm with ⟨rfl, rfl⟩
        exact .head step (ih rfl)
  · intro path
    induction path using Relation.ReflTransGen.head_induction_on with
    | refl => exact .refl y
    | head step _ ih => exact .head step ih

/-- Dropping the empty word from some edges changes nothing when other edges still have it. -/
theorem along_iff_of_dropped {dropped : Node → Node → Prop}
    (kept : ∀ x y word, word ∈ edge' x y → word ∈ edge x y)
    (only : ∀ x y word, word ∈ edge x y → word ∈ edge' x y ∨ word = [] ∧ dropped x y)
    (detour : ∀ x y, dropped x y → Relation.ReflTransGen (fun x y => [] ∈ edge' x y) x y) :
    Along edge x y word ↔ Along edge' x y word := by
  constructor
  · apply Along.of_edges
    intro x y word step
    rcases only x y word step with step' | ⟨rfl, isDropped⟩
    · exact .single step'
    · exact along_nil_iff.mpr (detour x y isDropped)
  · apply Along.of_edges
    exact fun x y word step => .single (kept x y word step)

/-- The empty word at a loop is of no use. -/
theorem along_iff_of_loop (loop : ∀ word ∈ edge n n, word = [])
    (other : ∀ x y, ¬ (x = n ∧ y = n) → edge' x y = edge x y)
    (removed : edge' n n = 0) : Along edge x y word ↔ Along edge' x y word := by
  constructor
  · apply Along.of_edges
    intro x y word step
    by_cases same : x = n ∧ y = n
    · rcases same with ⟨rfl, rfl⟩
      rw [loop word step]
      exact .refl _
    · exact .single (by rwa [other x y same])
  · apply Along.of_edges
    intro x y word step
    by_cases same : x = n ∧ y = n
    · rcases same with ⟨rfl, rfl⟩
      rw [removed] at step
      exact (Language.notMem_zero word step).elim
    · exact .single (by rwa [other x y same] at step)

/-- The graph without the node `n`. -/
def eliminate (edge : Node → Node → Language Letter) (n : Node) : Node → Node → Language Letter :=
  fun x y => {word | (x ≠ n ∧ y ≠ n) ∧ word ∈ edge x y + edge x n * (edge n n)∗ * edge n y}

theorem mem_eliminate : word ∈ eliminate edge n x y ↔
    (x ≠ n ∧ y ≠ n) ∧ word ∈ edge x y + edge x n * (edge n n)∗ * edge n y :=
  .rfl

/-- The repetitions of a loop are paths. -/
theorem along_kstar (repeated : word ∈ (edge n n)∗) : Along edge n n word := by
  rcases Language.mem_kstar.mp repeated with ⟨words, rfl, each⟩
  clear repeated
  induction words with
  | nil => exact .refl n
  | cons first words ih =>
      rw [List.flatten_cons]
      apply Along.head (each first (by simp))
      exact ih fun u member => each u (by simp [member])

/-- A path from outside is one of the smaller graph, and a path from the eliminated node
leaves it after some repetitions of its loop. -/
theorem Along.eliminated (along : Along edge x y word) (target : y ≠ n) :
    (x ≠ n → Along (eliminate edge n) x y word) ∧
      (x = n → ∃ z first rest, z ≠ n ∧ first ∈ (edge n n)∗ * edge n z ∧
        Along (eliminate edge n) z y rest ∧ word = first ++ rest) := by
  induction along with
  | refl y => exact ⟨fun _ => .refl y, fun same => (target same).elim⟩
  | @head x m y word rest step _ ih =>
      rcases ih target with ⟨outside, inside⟩
      by_cases through : m = n
      · subst through
        rcases inside rfl with ⟨z, first, rest, other, leaves, after, rfl⟩
        constructor
        · intro source
          rw [← List.append_assoc]
          refine .head ⟨⟨source, other⟩, Or.inr ?_⟩ after
          rw [mul_assoc]
          exact Language.mem_mul.mpr ⟨word, step, first, leaves, rfl⟩
        · rintro rfl
          refine ⟨z, word ++ first, rest, other, ?_, after, by simp⟩
          rcases Language.mem_mul.mp leaves with ⟨loops, repeated, last, leave, rfl⟩
          rw [← List.append_assoc]
          refine Language.mem_mul.mpr ⟨word ++ loops, ?_, last, leave, rfl⟩
          rcases Language.mem_kstar.mp repeated with ⟨words, rfl, each⟩
          refine Language.mem_kstar.mpr ⟨word :: words, by simp, ?_⟩
          intro u member
          rcases List.mem_cons.mp member with rfl | member
          · exact step
          · exact each u member
      · have after := outside through
        constructor
        · exact fun source => .head ⟨⟨source, through⟩, Or.inl step⟩ after
        · rintro rfl
          refine ⟨m, word, rest, through, ?_, after, rfl⟩
          exact Language.mem_mul.mpr ⟨[], Language.nil_mem_kstar _, word, step, rfl⟩

/-- Elimination keeps the languages between the other nodes. -/
theorem along_eliminate (source : x ≠ n) (target : y ≠ n) :
    Along (eliminate edge n) x y word ↔ Along edge x y word := by
  constructor
  · apply Along.of_edges
    rintro x y word ⟨_, direct | through⟩
    · exact .single direct
    · rcases Language.mem_mul.mp through with ⟨enters, prior, last, leave, rfl⟩
      rcases Language.mem_mul.mp prior with ⟨first, enter, loops, repeated, rfl⟩
      exact ((Along.single enter).trans (along_kstar repeated)).trans (.single leave)
  · exact fun along => (along.eliminated target).1 source

end StateElimination
