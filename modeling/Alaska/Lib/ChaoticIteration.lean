import Mathlib.Logic.Relation
import Mathlib.Order.Bounds.Basic
import Mathlib.Order.WellFounded

/-!
# Chaotic iteration

A sweep takes steps one after another; each step returns the new state and whether it made a
change, or fails. The iteration repeats the sweep until one makes no change. It ends, or gets
to a step that fails, when changes raise a rank that has no infinite ascents
(`exists_lastSweep_or_fails`), and a state that solves a monotone system is the least solution
above the start if no step leaves the bound of a solution (`isLeast_of_solves`).
-/

namespace ChaoticIteration

universe u v w

variable {State : Type u} {Label : Type v}

/-- Takes the steps of a list and returns whether one of them made a change. -/
def sweep (step : Label → State → Option (State × Bool)) :
    List Label → State → Option (State × Bool)
  | [], s => some (s, false)
  | label :: labels, s =>
      (step label s).bind fun first =>
        (sweep step labels first.1).map fun rest => (rest.1, first.2 || rest.2)

/-- What an iteration has come to. -/
inductive Outcome (State : Type u) where
  | running
  | failed
  | stopped (final : State)

/-- Repeats a sweep until it makes no change, at most a given number of times. -/
def untilUnchanged (pass : State → Option (State × Bool)) : Nat → State → Outcome State
  | 0, _ => .running
  | passes + 1, s =>
      match pass s with
      | none => .failed
      | some (t, true) => untilUnchanged pass passes t
      | some (t, false) => .stopped t

/-- The iteration from `s` gets to `t` at the beginning of a sweep. -/
def Continues (pass : State → Option (State × Bool)) : State → State → Prop :=
  Relation.ReflTransGen fun s t => pass s = some (t, true)

/-- The sweep from `last` is the one that ends the iteration from `s`, in `final`. -/
def LastSweep (pass : State → Option (State × Bool)) (s last final : State) : Prop :=
  Continues pass s last ∧ pass last = some (final, false)

variable {step : Label → State → Option (State × Bool)} {pass : State → Option (State × Bool)}
  {labels before after : List Label} {label : Label} {s t last last' final final' : State}
  {flag : Bool}

/-! ## Sweeps -/

theorem sweep_cons_some :
    sweep step (label :: labels) s = some (t, flag) ↔ ∃ next first rest,
      step label s = some (next, first) ∧ sweep step labels next = some (t, rest) ∧
        flag = (first || rest) := by
  simp only [sweep, Option.bind_eq_some_iff, Option.map_eq_some_iff, Prod.exists, Prod.mk.injEq]
  constructor
  · rintro ⟨next, first, stepped, _, rest, swept, rfl, rfl⟩
    exact ⟨next, first, rest, stepped, swept, rfl⟩
  · rintro ⟨next, first, rest, stepped, swept, rfl⟩
    exact ⟨next, first, stepped, t, rest, swept, rfl, rfl⟩

theorem sweep_append_some :
    sweep step (before ++ after) s = some (t, flag) ↔ ∃ middle first rest,
      sweep step before s = some (middle, first) ∧ sweep step after middle = some (t, rest) ∧
        flag = (first || rest) := by
  induction before generalizing s flag with
  | nil => cases flag <;> simp [sweep]
  | cons label before ih =>
      simp only [List.cons_append, sweep_cons_some, ih]
      constructor
      · rintro ⟨next, first, _, stepped, ⟨middle, second, rest, swept, others, rfl⟩, rfl⟩
        exact ⟨middle, first || second, rest, ⟨next, first, second, stepped, swept, rfl⟩, others,
          (Bool.or_assoc ..).symm⟩
      · rintro ⟨middle, _, rest, ⟨next, first, second, stepped, swept, rfl⟩, others, rfl⟩
        exact ⟨next, first, second || rest, stepped, ⟨middle, second, rest, swept, others, rfl⟩,
          Bool.or_assoc ..⟩

/-- A property kept by every step is kept by a sweep. -/
theorem sweep_invariant (property : State → Prop)
    (preserved : ∀ label ∈ labels, ∀ s t flag, property s → step label s = some (t, flag) →
      property t)
    (start : property s) (swept : sweep step labels s = some (t, flag)) : property t := by
  induction labels generalizing s flag with
  | nil =>
      simp only [sweep, Option.some.injEq, Prod.mk.injEq] at swept
      exact swept.1 ▸ start
  | cons label labels ih =>
      rcases sweep_cons_some.mp swept with ⟨next, first, rest, stepped, swept, _⟩
      exact ih (fun label member => preserved label (List.mem_cons_of_mem _ member))
        (preserved label List.mem_cons_self s next first start stepped) swept

/-- A sweep gets to each of its labels. -/
theorem sweep_split (swept : sweep step labels s = some (t, flag))
    (split : labels = before ++ label :: after) :
    ∃ middle next first second rest, sweep step before s = some (middle, first) ∧
      step label middle = some (next, second) ∧ sweep step after next = some (t, rest) ∧
      flag = (first || (second || rest)) := by
  subst split
  rcases sweep_append_some.mp swept with ⟨middle, first, _, reached, others, rfl⟩
  rcases sweep_cons_some.mp others with ⟨next, second, rest, stepped, remaining, rfl⟩
  exact ⟨middle, next, first, second, rest, reached, stepped, remaining, rfl⟩

/-- In a sweep without a change no step makes one. -/
theorem sweep_unchanged (swept : sweep step labels s = some (t, false))
    (split : labels = before ++ label :: after) :
    ∃ middle next, sweep step before s = some (middle, false) ∧
      step label middle = some (next, false) ∧ sweep step after next = some (t, false) := by
  rcases sweep_split swept split with
    ⟨middle, next, first, second, rest, reached, stepped, swept, none⟩
  simp only [Bool.false_eq, Bool.or_eq_false_iff] at none
  rcases none with ⟨rfl, rfl, rfl⟩
  exact ⟨middle, next, reached, stepped, swept⟩

/-- What holds after a sweep and not before it was brought about by one of the steps. -/
theorem sweep_turn (property : State → Prop) (start : ¬ property s)
    (swept : sweep step labels s = some (t, flag)) (holds : property t) :
    ∃ before label after middle next first second, labels = before ++ label :: after ∧
      sweep step before s = some (middle, first) ∧ step label middle = some (next, second) ∧
      ¬ property middle ∧ property next := by
  induction labels generalizing s flag with
  | nil =>
      simp only [sweep, Option.some.injEq, Prod.mk.injEq] at swept
      exact absurd (swept.1 ▸ holds) start
  | cons label labels ih =>
      rcases sweep_cons_some.mp swept with ⟨next, first, rest, stepped, swept, _⟩
      by_cases now : property next
      · exact ⟨[], label, labels, s, next, false, first, rfl, rfl, stepped, start, now⟩
      · rcases ih now swept with
          ⟨before, label', after, middle, next', second, third, split, reached, stepped', turned⟩
        exact ⟨label :: before, label', after, middle, next', first || second, third,
          by rw [split]; rfl, sweep_cons_some.mpr ⟨next, first, second, stepped, reached, rfl⟩,
          stepped', turned⟩

/-- A sweep fails at one of its steps. -/
theorem sweep_fails (failed : sweep step labels s = none) :
    ∃ before label after middle first, labels = before ++ label :: after ∧
      sweep step before s = some (middle, first) ∧ step label middle = none := by
  induction labels generalizing s with
  | nil => simp [sweep] at failed
  | cons label labels ih =>
      cases stepped : step label s with
      | none => exact ⟨[], label, labels, s, false, rfl, rfl, stepped⟩
      | some first =>
          simp only [sweep, stepped, Option.bind_some, Option.map_eq_none_iff] at failed
          rcases ih failed with ⟨before, label', after, middle, second, split, reached, fails⟩
          exact ⟨label :: before, label', after, middle, first.2 || second, by rw [split]; rfl,
            sweep_cons_some.mpr ⟨first.1, first.2, second, stepped, reached, rfl⟩, fails⟩

/-- A step that reports a change exactly when it raises a value. -/
structure Raises {Value : Type w} [Preorder Value] (value : State → Value)
    (property : State → Prop) (f : State → Option (State × Bool)) : Prop where
  keeps : ∀ s t flag, property s → f s = some (t, flag) → property t
  unchanged : ∀ s t, property s → f s = some (t, false) → value t = value s
  changed : ∀ s t, property s → f s = some (t, true) → value s < value t

section Raises

variable {Value : Type w} [Preorder Value] {value : State → Value} {property : State → Prop}
  {f : State → Option (State × Bool)}

theorem Raises.le (raises : Raises value property f) (holds : property s)
    (stepped : f s = some (t, flag)) : value s ≤ value t := by
  cases flag with
  | false => exact (raises.unchanged s t holds stepped).ge
  | true => exact (raises.changed s t holds stepped).le

theorem Raises.sweep (raises : ∀ label ∈ labels, Raises value property (step label)) :
    Raises value property (sweep step labels) := by
  induction labels with
  | nil =>
      refine ⟨?_, ?_, ?_⟩
      · rintro s _ _ holds ⟨⟩
        exact holds
      · rintro s _ _ ⟨⟩
        rfl
      · rintro s t _ ⟨⟩
  | cons label labels ih =>
      have first := raises label List.mem_cons_self
      have rest := ih fun label member => raises label (List.mem_cons_of_mem _ member)
      refine ⟨?_, ?_, ?_⟩
      · intro s t flag holds swept
        rcases sweep_cons_some.mp swept with ⟨next, one, others, stepped, swept, _⟩
        exact rest.keeps next t others (first.keeps s next one holds stepped) swept
      · intro s t holds swept
        rcases sweep_unchanged swept (List.nil_append _).symm with ⟨_, next, ⟨⟩, stepped, swept⟩
        exact (rest.unchanged next t (first.keeps s next false holds stepped) swept).trans
          (first.unchanged s next holds stepped)
      · intro s t holds swept
        rcases sweep_cons_some.mp swept with ⟨next, one, others, stepped, swept, flag⟩
        have kept := first.keeps s next one holds stepped
        cases one with
        | true => exact (first.changed s next holds stepped).trans_le (rest.le kept swept)
        | false =>
            rw [Bool.false_or] at flag
            subst flag
            exact (first.le holds stepped).trans_lt (rest.changed next t kept swept)

end Raises

/-! ## The iteration -/

/-- The last sweep is still to come wherever the iteration has got to. -/
theorem LastSweep.of_continues (ends : LastSweep pass s last final)
    (continues : Continues pass s t) :
    LastSweep pass t last final := by
  induction continues with
  | refl => exact ends
  | tail _ next ih =>
      rcases ih.1.cases_head with rfl | ⟨_, changed, rest⟩
      · have stops := ih.2
        rw [next] at stops
        cases stops
      · rw [next] at changed
        cases changed
        exact ⟨rest, ih.2⟩

theorem LastSweep.passes (ends : LastSweep pass s last final) :
    ∃ t flag, pass s = some (t, flag) := by
  rcases ends.1.cases_head with rfl | ⟨next, changed, _⟩
  · exact ⟨final, false, ends.2⟩
  · exact ⟨next, true, changed⟩

theorem LastSweep.unique (left : LastSweep pass s last final)
    (right : LastSweep pass s last' final') : last = last' ∧ final = final' := by
  rcases left with ⟨run, stops⟩
  induction run using Relation.ReflTransGen.head_induction_on with
  | refl =>
      rcases right with ⟨run', stops'⟩
      rcases run'.cases_head with rfl | ⟨_, changed, _⟩
      · exact ⟨rfl, congrArg Prod.fst (Option.some.inj (stops.symm.trans stops'))⟩
      · rw [stops] at changed
        cases changed
  | head first _ ih =>
      apply ih
      rcases right with ⟨run', stops'⟩
      rcases run'.cases_head with rfl | ⟨next, changed, rest⟩
      · rw [first] at stops'
        cases stops'
      · rw [first] at changed
        cases changed
        exact ⟨rest, stops'⟩

theorem untilUnchanged_of_lastSweep (ends : LastSweep pass s last final) :
    ∃ passes, untilUnchanged pass passes s = .stopped final := by
  rcases ends with ⟨run, stops⟩
  induction run using Relation.ReflTransGen.head_induction_on with
  | refl => exact ⟨1, by simp only [untilUnchanged, stops]⟩
  | head first _ ih =>
      rcases ih with ⟨passes, result⟩
      exact ⟨passes + 1, by simp only [untilUnchanged, first, result]⟩

theorem lastSweep_of_untilUnchanged {passes : Nat}
    (result : untilUnchanged pass passes s = .stopped t) : ∃ last, LastSweep pass s last t := by
  induction passes generalizing s with
  | zero => cases result
  | succ passes ih =>
      simp only [untilUnchanged] at result
      split at result
      · cases result
      · next changed =>
          rcases ih result with ⟨last, run, stops⟩
          exact ⟨last, .head changed run, stops⟩
      · next unchanged =>
          cases result
          exact ⟨s, .refl, unchanged⟩

/-- A property kept by the sweep holds when the last sweep begins. -/
theorem Continues.invariant (property : State → Prop)
    (preserved : ∀ s t flag, property s → pass s = some (t, flag) → property t)
    (continues : Continues pass s t) (start : property s) : property t := by
  induction continues with
  | refl => exact start
  | tail _ next ih => exact preserved _ _ _ ih next

/-- The iteration ends or fails when every change raises a rank without infinite ascents. -/
theorem exists_lastSweep_or_fails {Rank : Type w} [Preorder Rank] [WellFoundedGT Rank]
    (rank : State → Rank) (property : State → Prop)
    (preserved : ∀ s t flag, property s → pass s = some (t, flag) → property t)
    (raises : ∀ s t, property s → pass s = some (t, true) → rank s < rank t)
    (start : property s) :
    ∃ last, Continues pass s last ∧
      (pass last = none ∨ ∃ final, pass last = some (final, false)) := by
  induction inv : rank s using WellFoundedGT.induction generalizing s with
  | ind r ih =>
      cases passed : pass s with
      | none => exact ⟨s, .refl, Or.inl passed⟩
      | some outcome =>
          rcases outcome with ⟨t, flag⟩
          cases flag with
          | false => exact ⟨s, .refl, Or.inr ⟨t, passed⟩⟩
          | true =>
              have above : r < rank t := inv ▸ raises s t start passed
              rcases ih _ above (preserved s t true start passed) rfl with ⟨last, run, stops⟩
              exact ⟨last, .head passed run, stops⟩

/-! ## Least solutions -/

section Systems

variable {Index : Type v} {Value : Type w} [PartialOrder Value]

/-- A solution of a system of constraints, each of which bounds a component from below. -/
def Solves (constraints : Index → ((Index → Value) → Value) → Prop) (x : Index → Value) : Prop :=
  ∀ index bound, constraints index bound → bound x ≤ x index

variable {constraints : Index → ((Index → Value) → Value) → Prop}
  {value : State → Index → Value}

/--
An iteration that raises its values and never passes a solution ends in the least solution
above the start, if it ends in a solution.
-/
theorem isLeast_of_solves {property : State → Prop} (raises : Raises value property pass)
    (below : ∀ s t flag y, property s → Solves constraints y → value s ≤ y →
      pass s = some (t, flag) → value t ≤ y)
    (start : property s) (ends : LastSweep pass s last final)
    (solves : Solves constraints (value final)) :
    IsLeast {y | Solves constraints y ∧ value s ≤ y} (value final) := by
  have kept : property last := ends.1.invariant property raises.keeps start
  constructor
  · refine ⟨solves, le_trans ?_ (raises.le kept ends.2)⟩
    refine (ends.1.invariant (fun t => property t ∧ value s ≤ value t) ?_ ⟨start, le_rfl⟩).2
    rintro t t' flag ⟨holds, above⟩ passed
    exact ⟨raises.keeps t t' flag holds passed, above.trans (raises.le holds passed)⟩
  · rintro y ⟨solution, above⟩
    refine below last final false y kept solution ?_ ends.2
    refine (ends.1.invariant (fun t => property t ∧ value t ≤ y) ?_ ⟨start, above⟩).2
    rintro t t' flag ⟨holds, bounded⟩ passed
    exact ⟨raises.keeps t t' flag holds passed, below t t' flag y holds solution bounded passed⟩

end Systems

end ChaoticIteration
