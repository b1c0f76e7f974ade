import Mathlib.Logic.Relation

/-!
# Runs of labelled transition systems

A system is a step relation `step : State → Label → State → Prop`. A run is the
sequence of labels of consecutive steps. Safety properties are stated about every
run and proved by `Run.invariant`; a property that only holds of some runs is
stated about the runs of a restricted step relation (`Restrict`).
-/

namespace Lts

universe u v

variable {State : Type u} {Label : Type v}

/-- `Run step s labels t`: the steps labelled by `labels` lead from `s` to `t`. -/
inductive Run (step : State → Label → State → Prop) : State → List Label → State → Prop where
  | nil (s : State) : Run step s [] s
  | cons {s middle t : State} {label : Label} {labels : List Label}
      (head : step s label middle) (tail : Run step middle labels t) :
      Run step s (label :: labels) t

/-- The steps of `step` whose source state and label meet `condition`. -/
def Restrict (step : State → Label → State → Prop) (condition : State → Label → Prop) :
    State → Label → State → Prop :=
  fun s label t => step s label t ∧ condition s label

variable {step step' : State → Label → State → Prop}

/-- A property kept by every step is kept by every run. -/
theorem Run.invariant (property : State → Prop)
    (preserved : ∀ s label t, property s → step s label t → property t)
    {s t : State} {labels : List Label} (run : Run step s labels t) (start : property s) :
    property t := by
  induction run with
  | nil => exact start
  | cons head tail ih => exact ih (preserved _ _ _ start head)

/-- Runs of a smaller step relation are runs of a larger one. -/
theorem Run.mono (included : ∀ s label t, step s label t → step' s label t)
    {s t : State} {labels : List Label} (run : Run step s labels t) : Run step' s labels t := by
  induction run with
  | nil => exact .nil _
  | cons head tail ih => exact .cons (included _ _ _ head) ih

theorem Run.append {s middle t : State} {first second : List Label}
    (left : Run step s first middle) (right : Run step middle second t) :
    Run step s (first ++ second) t := by
  induction left with
  | nil => exact right
  | cons head tail ih => exact .cons head (ih right)

theorem Run.of_append {s t : State} {first second : List Label}
    (run : Run step s (first ++ second) t) :
    ∃ middle, Run step s first middle ∧ Run step middle second t := by
  induction first generalizing s with
  | nil => exact ⟨s, .nil s, run⟩
  | cons label first ih =>
      cases run with
      | cons head tail =>
          rcases ih tail with ⟨middle, left, right⟩
          exact ⟨middle, .cons head left, right⟩

/-- The steps of a deterministic, partial step function. -/
def ofFunction (next : State → Label → Option State) : State → Label → State → Prop :=
  fun s label t => next s label = some t

/-- Replays the labels with a partial step function. -/
def replay (next : State → Label → Option State) : State → List Label → Option State
  | s, [] => some s
  | s, label :: labels => (next s label).bind fun middle => replay next middle labels

theorem run_of_replay {next : State → Label → Option State} {s t : State} {labels : List Label}
    (replayed : replay next s labels = some t) : Run (ofFunction next) s labels t := by
  induction labels generalizing s with
  | nil =>
      simp only [replay, Option.some.injEq] at replayed
      subst t
      exact .nil s
  | cons label labels ih =>
      simp only [replay, Option.bind_eq_some_iff] at replayed
      rcases replayed with ⟨middle, head, tail⟩
      exact .cons head (ih tail)

/--
When a count never decreases, and stays the same exactly over the steps that meet a
condition, it is unchanged after a run exactly when every step met the condition.
-/
theorem Run.restrict_iff {next : State → Label → Option State}
    (condition : State → Label → Prop) (property : State → Nat → Prop)
    (preserved : ∀ s label t count, property s count → next s label = some t →
      ∃ count', property t count' ∧ count ≤ count' ∧ (count' = count ↔ condition s label))
    {s t : State} {labels : List Label} (run : Run (ofFunction next) s labels t) {count : Nat}
    (start : property s count) :
    ∃ count', property t count' ∧ count ≤ count' ∧
      (count' = count ↔ Run (Restrict (ofFunction next) condition) s labels t) := by
  induction run generalizing count with
  | nil => exact ⟨count, start, Nat.le_refl _, fun _ => .nil _, fun _ => rfl⟩
  | cons head tail ih =>
      rcases preserved _ _ _ _ start head with ⟨between, middle, before, first⟩
      rcases ih middle with ⟨count', final, after, rest⟩
      refine ⟨count', final, Nat.le_trans before after, ?_, ?_⟩
      · intro same
        have unchanged : between = count := by omega
        exact .cons ⟨head, first.mp unchanged⟩ (rest.mp (by omega))
      · intro restricted
        cases restricted with
        | cons head' tail' =>
            obtain rfl := Option.some.inj (head.symm.trans head'.1)
            rw [rest.mpr tail', first.mpr head'.2]

/-- When each step of an abstract system is matched, so is each of its runs. -/
theorem Run.simulate {Abstract : Type*} {abstractStep : Abstract → Label → Abstract → Prop}
    (represents : State → Abstract → Prop)
    (matched : ∀ s a label a', represents s a → abstractStep a label a' →
      ∃ t, step s label t ∧ represents t a')
    {a a' : Abstract} {labels : List Label} (run : Run abstractStep a labels a') {s : State}
    (start : represents s a) : ∃ t, Run step s labels t ∧ represents t a' := by
  induction run generalizing s with
  | nil => exact ⟨s, .nil s, start⟩
  | cons head tail ih =>
      rcases matched s _ _ _ start head with ⟨middle, first, between⟩
      rcases ih between with ⟨t, rest, final⟩
      exact ⟨t, .cons first rest, final⟩

/-- A property that no step restores held at every earlier state of a run. -/
theorem Run.before {property : State → Prop}
    (restores : ∀ s label t, step s label t → property t → property s)
    {s t : State} {labels : List Label} (run : Run step s labels t) (final : property t) :
    property s := by
  induction run with
  | nil => exact final
  | cons head tail ih => exact restores _ _ _ head (ih final)

/--
When no step restores a property, and where an invariant holds a step keeps it exactly if it
meets a condition, the property holds after a run exactly when every step met the condition.
The invariant need only be kept by the steps that keep the property.
-/
theorem Run.restrict_iff_of_never_restored (condition : State → Label → Prop)
    (property invariant : State → Prop)
    (restores : ∀ s label t, step s label t → property t → property s)
    (preserved : ∀ s label t, step s label t → invariant s → property t → invariant t)
    (keeps : ∀ s label t, step s label t → invariant s → property s →
      (property t ↔ condition s label))
    {s t : State} {labels : List Label} (run : Run step s labels t) (start : property s)
    (sound : invariant s) : property t ↔ Run (Restrict step condition) s labels t := by
  constructor
  · intro final
    induction run with
    | nil => exact .nil _
    | cons head tail ih =>
        have middle := tail.before restores final
        exact .cons ⟨head, (keeps _ _ _ head sound start).mp middle⟩
          (ih middle (preserved _ _ _ head sound middle) final)
  · intro restricted
    have both : property t ∧ invariant t := by
      refine restricted.invariant (fun s => property s ∧ invariant s) ?_ ⟨start, sound⟩
      rintro s label t ⟨kept, sound⟩ ⟨head, met⟩
      have after := (keeps s label t head sound kept).mpr met
      exact ⟨after, preserved s label t head sound after⟩
    exact both.1

end Lts
