import Mathlib.Order.Basic

/-!
# Bounded loops

`whileLoop` runs the body of a loop as long as its condition holds, at most a given number
of times. `whileLoop_invariant` is the invariant rule, and `whileLoop_finished` says that
the bound was large enough when a measure of the state decreases. The body of `whileOption`
may fail, and `whileOption_ends` is the rule for a body that does not. `foldlM_ends` is the
rule for a loop over a list, whose invariant may speak of the part of the list that is done, and
`foldlM_invariant` the rule for such a loop that is known to end.
-/

namespace Loop

universe u v

variable {State : Type u}

def whileLoop (condition : State → Bool) (body : State → State) : Nat → State → State
  | 0, s => s
  | fuel + 1, s => if condition s then whileLoop condition body fuel (body s) else s

variable {condition : State → Bool} {body : State → State} {invariant : State → Prop}

/-- A property kept by every execution of the body holds after the loop. -/
theorem whileLoop_invariant
    (preserved : ∀ s, invariant s → condition s = true → invariant (body s))
    (fuel : Nat) {s : State} (start : invariant s) :
    invariant (whileLoop condition body fuel s) := by
  induction fuel generalizing s with
  | zero => exact start
  | succ fuel ih =>
      rw [whileLoop]
      split
      · next holds => exact ih (preserved s start holds)
      · exact start

/-- A loop whose measure decreases stops by itself within that many executions of the body. -/
theorem whileLoop_finished (measure : State → Nat)
    (preserved : ∀ s, invariant s → condition s = true → invariant (body s))
    (decreases : ∀ s, invariant s → condition s = true → measure (body s) < measure s)
    {fuel : Nat} {s : State} (start : invariant s) (enough : measure s ≤ fuel) :
    condition (whileLoop condition body fuel s) = false := by
  induction fuel generalizing s with
  | zero =>
      cases holds : condition s with
      | false => exact holds
      | true =>
          have := decreases s start holds
          omega
  | succ fuel ih =>
      rw [whileLoop]
      split
      · next holds =>
          have := decreases s start holds
          exact ih (preserved s start holds) (by omega)
      · next stops => simpa using stops

/-- One execution more is one at the end. -/
theorem whileLoop_succ (fuel : Nat) {s : State} :
    whileLoop condition body (fuel + 1) s =
      if condition (whileLoop condition body fuel s) then body (whileLoop condition body fuel s)
      else whileLoop condition body fuel s := by
  induction fuel generalizing s with
  | zero => rfl
  | succ fuel ih =>
      rw [whileLoop]
      split
      · next holds => rw [ih, whileLoop, if_pos holds]
      · next stops => rw [whileLoop, if_neg stops, if_neg stops]

def whileOption (condition : State → Bool) (body : State → Option State) :
    Nat → State → Option State
  | 0, s => some s
  | fuel + 1, s =>
      if condition s then (body s).bind (whileOption condition body fuel) else some s

/-- A loop ends by itself when its body never fails and a measure of the state decreases. -/
theorem whileOption_ends {body : State → Option State} (measure : State → Nat)
    (progress : ∀ s, invariant s → condition s = true →
      ∃ t, body s = some t ∧ invariant t ∧ measure t < measure s)
    {fuel : Nat} {s : State} (start : invariant s) (enough : measure s ≤ fuel) :
    ∃ t, whileOption condition body fuel s = some t ∧ invariant t ∧ condition t = false := by
  induction fuel generalizing s with
  | zero =>
      cases holds : condition s with
      | false => exact ⟨s, rfl, start, holds⟩
      | true =>
          rcases progress s start holds with ⟨t, _, _, less⟩
          omega
  | succ fuel ih =>
      rw [whileOption]
      split
      · next holds =>
          rcases progress s start holds with ⟨t, body_eq, kept, less⟩
          rw [body_eq, Option.bind_some]
          exact ih kept (by omega)
      · next stops => exact ⟨s, rfl, start, by simpa using stops⟩

section FoldlM

variable {Element : Type v} {body : State → Element → Option State}
  {invariant : List Element → State → Prop} {todo : List Element} {s : State}

/-- A loop over a list does not fail when its body does not. -/
theorem foldlM_ends
    (progress : ∀ finished x rest s, todo = finished ++ x :: rest → invariant finished s →
      ∃ t, body s x = some t ∧ invariant (finished ++ [x]) t)
    (start : invariant [] s) :
    ∃ t, todo.foldlM body s = some t ∧ invariant todo t := by
  suffices ends : ∀ finished rest s, todo = finished ++ rest → invariant finished s →
      ∃ t, rest.foldlM body s = some t ∧ invariant todo t from ends [] todo s rfl start
  intro finished rest
  induction rest generalizing finished with
  | nil =>
      rintro s rfl holds
      exact ⟨s, rfl, by simpa using holds⟩
  | cons x rest ih =>
      intro s split holds
      rcases progress finished x rest s split holds with ⟨t, ran, next⟩
      rw [List.foldlM_cons, ran]
      exact ih (finished ++ [x]) t (by simp [split]) next

/-- A property kept by the body holds at the end of a loop over a list. -/
theorem foldlM_invariant {property : State → Prop} {t : State}
    (preserved : ∀ s x t, x ∈ todo → property s → body s x = some t → property t)
    (start : property s) (ran : todo.foldlM body s = some t) : property t := by
  induction todo generalizing s with
  | nil => exact Option.some.inj ran ▸ start
  | cons x rest ih =>
      rw [List.foldlM_cons] at ran
      rcases Option.bind_eq_some_iff.mp ran with ⟨middle, first, later⟩
      exact ih (fun s y t member => preserved s y t (List.mem_cons_of_mem _ member))
        (preserved s x middle List.mem_cons_self start first) later

end FoldlM

end Loop
