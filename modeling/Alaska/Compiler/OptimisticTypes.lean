import Alaska.Compiler.LatticePoint
import Alaska.Lib.ChaoticIteration
import Mathlib.Data.DFinsupp.WellFounded
import Mathlib.Logic.Function.Basic

/-!
# Optimistic types

`reach_fixed_point` of `OptimisticTypes.cpp`. The map of lattice points is ordered by the
addresses of the values. A lookup enters a value that is missing, so a value that comes
later in the order than the one being visited is still visited in the same pass, and one
that comes before it only in the next pass. A visit is undefined where the code looks at the
first type of a structure that has none, or asks a function for an argument it does not have.
-/

namespace Alaska.OptimisticTypes

universe u

/-! ## Modules -/

/-- What the analysis looks at in a function that is called. -/
structure CalledFunction (V : Type u) where
  /-- `getNumOperands`, the operands of the function itself rather than its arguments. -/
  numOperands : Nat
  /-- Undefined from the number of arguments on. -/
  getArg : Nat → Option V
  /-- The value that the terminator of each block returns; a function without a body has none. -/
  returnValues : List (Option V)

/-- A use of a value. -/
inductive Use (V : Type u) where
  | load (inst pointerOperand : V) (isPointerTy : Bool)
  | phi (inst : V)
  | freeze (inst : V)
  | call (operandNo : Nat) (calledFunction : Option (CalledFunction V))
  | other

/-- The values that are met with something because of what they are. -/
inductive Kind (V : Type u) where
  | call (isPointerTy : Bool) (calledFunction : Option (CalledFunction V))
  | phi (incomingValues : List V)
  | other

structure Module (V : Type u) where
  kind : V → Kind V
  uses : V → List (Use V)
  /-- The constants that are null values. -/
  isNullValue : V → Bool

/-- The order of the values in the map. -/
structure VisitOrder (V : Type u) where
  values : List V
  nodup : values.Nodup
  complete : ∀ v, v ∈ values

/-- `m_types` -/
abbrev Types (V : Type u) := V → Option OTLatticePoint

/-! ## The rules -/

mutual

/-- `get_deep_struct_element_types` -/
def getDeepStructElementTypes : AlaskaType → List AlaskaType
  | .struct _ fields => deepElementTypesOfFields fields
  | t => [t]

def deepElementTypesOfFields : List AlaskaType → List AlaskaType
  | [] => []
  | field :: fields => getDeepStructElementTypes field ++ deepElementTypesOfFields fields

end

/--
Whether the load of a `t` from a value is met with a pointer to `t`. `types[0]` is undefined
for a structure without elements.
-/
def doMeet (lp : OTLatticePoint) (t : AlaskaType) : Option Bool :=
  match lp with
  | .defined state =>
      if AlaskaType.typeLiftsInto state t then
        some false
      else
        match state with
        | .pointer (.struct name fields) =>
            (getDeepStructElementTypes (.struct name fields)).head?.map fun first =>
              !AlaskaType.typeLiftsInto first t
        | _ => some true
  | _ => some true

/-- The ways in which the point of a value is met with the point of another one. -/
inductive Rule (V : Type u) where
  /-- Returned values and arguments are only met when they are defined. -/
  | meetDefined (source : V)
  | meet (source : V)
  | load (source : V)
  deriving DecidableEq

variable {V : Type u}

def Rule.source : Rule V → V
  | .meetDefined source | .meet source | .load source => source

/-- The rules for the uses of `p`; there is none for an argument that is out of range. -/
def Use.rules [DecidableEq V] (p : V) : Use V → List (Option (Rule V))
  | .load inst pointerOperand isPointerTy =>
      if pointerOperand = p ∧ isPointerTy then [some (.load inst)] else []
  | .phi inst => [some (.meet inst)]
  | .freeze inst => [some (.meet inst)]
  | .call argIndex (some f) =>
      if argIndex ≤ f.numOperands then [(f.getArg argIndex).map .meetDefined] else []
  | .call _ none => []
  | .other => []

/-- The rules by which a visit of `p` raises its point, in the order of the source. -/
def rules [DecidableEq V] (m : Module V) (p : V) : List (Option (Rule V)) :=
  let returned :=
    match m.kind p with
    | .call true (some f) => (f.returnValues.filterMap id).map fun v => some (.meetDefined v)
    | _ => []
  let incoming :=
    match m.kind p with
    | .phi incomingValues => incomingValues.map fun v => some (.meet v)
    | _ => []
  returned ++ (m.uses p).flatMap (Use.rules p) ++ incoming

/-! ## The analysis -/

variable [DecidableEq V]

/-- `get_lattice_point`, which enters a value that is not in the map. -/
def getLatticePoint (m : Module V) (v : V) (types : Types V) : OTLatticePoint × Types V :=
  if m.isNullValue v then
    (.underdefined, types)
  else
    match types v with
    | some t => (t, types)
    | none => (.underdefined, Function.update types v (some .underdefined))

/-- Meets the point of `p`, which is in the map, with an incoming one. -/
def meetAt (p : V) (incoming : OTLatticePoint) (types : Types V) : Types V × Bool :=
  match types p with
  | some lp => (Function.update types p (some (lp.meet incoming).1), (lp.meet incoming).2)
  | none => (types, false)

def applyRule (m : Module V) (p : V) (rule : Rule V) (types : Types V) : Option (Types V × Bool) :=
  let found := getLatticePoint m rule.source types
  match rule with
  | .meet _ => some (meetAt p found.1 found.2)
  | .meetDefined _ =>
      some (if found.1.isDefined then meetAt p found.1 found.2 else (found.2, false))
  | .load _ =>
      match found.1 with
      | .defined t =>
          (doMeet ((found.2 p).getD .underdefined) t).map fun meets =>
            if meets then meetAt p (.defined (.pointer t)) found.2 else (found.2, false)
      | _ => some (found.2, false)

def tryRule (m : Module V) (p : V) (rule : Option (Rule V)) (types : Types V) :
    Option (Types V × Bool) :=
  rule.bind fun rule => applyRule m p rule types

/-- The body of the loop over the map. -/
def visit (m : Module V) (p : V) (types : Types V) : Option (Types V × Bool) :=
  if (types p).isSome then
    ChaoticIteration.sweep (tryRule m p) (rules m p) types
  else
    some (types, false)

/-- One pass over the map. -/
def pass (m : Module V) (order : VisitOrder V) : Types V → Option (Types V × Bool) :=
  ChaoticIteration.sweep (visit m) order.values

/-- `reach_fixed_point`, for at most a given number of passes. -/
def reachFixedPoint (m : Module V) (order : VisitOrder V) :
    Nat → Types V → ChaoticIteration.Outcome (Types V) :=
  ChaoticIteration.untilUnchanged (pass m order)

/-! ## The points of the values -/

/-- The points of the values, underdefined where the map has none. -/
def points (types : Types V) : V → OTLatticePoint :=
  fun v => (types v).getD .underdefined

/-- What a lookup finds. -/
def look (m : Module V) (x : V → OTLatticePoint) (v : V) : OTLatticePoint :=
  if m.isNullValue v then .underdefined else x v

/-- A pointer to what is known of a type. -/
def pointerTo : OTLatticePoint → OTLatticePoint :=
  LatticePoint.map AlaskaType.pointer

/-- What a rule would meet a point with if it had no condition. -/
def contribution (m : Module V) (x : V → OTLatticePoint) : Rule V → OTLatticePoint
  | .load source => pointerTo (look m x source)
  | .meet source | .meetDefined source => look m x source

/-- Whether a rule lets the point of `p` be met. -/
def allowed (m : Module V) (p : V) (x : V → OTLatticePoint) : Rule V → Option Bool
  | .meet _ => some true
  | .meetDefined source => some (look m x source).isDefined
  | .load source =>
      match look m x source with
      | .defined t => doMeet (x p) t
      | _ => some false

variable {m : Module V} {order : VisitOrder V} {types types' : Types V}
  {p v : V} {rule : Rule V} {flag : Bool}

theorem getLatticePoint_fst : (getLatticePoint m v types).1 = look m (points types) v := by
  unfold getLatticePoint look points
  split
  · rfl
  · cases types v <;> rfl

@[simp]
theorem points_getLatticePoint : points (getLatticePoint m v types).2 = points types := by
  unfold getLatticePoint
  split
  · rfl
  · cases found : types v with
    | some t => rfl
    | none =>
        funext w
        by_cases same : w = v
        · subst same
          simp [points, found]
        · simp [points, same]

theorem isSome_getLatticePoint {w : V} :
    ((getLatticePoint m v types).2 w).isSome ↔
      (types w).isSome ∨ w = v ∧ m.isNullValue v = false := by
  unfold getLatticePoint
  split
  · next null => simp [null]
  · next notNull =>
      by_cases same : w = v
      · subst same
        cases found : types w <;> simp_all
      · cases types v <;> simp [same]

@[simp]
theorem isSome_meetAt {incoming : OTLatticePoint} {w : V} :
    ((meetAt p incoming types).1 w).isSome ↔ (types w).isSome := by
  unfold meetAt
  cases found : types p with
  | none => rfl
  | some lp =>
      by_cases same : w = p
      · subst same
        simp [found]
      · simp [same]

theorem meetAt_snd {incoming : OTLatticePoint} (entered : (types p).isSome) :
    (meetAt p incoming types).2 = (OTLatticePoint.meet (points types p) incoming).2 := by
  rcases Option.isSome_iff_exists.mp entered with ⟨lp, found⟩
  simp [meetAt, points, found]

theorem points_meetAt {incoming : OTLatticePoint} (entered : (types p).isSome) :
    points (meetAt p incoming types).1 =
      Function.update (points types) p (OTLatticePoint.meet (points types p) incoming).1 := by
  rcases Option.isSome_iff_exists.mp entered with ⟨lp, found⟩
  funext w
  by_cases same : w = p
  · subst same
    simp [meetAt, points, found]
  · simp [meetAt, points, found, same]

/-- A rule is a meet with its contribution, where it is allowed, after a lookup. -/
theorem applyRule_eq :
    applyRule m p rule types = (allowed m p (points types) rule).map fun allow =>
      if allow then
        meetAt p (contribution m (points types) rule) (getLatticePoint m rule.source types).2
      else
        ((getLatticePoint m rule.source types).2, false) := by
  have sameAt : ((getLatticePoint m rule.source types).2 p).getD .underdefined = points types p :=
    congrFun points_getLatticePoint p
  unfold applyRule
  simp only [getLatticePoint_fst, sameAt]
  cases rule with
  | meet source => rfl
  | meetDefined source => rfl
  | load source =>
      cases found : look m (points types) (Rule.load source).source <;>
        simp_all [allowed, contribution, Rule.source, pointerTo, LatticePoint.map]

/-- What the application of a rule leaves. -/
structure Applied (m : Module V) (p : V) (types : Types V) (rule : Rule V) (types' : Types V)
    (flag allow : Bool) : Prop where
  allowed : allowed m p (points types) rule = some allow
  isSome : ∀ w, (types' w).isSome ↔
    (types w).isSome ∨ w = rule.source ∧ m.isNullValue rule.source = false
  flag : flag = (allow &&
    (OTLatticePoint.meet (points types p) (contribution m (points types) rule)).2)
  points : points types' =
    if allow then
      Function.update (points types) p
        (OTLatticePoint.meet (points types p) (contribution m (points types) rule)).1
    else
      points types

/-- A rule is applied to the point of a value in the map. -/
theorem applied_of_tryRule {rule : Option (Rule V)} (entered : (types p).isSome)
    (applied : tryRule m p rule types = some (types', flag)) :
    ∃ known allow, rule = some known ∧ Applied m p types known types' flag allow := by
  rcases Option.bind_eq_some_iff.mp applied with ⟨known, rfl, result⟩
  rw [applyRule_eq] at result
  rcases Option.map_eq_some_iff.mp result with ⟨allow, allows, result⟩
  refine ⟨known, allow, rfl, ?_⟩
  have looked : ((getLatticePoint m known.source types).2 p).isSome :=
    isSome_getLatticePoint.mpr (Or.inl entered)
  cases allow with
  | false =>
      cases result
      exact ⟨allows, fun w => isSome_getLatticePoint, rfl, points_getLatticePoint⟩
  | true =>
      rw [if_pos rfl] at result
      obtain ⟨rfl, rfl⟩ := Prod.ext_iff.mp result
      refine ⟨allows, fun w => ?_, ?_, ?_⟩
      · rw [isSome_meetAt, isSome_getLatticePoint]
      · rw [meetAt_snd looked, points_getLatticePoint, Bool.true_and]
      · rw [points_meetAt looked, points_getLatticePoint, if_pos rfl]

theorem isSome_of_tryRule {rule : Option (Rule V)} {w : V} (entered : (types p).isSome)
    (applied : tryRule m p rule types = some (types', flag)) (found : (types w).isSome) :
    (types' w).isSome := by
  rcases applied_of_tryRule entered applied with ⟨_, _, _, after⟩
  exact (after.isSome w).mpr (Or.inl found)

/-- A property of the map that every rule of a value in the map keeps is kept by its visit. -/
theorem visit_invariant (property : Types V → Prop)
    (preserved : ∀ rule allow types types' flag, some rule ∈ rules m p → (types p).isSome →
      property types → Applied m p types rule types' flag allow → property types')
    (holds : property types) (visited : visit m p types = some (types', flag)) :
    property types' := by
  unfold visit at visited
  split at visited
  · next entered =>
      refine (ChaoticIteration.sweep_invariant
        (fun types : Types V => (types p).isSome ∧ property types) ?_ ⟨entered, holds⟩ visited).2
      rintro rule member types types' flag ⟨entered, holds⟩ applied
      rcases applied_of_tryRule entered applied with ⟨known, allow, rfl, after⟩
      exact ⟨(after.isSome p).mpr (Or.inl entered),
        preserved known allow types types' flag member entered holds after⟩
  · cases visited
    exact holds

/-! ## Passes raise the points -/

theorem raises_tryRule {rule : Option (Rule V)} :
    ChaoticIteration.Raises points (fun types => (types p).isSome = true) (tryRule m p rule) := by
  refine ⟨fun types types' flag entered applied => isSome_of_tryRule entered applied entered,
    ?_, ?_⟩
  · intro types types' entered applied
    rcases applied_of_tryRule entered applied with ⟨known, allow, _, after⟩
    have flag := after.flag
    rw [after.points]
    split
    · next allow =>
        rw [allow, Bool.true_and, Bool.false_eq, OTLatticePoint.meet_unchanged,
          ← OTLatticePoint.meet_eq_left] at flag
        rw [flag, Function.update_eq_self]
    · rfl
  · intro types types' entered applied
    rcases applied_of_tryRule entered applied with ⟨known, allow, _, after⟩
    have flag := after.flag.symm
    rw [Bool.and_eq_true, OTLatticePoint.meet_changed] at flag
    rw [after.points, if_pos flag.1]
    apply lt_update_self_iff.mpr
    exact lt_of_le_of_ne OTLatticePoint.le_meet_left flag.2.symm

theorem raises_visit :
    ChaoticIteration.Raises points (fun _ : Types V => True) (visit m p) := by
  have body : ChaoticIteration.Raises points (fun types : Types V => (types p).isSome)
      (ChaoticIteration.sweep (tryRule m p) (rules m p)) :=
    .sweep fun _ _ => raises_tryRule
  refine ⟨fun _ _ _ _ _ => trivial, ?_, ?_⟩
  · intro types types' _ visited
    unfold visit at visited
    split at visited
    · next entered => exact body.unchanged types types' entered visited
    · cases visited
      rfl
  · intro types types' _ visited
    unfold visit at visited
    split at visited
    · next entered => exact body.changed types types' entered visited
    · cases visited

theorem raises_pass :
    ChaoticIteration.Raises points (fun _ : Types V => True) (pass m order) :=
  ChaoticIteration.Raises.sweep fun _ _ => raises_visit

/-! ## The iteration ends -/

/-- The types of all points are from a set. -/
def Typed (allTypes : Set AlaskaType) (types : Types V) : Prop :=
  ∀ v t, points types v = .defined t → t ∈ allTypes

variable {allTypes : Set AlaskaType}

theorem typed_of_applied {allow : Bool} (pointers : ∀ t ∈ allTypes, .pointer t ∈ allTypes)
    (typed : Typed allTypes types) (applied : Applied m p types rule types' flag allow) :
    Typed allTypes types' := by
  intro v t equal
  rw [applied.points] at equal
  split at equal
  · by_cases same : v = p
    · subst same
      rw [Function.update_self] at equal
      rcases OTLatticePoint.meet_defined equal with own | contributed
      · exact typed v t own
      · have looked : ∀ source state, look m (points types) source = .defined state →
            state ∈ allTypes := by
          intro source state found
          unfold look at found
          split at found
          · simp at found
          · exact typed source state found
        cases rule with
        | meet source | meetDefined source => exact looked source t contributed
        | load source =>
            simp only [contribution, pointerTo] at contributed
            cases found : look m (points types) source with
            | underdefined | overdefined => simp [found, LatticePoint.map] at contributed
            | defined state =>
                simp only [found, LatticePoint.map, LatticePoint.defined.injEq] at contributed
                subst contributed
                exact pointers state (looked source state found)
    · rw [Function.update_of_ne same] at equal
      exact typed v t equal
  · exact typed v t equal

theorem typed_pass (pointers : ∀ t ∈ allTypes, .pointer t ∈ allTypes)
    (typed : Typed allTypes types) (passed : pass m order types = some (types', flag)) :
    Typed allTypes types' := by
  refine ChaoticIteration.sweep_invariant (Typed allTypes) ?_ typed passed
  intro p _ types types' flag typed visited
  exact visit_invariant (Typed allTypes)
    (fun _ _ _ _ _ _ _ typed applied => typed_of_applied pointers typed applied) typed visited

omit [DecidableEq V] in
theorem exists_rank (typed : Typed allTypes types) :
    ∃ rank : V → LatticePoint allTypes, points types = fun v => (rank v).map Subtype.val := by
  have each : ∀ v, ∃ point : LatticePoint allTypes, points types v = point.map Subtype.val := by
    intro v
    cases found : points types v with
    | underdefined => exact ⟨.underdefined, rfl⟩
    | overdefined => exact ⟨.overdefined, rfl⟩
    | defined t => exact ⟨.defined ⟨t, typed v t found⟩, rfl⟩
  choose rank equal using each
  exact ⟨rank, funext equal⟩

open Classical in
/-- The points of a map, as points whose types are from a set. -/
noncomputable def rank (allTypes : Set AlaskaType) (types : Types V) : V → LatticePoint allTypes :=
  if typed : Typed allTypes types then (exists_rank typed).choose else fun _ => .underdefined

omit [DecidableEq V] in
theorem rank_spec (typed : Typed allTypes types) :
    points types = fun v => (rank allTypes types v).map Subtype.val := by
  rw [rank, dif_pos typed]
  exact (exists_rank typed).choose_spec

omit [DecidableEq V] in
theorem rank_lt_rank (typed : Typed allTypes types) (typed' : Typed allTypes types')
    (lt : points types < points types') : rank allTypes types < rank allTypes types' := by
  have le_iff : ∀ a b : V → LatticePoint allTypes,
      ((fun v => (a v).map Subtype.val) ≤ fun v => (b v).map Subtype.val) ↔ a ≤ b :=
    fun a b => forall_congr' fun v => LatticePoint.map_le_map (f := Subtype.val) fun _ _ => Iff.rfl
  rw [rank_spec typed, rank_spec typed', lt_iff_le_not_ge, le_iff, le_iff] at lt
  exact lt_iff_le_not_ge.mpr lt

/-- The iteration ends or comes to an undefined visit, for all types at its start. -/
theorem exists_lastSweep_or_fails (m : Module V) (order : VisitOrder V) (types : Types V) :
    ∃ last, ChaoticIteration.Continues (pass m order) types last ∧
      (pass m order last = none ∨ ∃ final, pass m order last = some (final, false)) := by
  have finite : Finite V := Finite.of_surjective (fun i => order.values.get i)
    (List.get_surjective_iff.mpr order.complete)
  let base : Set AlaskaType := {t | ∃ v, points types v = .defined t}
  have baseFinite : base.Finite := by
    apply (Set.finite_range fun v => points types v).preimage
      (f := LatticePoint.defined) (fun _ _ _ _ => LatticePoint.defined.inj) |>.subset
    rintro t ⟨v, equal⟩
    exact ⟨v, equal⟩
  have noAscent := AlaskaType.wellFoundedGT_pointersTo baseFinite
  have noAscent' : WellFoundedGT (V → LatticePoint (AlaskaType.pointersTo base)) :=
    inferInstanceAs (WellFoundedLT (V → (LatticePoint (AlaskaType.pointersTo base))ᵒᵈ))
  have kept : ∀ types types' flag, Typed (AlaskaType.pointersTo base) types →
      pass m order types = some (types', flag) → Typed (AlaskaType.pointersTo base) types' :=
    fun _ _ _ typed passed => typed_pass (fun _ => AlaskaType.pointer_mem_pointersTo) typed passed
  apply ChaoticIteration.exists_lastSweep_or_fails (rank (AlaskaType.pointersTo base))
    (Typed (AlaskaType.pointersTo base)) kept
  · intro types types' typed passed
    exact rank_lt_rank typed (kept types types' true typed passed)
      (raises_pass.changed types types' trivial passed)
  · exact fun v t equal => AlaskaType.subset_pointersTo ⟨v, equal⟩

/-! ## What is left when the iteration ends -/

/-- A visit of any value in the map would change nothing. -/
def NothingPending (m : Module V) (types : Types V) : Prop :=
  ∀ p, (types p).isSome → (visit m p types).map Prod.snd = some false

/-- The values that the visit of `p` looks up are in the map, or do not come before it. -/
def ReadsAhead (m : Module V) (before : List V) (p : V) (types : Types V) : Prop :=
  (types p).isSome → ∀ known ∈ rules m p, ∀ rule ∈ known, m.isNullValue rule.source = false →
    rule.source ∈ before → (types rule.source).isSome

instance {before : List V} : Decidable (ReadsAhead m before p types) :=
  inferInstanceAs (Decidable (_ → ∀ known ∈ rules m p, ∀ rule ∈ known, _ → _ → _))

/-- The visit of a value enters no value before it in the order whose own visit has a change. -/
def LeavesNothingBehind (m : Module V) (before : List V) (p : V) (types : Types V) : Prop :=
  ∀ w ∈ before, types w = none → ∀ types' flag, visit m p types = some (types', flag) →
    (types' w).isSome → (visit m w types').map Prod.snd = some false

theorem isSome_of_visit {w : V} (found : (types w).isSome)
    (visited : visit m p types = some (types', flag)) : (types' w).isSome :=
  visit_invariant (fun types : Types V => (types w).isSome)
    (fun _ _ _ _ _ _ _ found applied => (applied.isSome w).mpr (Or.inl found)) found visited

/-- A visit that reads ahead enters no value before it. -/
theorem ReadsAhead.eq_none {before : List V} {w : V} (ahead : ReadsAhead m before p types)
    (member : w ∈ before) (missing : types w = none)
    (visited : visit m p types = some (types', flag)) : types' w = none := by
  by_cases entered : (types p).isSome
  · have none_kept := visit_invariant (fun types : Types V => (types w).isSome → False)
      (fun rule _ types'' _ _ isRule _ kept applied found => by
        rcases (applied.isSome w).mp found with old | ⟨rfl, notNull⟩
        · exact kept old
        · have here := ahead entered _ isRule rule rfl notNull member
          rw [missing] at here
          contradiction)
      (fun found => by rw [missing] at found; contradiction) visited
    exact Option.not_isSome_iff_eq_none.mp none_kept
  · unfold visit at visited
    rw [if_neg entered] at visited
    cases visited
    exact missing

theorem ReadsAhead.leavesNothingBehind {before : List V} (ahead : ReadsAhead m before p types) :
    LeavesNothingBehind m before p types := by
  intro w member missing types' flag visited entered
  rw [ahead.eq_none member missing visited] at entered
  contradiction

/-- The outcome of a visit depends on the points alone, once the value is in the map. -/
theorem visit_congr (entered : (types p).isSome) (entered' : (types' p).isSome)
    (same : points types = points types') :
    (visit m p types).map Prod.snd = (visit m p types').map Prod.snd := by
  rw [visit, visit, if_pos entered, if_pos entered']
  generalize rules m p = rules
  induction rules generalizing types types' with
  | nil => rfl
  | cons rule rules ih =>
      cases rule with
      | none => rfl
      | some rule =>
          have allowed : allowed m p (points types) rule = allowed m p (points types') rule := by
            rw [same]
          cases first : tryRule m p (some rule) types with
          | none =>
              have failed : tryRule m p (some rule) types' = none := by
                simp only [tryRule, Option.bind_some, applyRule_eq,
                  Option.map_eq_none_iff] at first ⊢
                rw [← allowed, first]
              simp only [ChaoticIteration.sweep, first, failed, Option.bind_none]
          | some outcome =>
              rcases outcome with ⟨next, flag⟩
              rcases applied_of_tryRule entered first with ⟨_, allow, ⟨⟩, after⟩
              obtain ⟨⟨next', flag'⟩, second⟩ : ∃ outcome, tryRule m p (some rule) types' =
                  some outcome := by
                simp only [tryRule, Option.bind_some, applyRule_eq, ← allowed, after.allowed]
                exact ⟨_, rfl⟩
              rcases applied_of_tryRule entered' second with ⟨_, allow', ⟨⟩, after'⟩
              obtain rfl : allow = allow' := by
                rw [← Option.some.injEq, ← after.allowed, ← after'.allowed, allowed]
              have rest := ih ((after.isSome p).mpr (Or.inl entered))
                ((after'.isSome p).mpr (Or.inl entered')) (by
                  rw [after.points, after'.points, same])
              simp only [ChaoticIteration.sweep, first, second, Option.bind_some, Option.map_map,
                Function.comp_def]
              rw [after.flag, after'.flag, same]
              simpa [Option.map_map, Function.comp_def] using congrArg (Option.map
                fun flag => (allow && (OTLatticePoint.meet (points types' p)
                  (contribution m (points types') rule)).2 || flag)) rest

section LastPass

variable {last final : Types V} {before after : List V}

/-- The visit of a value in the last pass: the points stay the same over that pass. -/
structure LastVisit (m : Module V) (order : VisitOrder V) (last final : Types V)
    (before : List V) (p : V) (turn turn' : Types V) : Prop where
  reached : ChaoticIteration.sweep (visit m) before last = some (turn, false)
  visited : visit m p turn = some (turn', false)
  points_turn : points turn = points last
  points_turn' : points turn' = points last
  isSome_final : ∀ v, (turn' v).isSome → (final v).isSome

theorem points_pass (passed : pass m order last = some (final, false)) :
    points final = points last :=
  raises_pass.unchanged last final trivial passed

theorem isSome_of_sweep {values : List V} (found : (types v).isSome)
    (swept : ChaoticIteration.sweep (visit m) values types = some (types', flag)) :
    (types' v).isSome :=
  ChaoticIteration.sweep_invariant (fun types : Types V => (types v).isSome)
    (fun _ _ _ _ _ found visited => isSome_of_visit found visited) found swept

theorem exists_lastVisit (passed : pass m order last = some (final, false))
    (split : order.values = before ++ p :: after) :
    ∃ turn turn', LastVisit m order last final before p turn turn' := by
  rcases ChaoticIteration.sweep_unchanged passed split with ⟨turn, turn', reached, visited, rest⟩
  have here : points turn = points last :=
    (ChaoticIteration.Raises.sweep fun _ _ => raises_visit).unchanged last turn trivial reached
  exact ⟨turn, turn', reached, visited, here,
    (raises_visit.unchanged turn turn' trivial visited).trans here,
    fun v found => isSome_of_sweep found rest⟩

/-- A value that is in the map after a pass was visited in it, or entered too late for that. -/
theorem visited_or_entered_behind (passed : pass m order last = some (final, false))
    (entered : (final p).isSome) :
    (∃ before after turn turn', order.values = before ++ p :: after ∧
      LastVisit m order last final before p turn turn' ∧ (turn p).isSome) ∨
    ∃ before q after turn turn', order.values = before ++ q :: after ∧ p ∈ before ∧
      LastVisit m order last final before q turn turn' ∧ turn p = none ∧ (turn' p).isSome := by
  rcases List.append_of_mem (order.complete p) with ⟨before, after, split⟩
  rcases exists_lastVisit passed split with ⟨turn, turn', isVisit⟩
  cases found : turn p with
  | some point => exact Or.inl ⟨before, after, turn, turn', split, isVisit, by simp [found]⟩
  | none =>
      right
      -- the visit of `p` does nothing, so one of the later visits enters it
      have skipped : turn' = turn := by
        have visited := isVisit.visited
        simp only [visit, found, Option.isSome_none, Bool.false_eq_true, if_false,
          Option.some.injEq, Prod.mk.injEq] at visited
        exact visited.1.symm
      rcases ChaoticIteration.sweep_unchanged passed split with ⟨s, s', reached, visited, rest⟩
      obtain rfl : turn = s := by
        simpa using congrArg (Option.map Prod.fst) (isVisit.reached.symm.trans reached)
      obtain rfl : turn' = s' := by
        simpa using congrArg (Option.map Prod.fst) (isVisit.visited.symm.trans visited)
      rw [skipped] at rest
      rcases ChaoticIteration.sweep_turn (fun types : Types V => (types p).isSome = true)
        (by simp [found]) rest entered
        with ⟨middle, q, later, s, s', _, _, split', through, stepped, missing, turned⟩
      have split'' : order.values = (before ++ p :: middle) ++ q :: later := by
        simp [split, split']
      rcases exists_lastVisit passed split'' with ⟨turn₂, turn₂', isVisit₂⟩
      have passing := ChaoticIteration.sweep_append_some.mpr ⟨_, _, _, reached,
        ChaoticIteration.sweep_cons_some.mpr ⟨_, _, _, visited, skipped ▸ through, rfl⟩, rfl⟩
      obtain rfl : turn₂ = s := by
        simpa using congrArg (Option.map Prod.fst) (isVisit₂.reached.symm.trans passing)
      obtain rfl : turn₂' = s' := by
        simpa using congrArg (Option.map Prod.fst) (isVisit₂.visited.symm.trans stepped)
      exact ⟨before ++ p :: middle, q, later, turn₂, turn₂', split'', by simp, isVisit₂,
        by simpa using missing, turned⟩

theorem nothingPending_iff (passed : pass m order last = some (final, false)) :
    NothingPending m final ↔
      ∀ before p after turn turn', order.values = before ++ p :: after →
        LastVisit m order last final before p turn turn' → LeavesNothingBehind m before p turn := by
  have same := points_pass passed
  constructor
  · intro nothing before p after turn turn' split isVisit w _ _ types' flag visited entered
    obtain ⟨rfl, -⟩ : turn' = types' ∧ false = flag := by
      simpa using isVisit.visited.symm.trans visited
    have found := isVisit.isSome_final w entered
    rw [visit_congr entered found (isVisit.points_turn'.trans same.symm)]
    exact nothing w found
  · intro behind p found
    rcases visited_or_entered_behind passed found with
      ⟨before, after, turn, turn', split, isVisit, entered⟩ |
      ⟨before, q, after, turn, turn', split, gone, isVisit, missing, entered⟩
    · rw [← visit_congr entered found (isVisit.points_turn.trans same.symm), isVisit.visited]
      rfl
    · rw [← visit_congr entered found (isVisit.points_turn'.trans same.symm)]
      exact behind before q after turn turn' split isVisit p gone missing turn' false
        isVisit.visited entered

end LastPass

/-- The iteration from `start` comes to the visit of `p`, after those of `before`. -/
def Turn (m : Module V) (order : VisitOrder V) (start : Types V) (before : List V) (p : V)
    (turn : Types V) : Prop :=
  ∃ types after flag, ChaoticIteration.Continues (pass m order) start types ∧
    order.values = before ++ p :: after ∧
    ChaoticIteration.sweep (visit m) before types = some (turn, flag)

/-- The iteration ends just if it comes to no visit that is undefined. -/
theorem stops_iff (m : Module V) (order : VisitOrder V) (start : Types V) :
    (∃ last final, ChaoticIteration.LastSweep (pass m order) start last final) ↔
      ∀ before p turn, Turn m order start before p turn → (visit m p turn).isSome := by
  constructor
  · rintro ⟨last, final, ends⟩ before p turn ⟨types, after, flag, continues, split, reached⟩
    rcases (ends.of_continues continues).passes with ⟨types', flag', passed⟩
    rcases ChaoticIteration.sweep_split passed split with
      ⟨middle, next, _, _, _, reached', visited, _⟩
    obtain rfl : turn = middle := by
      simpa using congrArg (Option.map Prod.fst) (reached.symm.trans reached')
    rw [visited]
    rfl
  · intro defined
    rcases exists_lastSweep_or_fails m order start with ⟨last, continues, fails | ⟨final, stops⟩⟩
    · rcases ChaoticIteration.sweep_fails fails with
        ⟨before, p, after, turn, flag, split, reached, undefined⟩
      have isDefined := defined before p turn ⟨last, after, flag, continues, split, reached⟩
      rw [undefined] at isDefined
      contradiction
    · exact ⟨last, final, continues, stops⟩

/--
`reach_fixed_point` ends on every module and for all types at its start, unless it comes to an
undefined visit. If no visit looks up a missing value that comes before it, nothing is pending
at the end; and exactly if no visit of the last pass has entered a value that the pass had gone
by and whose own visit would change something.
-/
theorem reachFixedPoint_ends (m : Module V) (order : VisitOrder V) (start : Types V) :
    ((∃ passes final, reachFixedPoint m order passes start = .stopped final) ↔
        ∀ before p turn, Turn m order start before p turn → (visit m p turn).isSome) ∧
      ((∀ before p turn, Turn m order start before p turn →
          (visit m p turn).isSome ∧ ReadsAhead m before p turn) →
        ∃ passes final, reachFixedPoint m order passes start = .stopped final ∧
          NothingPending m final) ∧
      ∀ passes final, reachFixedPoint m order passes start = .stopped final →
        ∃ last, ChaoticIteration.LastSweep (pass m order) start last final ∧
          points final = points last ∧
          (NothingPending m final ↔ ∀ before p after turn flag,
            order.values = before ++ p :: after →
            ChaoticIteration.sweep (visit m) before last = some (turn, flag) →
            LeavesNothingBehind m before p turn) := by
  have stops : (∃ passes final, reachFixedPoint m order passes start = .stopped final) ↔
      ∃ last final, ChaoticIteration.LastSweep (pass m order) start last final := by
    constructor
    · rintro ⟨passes, final, result⟩
      rcases ChaoticIteration.lastSweep_of_untilUnchanged result with ⟨last, ends⟩
      exact ⟨last, final, ends⟩
    · rintro ⟨last, final, ends⟩
      rcases ChaoticIteration.untilUnchanged_of_lastSweep ends with ⟨passes, result⟩
      exact ⟨passes, final, result⟩
  refine ⟨stops.trans (stops_iff m order start), fun turns => ?_, fun passes final result => ?_⟩
  · rcases (stops_iff m order start).mpr fun before p turn isTurn => (turns before p turn isTurn).1
      with ⟨last, final, ends⟩
    rcases ChaoticIteration.untilUnchanged_of_lastSweep ends with ⟨passes, result⟩
    refine ⟨passes, final, result, (nothingPending_iff ends.2).mpr ?_⟩
    intro before p after turn turn' split isVisit
    have isTurn : Turn m order start before p turn :=
      ⟨last, after, false, ends.1, split, isVisit.reached⟩
    exact (turns before p turn isTurn).2.leavesNothingBehind
  · rcases ChaoticIteration.lastSweep_of_untilUnchanged result with ⟨last, ends⟩
    refine ⟨last, ends, points_pass ends.2, (nothingPending_iff ends.2).trans ?_⟩
    constructor
    · intro behind before p after turn flag split reached
      rcases exists_lastVisit ends.2 split with ⟨s, s', isVisit⟩
      obtain rfl : turn = s := by
        simpa using congrArg (Option.map Prod.fst) (reached.symm.trans isVisit.reached)
      exact behind before p after turn s' split isVisit
    · exact fun behind before p after turn turn' split isVisit =>
        behind before p after turn false split isVisit.reached

namespace PhiOfGlobal

/-! A phi with a global as its only incoming value, loaded from as an integer. -/

inductive Name where
  | global
  | phi
  | integer
  deriving DecidableEq

def program : Module Name where
  kind
    | .phi => .phi [.global]
    | _ => .other
  uses
    | .global => [.phi .phi]
    | .phi => [.load .integer .phi false]
    | .integer => []
  isNullValue _ := false

def globalFirst : VisitOrder Name where
  values := [.global, .phi, .integer]
  nodup := by decide
  complete v := by cases v <;> decide

def start : Types Name
  | .phi => some (.defined (.pointer (.primitive "i32")))
  | _ => none

/-- The only pass enters the global behind the phi, and the global would become a pointer too. -/
theorem pending :
    ¬ ∃ passes final, reachFixedPoint program globalFirst passes start = .stopped final ∧
      NothingPending program final := by
  rintro ⟨passes, final, result, nothing⟩
  have passed : pass program globalFirst start =
      some (((pass program globalFirst start).get (by decide)).1, false) := rfl
  rcases ChaoticIteration.lastSweep_of_untilUnchanged result with ⟨last, ends'⟩
  obtain ⟨rfl, rfl⟩ := ChaoticIteration.LastSweep.unique ⟨.refl, passed⟩ ends'
  exact absurd (nothing .global (by decide)) (by decide)

end PhiOfGlobal

/-! ## The order of the visits -/

/-- The values that are in the map at the start or entered in any order of visits. -/
inductive Entered (m : Module V) (types : Types V) : V → Prop where
  | initial {v : V} (entered : (types v).isSome) : Entered m types v
  | read {p : V} {rule : Rule V} (entered : Entered m types p) (member : some rule ∈ rules m p)
      (notNull : m.isNullValue rule.source = false) : Entered m types rule.source

/-- Every rule of every value, without the conditions on which the analysis applies it. -/
def system (m : Module V) (types : Types V) (p : V)
    (bound : (V → OTLatticePoint) → OTLatticePoint) : Prop :=
  Entered m types p ∧ ∃ rule, some rule ∈ rules m p ∧ bound = fun x => contribution m x rule

/-- No rule of `p` is kept from a meet that would change its point. -/
def MeetsEverything (m : Module V) (p : V) (types : Types V) : Prop :=
  (types p).isSome → ∀ known ∈ rules m p, ∀ rule ∈ known,
    allowed m p (points types) rule = some false →
    (OTLatticePoint.meet (points types p) (contribution m (points types) rule)).2 = false

instance : Decidable (MeetsEverything m p types) :=
  inferInstanceAs (Decidable (_ → ∀ known ∈ rules m p, ∀ rule ∈ known, _ → _))

/-- No visit of the last pass is kept from a meet or enters a value the pass has gone by. -/
def Unhindered (m : Module V) (order : VisitOrder V) (start : Types V) : Prop :=
  ∀ last final, ChaoticIteration.LastSweep (pass m order) start last final →
    ∀ before p after turn flag, order.values = before ++ p :: after →
      ChaoticIteration.sweep (visit m) before last = some (turn, flag) →
      MeetsEverything m p turn ∧ ReadsAhead m before p turn

omit [DecidableEq V] in
theorem look_monotone {x y : V → OTLatticePoint} (le : x ≤ y) : look m x v ≤ look m y v := by
  unfold look
  split
  · exact le_rfl
  · exact le v

omit [DecidableEq V] in
theorem contribution_monotone {x y : V → OTLatticePoint} (le : x ≤ y) :
    contribution m x rule ≤ contribution m y rule := by
  cases rule with
  | load source =>
      exact (LatticePoint.map_le_map fun _ _ => AlaskaType.pointer_le_pointer).mpr
        (look_monotone le)
  | meet source | meetDefined source => exact look_monotone le

section System

variable {start last final : Types V} {before after : List V} {y : V → OTLatticePoint}

/-- All values in the map are entered ones, and no point has passed a solution. -/
def Below (m : Module V) (start : Types V) (y : V → OTLatticePoint) (types : Types V) : Prop :=
  (∀ v, (types v).isSome → Entered m start v) ∧ points types ≤ y

theorem below_of_applied {allow : Bool} (solves : ChaoticIteration.Solves (system m start) y)
    (member : some rule ∈ rules m p) (entered : (types p).isSome) (below : Below m start y types)
    (applied : Applied m p types rule types' flag allow) : Below m start y types' := by
  have known := below.1 p entered
  constructor
  · intro v isEntered
    rcases (applied.isSome v).mp isEntered with before | ⟨rfl, notNull⟩
    · exact below.1 v before
    · exact .read known member notNull
  · rw [applied.points]
    split
    · apply update_le_iff.mpr
      refine ⟨OTLatticePoint.meet_le.mpr ⟨below.2 p, ?_⟩, fun v _ => below.2 v⟩
      exact (contribution_monotone below.2).trans (solves p _ ⟨known, rule, member, rfl⟩)
    · exact below.2

theorem below_pass (solves : ChaoticIteration.Solves (system m start) y)
    (below : Below m start y types) (passed : pass m order types = some (types', flag)) :
    Below m start y types' := by
  refine ChaoticIteration.sweep_invariant (Below m start y) ?_ below passed
  intro p _ types types' flag below visited
  exact visit_invariant (Below m start y)
    (fun rule _ _ _ _ member entered below applied =>
      below_of_applied solves member entered below applied) below visited

theorem solves_overdefined : ChaoticIteration.Solves (system m start) fun _ => .overdefined :=
  fun _ _ _ => LatticePoint.le_overdefined

/-- Only entered values are ever in the map. -/
theorem entered_of_lastSweep (ends : ChaoticIteration.LastSweep (pass m order) start last final)
    (found : (final v).isSome) : Entered m start v := by
  have below : Below m start (fun _ => .overdefined) last :=
    ends.1.invariant _ (fun _ _ _ below passed => below_pass solves_overdefined below passed)
      ⟨fun _ entered => .initial entered, fun _ => LatticePoint.le_overdefined⟩
  exact (below_pass solves_overdefined below ends.2).1 v found

/-- A visit has in the map all the values it reads. -/
theorem isSome_visit_of_read (member : some rule ∈ rules m p)
    (notNull : m.isNullValue rule.source = false) (entered : (types p).isSome)
    (visited : visit m p types = some (types', flag)) : (types' rule.source).isSome := by
  rcases List.append_of_mem member with ⟨before, after, split⟩
  rw [visit, if_pos entered] at visited
  rcases ChaoticIteration.sweep_split visited split with
    ⟨middle, next, _, _, _, reached, applied, rest, _⟩
  have here : (middle p).isSome := ChaoticIteration.sweep_invariant
    (fun types : Types V => (types p).isSome)
    (fun _ _ _ _ _ entered applied => isSome_of_tryRule entered applied entered) entered reached
  rcases applied_of_tryRule here applied with ⟨_, _, ⟨⟩, after⟩
  refine (ChaoticIteration.sweep_invariant
    (fun types : Types V => (types p).isSome ∧ (types rule.source).isSome) ?_
    ⟨(after.isSome p).mpr (Or.inl here), (after.isSome _).mpr (Or.inr ⟨rfl, notNull⟩)⟩ rest).2
  rintro _ _ _ _ _ ⟨entered, found⟩ applied
  exact ⟨isSome_of_tryRule entered applied entered, isSome_of_tryRule entered applied found⟩

/-- Where nothing is entered behind, the last pass visits every value that is then in the map. -/
theorem visited_in_lastPass (ends : ChaoticIteration.LastSweep (pass m order) start last final)
    (unhindered : Unhindered m order start) (found : (final p).isSome) :
    ∃ before after turn turn', order.values = before ++ p :: after ∧
      LastVisit m order last final before p turn turn' ∧ (turn p).isSome := by
  rcases visited_or_entered_behind ends.2 found with
    visited | ⟨before, q, after, turn, turn', split, gone, isVisit, missing, entered⟩
  · exact visited
  · have ahead := (unhindered last final ends before q after turn false split isVisit.reached).2
    rw [ahead.eq_none gone missing isVisit.visited] at entered
    contradiction

/-- The last pass is unhindered when each of its turns is. -/
theorem unhindered_of_turns (ends : ChaoticIteration.LastSweep (pass m order) start last final)
    (turns : ∀ i : Fin order.values.length,
      (ChaoticIteration.sweep (visit m) (order.values.take i) last).all (fun turn =>
        MeetsEverything m (order.values.get i) turn.1 ∧
          ReadsAhead m (order.values.take i) (order.values.get i) turn.1) = true) :
    Unhindered m order start := by
  intro last' final' ends' before p after turn flag split reached
  obtain ⟨rfl, rfl⟩ := ends.unique ends'
  have inRange : before.length < order.values.length := by
    simp [split]
  have isTurn := turns ⟨before.length, inRange⟩
  have taken : order.values.take before.length = before := by simp [split]
  simp only [taken, reached, Option.all_some, decide_eq_true_eq] at isTurn
  simpa [split] using isTurn

/-- A visit that changes nothing and is kept from no meet finds the rules of its value met. -/
theorem contribution_le_of_unchanged (met : MeetsEverything m p types)
    (entered : (types p).isSome) (visited : visit m p types = some (types', false))
    (member : some rule ∈ rules m p) : contribution m (points types) rule ≤ points types p := by
  rcases List.append_of_mem member with ⟨before, after, split⟩
  rw [visit, if_pos entered] at visited
  rcases ChaoticIteration.sweep_unchanged visited split with ⟨middle, next, reached, applied, _⟩
  -- the rules before this one have left the points as they were
  have kept : (middle p).isSome := ChaoticIteration.sweep_invariant
    (fun types : Types V => (types p).isSome)
    (fun _ _ _ _ _ entered applied => isSome_of_tryRule entered applied entered) entered reached
  have same : points middle = points types :=
    (ChaoticIteration.Raises.sweep fun _ _ => raises_tryRule).unchanged types middle entered reached
  rcases applied_of_tryRule kept applied with ⟨_, allow, ⟨⟩, after⟩
  have flag := after.flag
  have allowed := after.allowed
  rw [same] at flag allowed
  apply OTLatticePoint.meet_unchanged.mp
  cases allow with
  | true => simpa using flag.symm
  | false => exact met entered _ member rule rfl allowed

/-- An unhindered iteration ends with all entered values in the map. -/
theorem isSome_of_entered (ends : ChaoticIteration.LastSweep (pass m order) start last final)
    (unhindered : Unhindered m order start) (entered : Entered m start v) : (final v).isSome := by
  induction entered with
  | initial found =>
      have kept := ends.1.invariant (fun types : Types V => (types _).isSome)
        (fun _ _ _ found passed => isSome_of_sweep found passed) found
      exact isSome_of_sweep kept ends.2
  | read _ member notNull ih =>
      rcases visited_in_lastPass ends unhindered ih with ⟨_, _, turn, turn', _, isVisit, found⟩
      exact isVisit.isSome_final _ (isSome_visit_of_read member notNull found isVisit.visited)

theorem solves_of_unhindered (ends : ChaoticIteration.LastSweep (pass m order) start last final)
    (unhindered : Unhindered m order start) :
    ChaoticIteration.Solves (system m start) (points final) := by
  rintro p _ ⟨entered, rule, member, rfl⟩
  rcases visited_in_lastPass ends unhindered (isSome_of_entered ends unhindered entered)
    with ⟨before, after, turn, turn', split, isVisit, found⟩
  rw [← isVisit.points_turn.trans (points_pass ends.2).symm]
  exact contribution_le_of_unchanged
    (unhindered last final ends before p after turn false split isVisit.reached).1 found
    isVisit.visited member

/-- An unhindered iteration computes the least solution of its rules. -/
theorem isLeast_of_unhindered (ends : ChaoticIteration.LastSweep (pass m order) start last final)
    (unhindered : Unhindered m order start) :
    IsLeast {y | ChaoticIteration.Solves (system m start) y ∧ points start ≤ y}
      (points final) := by
  have raises : ChaoticIteration.Raises points
      (fun types : Types V => ∀ v, (types v).isSome → Entered m start v) (pass m order) := by
    refine ⟨fun types types' flag known passed => ?_,
      fun types types' _ => raises_pass.unchanged types types' trivial,
      fun types types' _ => raises_pass.changed types types' trivial⟩
    exact (below_pass solves_overdefined ⟨known, fun _ => LatticePoint.le_overdefined⟩ passed).1
  apply ChaoticIteration.isLeast_of_solves raises _ _ ends (solves_of_unhindered ends unhindered)
  · exact fun types types' flag y known solves le passed =>
      (below_pass solves ⟨known, le⟩ passed).2
  · exact fun v found => .initial found

end System

/--
Two runs from the same map give every value the same point, whatever the orders of their
visits, when no condition keeps a rule of the last pass from a meet that would change a
point and no lookup of that pass enters a value the pass has gone by. The points are the
least solution of the rules.
-/
theorem final_eq_of_unhindered (m : Module V) (start : Types V) (order order' : VisitOrder V)
    {passes passes' : Nat} {final final' : Types V}
    (result : reachFixedPoint m order passes start = .stopped final)
    (result' : reachFixedPoint m order' passes' start = .stopped final')
    (unhindered : Unhindered m order start) (unhindered' : Unhindered m order' start) :
    final = final' ∧
      IsLeast {y | ChaoticIteration.Solves (system m start) y ∧ points start ≤ y}
        (points final) := by
  rcases ChaoticIteration.lastSweep_of_untilUnchanged result with ⟨last, ends⟩
  rcases ChaoticIteration.lastSweep_of_untilUnchanged result' with ⟨last', ends'⟩
  have least := isLeast_of_unhindered ends unhindered
  refine ⟨?_, least⟩
  have same : points final = points final' :=
    least.unique (isLeast_of_unhindered ends' unhindered')
  funext v
  have sameAt := congrFun same v
  cases found : final v with
  | none =>
      cases found' : final' v with
      | none => rfl
      | some point =>
          have entered := entered_of_lastSweep ends' (by rw [found']; rfl)
          have := isSome_of_entered ends unhindered entered
          rw [found] at this
          contradiction
  | some point =>
      have entered := entered_of_lastSweep ends (by rw [found]; rfl)
      rcases Option.isSome_iff_exists.mp (isSome_of_entered ends' unhindered' entered)
        with ⟨point', found'⟩
      simp only [points, found, found', Option.getD_some] at sameAt
      rw [found', sameAt]

namespace PhiOfGlobal

def phiFirst : VisitOrder Name where
  values := [.phi, .global, .integer]
  nodup := by decide
  complete v := by cases v <;> decide

def integerFirst : VisitOrder Name where
  values := [.integer, .phi, .global]
  nodup := by decide
  complete v := by cases v <;> decide

/-- The map after one more pass. -/
def next (order : VisitOrder Name) (types : Types Name) : Types Name :=
  ((pass program order types).map Prod.fst).getD types

theorem lastSweep_phiFirst : ChaoticIteration.LastSweep (pass program phiFirst) start
    (next phiFirst start) (next phiFirst (next phiFirst start)) :=
  ⟨.single rfl, rfl⟩

theorem lastSweep_integerFirst : ChaoticIteration.LastSweep (pass program integerFirst) start
    (next integerFirst start) (next integerFirst (next integerFirst start)) :=
  ⟨.single rfl, rfl⟩

/-- Both orders visit the global, so both find that it points to an integer. -/
theorem final_eq :
    (∃ final, reachFixedPoint program phiFirst 2 start = .stopped final ∧
      reachFixedPoint program integerFirst 2 start = .stopped final ∧
      final .global = some (.defined (.pointer (.primitive "i32")))) := by
  have same := @final_eq_of_unhindered _ _ program start phiFirst integerFirst 2 2
    (next phiFirst (next phiFirst start)) (next integerFirst (next integerFirst start)) rfl rfl
    (unhindered_of_turns lastSweep_phiFirst (by decide))
    (unhindered_of_turns lastSweep_integerFirst (by decide))
  refine ⟨next phiFirst (next phiFirst start), rfl, ?_, by decide⟩
  rw [same.1]
  rfl

end PhiOfGlobal

namespace LoadOfFreeze

/-!
A pointer is loaded from its argument; the program loads an integer from it and, after a
freeze, a float.
-/

inductive Name where
  | argument
  | loaded
  | frozen
  | integer
  | float
  deriving DecidableEq

def program : Module Name where
  kind _ := .other
  uses
    | .argument => [.load .loaded .argument true]
    | .loaded => [.freeze .frozen, .load .integer .loaded false]
    | .frozen => [.load .float .frozen false]
    | _ => []
  isNullValue _ := false

def start : Types Name
  | .argument => some (.defined (.pointer (.var 0)))
  | .loaded => some (.defined (.pointer (.primitive "i32")))
  | .frozen => some (.defined (.pointer (.primitive "float")))
  | _ => none

def argumentFirst : VisitOrder Name where
  values := [.argument, .loaded, .frozen, .integer, .float]
  nodup := by decide
  complete v := by cases v <;> decide

def loadedFirst : VisitOrder Name where
  values := [.loaded, .argument, .frozen, .integer, .float]
  nodup := by decide
  complete v := by cases v <;> decide

/--
Visited first, the argument is met with a pointer to the integer pointer; visited after the
loaded value has become overdefined, it keeps its type.
-/
theorem order_matters :
    ¬ ∀ (order order' : VisitOrder Name) (passes passes' : Nat) (final final' : Types Name),
      reachFixedPoint program order passes start = .stopped final →
      reachFixedPoint program order' passes' start = .stopped final' →
      ∀ v, points final v = points final' v := by
  intro same
  have equal := same argumentFirst loadedFirst 2 2 _ _ rfl rfl .argument
  exact absurd equal (by decide)

end LoadOfFreeze

end Alaska.OptimisticTypes
