import Alaska.Compiler.Cfg

/-!
# The placement of releases

`TranslationForest::apply` inserts the translations, computes by a worklist where each of
them is live, and releases it where it stops being live: after an instruction that is not a
terminator, or on an edge of a branch. The worklist follows the edges of a switch to its
cases but not to its default.
-/

namespace Alaska

open Lts Liveness

/-- Where a translation is inserted. -/
structure TranslationBounds where
  id : Nat
  translateBefore : Nat

/--
A function whose instructions are numbered, with the instruction of each node of the forest and
the translation that it uses, and the translations in the order of their ids.
-/
structure ForestInput where
  func : Cfg Nat
  nodes : List (Nat × Nat)
  translations : List TranslationBounds

/-- An instruction of the function, or a call that was inserted for a translation. -/
inductive ForestInst where
  | original (inst : Nat)
  | root (id : Nat)
  | translate (id : Nat)
  deriving DecidableEq

namespace ForestInput

variable (input : ForestInput)

/-- The translations that are inserted before an instruction. -/
def translationsBefore (inst : Nat) : List Nat :=
  (input.translations.filter fun bounds => bounds.translateBefore == inst).map TranslationBounds.id

/--
`inst2bounds`: one translation for an instruction, that written last. A translation that is
inserted before the instruction takes the entry, whatever the instruction uses.
-/
def inst2bounds (inst : Nat) : Option Nat :=
  match (input.translationsBefore inst).getLast? with
  | some id => some id
  | none => (input.nodes.filter fun node => node.1 == inst).getLast?.map Prod.snd

/-- What `insertRootBefore` and `insertTranslationBefore` put before an instruction. -/
def inserted (inst : Nat) : List ForestInst :=
  (input.translationsBefore inst).map .root ++ (input.translationsBefore inst).map .translate

def instrumentBlock (block : Block Nat) : Block ForestInst where
  body := (block.body.flatMap fun inst => input.inserted inst ++ [.original inst]) ++
    input.inserted block.last
  last := .original block.last
  terminator := block.terminator

/-- The function with its translations. -/
def instrument : Cfg ForestInst where
  blocks := input.func.blocks.map input.instrumentBlock
  nonempty := by simpa using input.func.nonempty
  closed := by
    intro block member target isTarget
    rcases List.mem_map.mp member with ⟨original, isBlock, rfl⟩
    rw [List.length_map]
    exact input.func.closed original isBlock target isTarget

/-- `GEN`, the entry of the instruction in `inst2bounds`. -/
def gen : ForestInst → Finset Nat
  | .original inst => (input.inst2bounds inst).toFinset
  | _ => ∅

/-- `KILL`. -/
def kill : ForestInst → Finset Nat
  | .translate id => {id}
  | _ => ∅

end ForestInput

/-- The edges that the worklist follows. -/
def Terminator.followed : Terminator → List Nat
  | .br successors => successors
  | .switch _ caseSuccessors => caseSuccessors
  | .invoke normalDest unwindDest => [normalDest, unwindDest]
  | .other successors => successors

theorem Terminator.followed_subset (t : Terminator) : t.followed ⊆ t.successors := by
  cases t with
  | switch defaultDest caseSuccessors => exact List.subset_cons_self _ _
  | _ => exact List.Subset.refl _

namespace ForestInput

/-- The analysis of the instrumented function. -/
def dataflow (input : ForestInput) : System Point Nat :=
  input.instrument.dataflow Terminator.followed input.gen kill

/-- `IN` and `OUT` after the worklist, which may be emptied in any order. -/
structure Solved (input : ForestInput) where
  state : State Point Nat
  visits : List Point
  run : Run (ofFunction input.dataflow.next) input.dataflow.start visits state
  done : state.todo = ∅

/-- Is control able to leave the block of the point by a branch? -/
def isBranch (g : Cfg ForestInst) (p : Point) : Bool :=
  match g.blocks[p.1]?.map Block.terminator with
  | some (.br _) => true
  | _ => false

variable {input : ForestInput}

/--
Is a release of `id` executed on the way from `p` to `q`? After an instruction with a next
one, if `id` is in its `IN` and not in its `OUT`, and on the edge of a branch that has `id`
in both to an instruction that does not have it in its `IN`.
-/
def Solved.releases (solved : input.Solved) (id : Nat) (p q : Point) : Bool :=
  if input.instrument.isTerminator p then
    isBranch input.instrument p && decide (id ∈ solved.state.into p) &&
      decide (id ∈ solved.state.out p) && decide (id ∉ solved.state.into q)
  else
    decide (id ∈ solved.state.into p) && decide (id ∉ solved.state.out p)

/-! ## Executions -/

/-- Where control is, and the translations that are held there. -/
structure Execution where
  point : Point
  held : Finset Nat

/-- The instruction is executed, and control goes to `q` along an edge that is followed. -/
def Solved.next (solved : input.Solved) (s : Execution) (q : Point) : Option Execution :=
  if (input.instrument.succ Terminator.followed s.point).contains q then
    some ⟨q, (s.held ∪ input.dataflow.kill s.point).filter fun id =>
      solved.releases id s.point q = false⟩
  else
    none

/-- Nothing is held at the entry. -/
def start : Execution := ⟨Cfg.entry, ∅⟩

/--
Some instruction ahead has the entry of the translation, along edges that are followed and
before the translation is made again.
-/
def Live (input : ForestInput) (id : Nat) (p : Point) : Prop := input.dataflow.Live id p

/--
Control leaves the range of a translation without a release: the translation was made for
nothing, or the range ends with a terminator that is no branch, or with one that has no live
edge.
-/
structure Leaks (input : ForestInput) (id : Nat) (p q : Point) : Prop where
  dead : ¬ input.Live id q
  unreleased : id ∈ input.dataflow.kill p ∨
    input.Live id p ∧ input.instrument.isTerminator p = true ∧
      ¬ (isBranch input.instrument p = true ∧
        ∃ q ∈ input.instrument.succ Terminator.followed p, input.Live id q)

/-- Control left the range of the translation on the path without a release. -/
def Leaked (input : ForestInput) (id : Nat) (path : List Point) : Prop :=
  ∃ before p q after, path = before ++ p :: q :: after ∧ input.Leaks id p q

variable {solved : input.Solved} {s t : Execution} {p q : Point} {id : Nat} {path : List Point}

/-! ## The entries of the instructions -/

/-- The entry is that of a node, if no other translation is inserted before its instruction. -/
theorem inst2bounds_of_node {inst : Nat} (node : (inst, id) ∈ input.nodes)
    (before : ∀ other ∈ input.translationsBefore inst, other = id)
    (nodes : ∀ other, (inst, other) ∈ input.nodes → other = id) :
    input.inst2bounds inst = some id := by
  unfold inst2bounds
  split
  · next other isLast => rw [before other (List.mem_of_getLast? isLast)]
  · have here : (inst, id) ∈ input.nodes.filter fun node => node.1 == inst := by
      simpa using node
    cases isLast : (input.nodes.filter fun node => node.1 == inst).getLast? with
    | none =>
        rw [List.getLast?_eq_none_iff] at isLast
        exact absurd isLast (List.ne_nil_of_mem here)
    | some last =>
        rcases List.mem_filter.mp (List.mem_of_getLast? isLast) with ⟨isNode, same⟩
        obtain rfl : last.1 = inst := by simpa using same
        rw [Option.map_some, nodes last.2 isNode]

theorem mem_gen {inst : Nat} (isAt : input.instrument.inst p = some (.original inst)) :
    id ∈ input.dataflow.gen p ↔ input.inst2bounds inst = some id := by
  simp [dataflow, Cfg.dataflow, isAt, gen]

/-- An instruction of the function keeps live what is live behind it. -/
theorem live_iff {inst : Nat} (isAt : input.instrument.inst p = some (.original inst)) :
    input.Live id p ↔ input.inst2bounds inst = some id ∨
      ∃ q ∈ input.instrument.succ Terminator.followed p, input.Live id q := by
  constructor
  · intro isLive
    cases isLive with
    | gen isGenerated => exact Or.inl ((mem_gen isAt).mp isGenerated)
    | edge next isLive _ => exact Or.inr ⟨_, next, isLive⟩
  · rintro (own | ⟨q, next, isLive⟩)
    · exact .gen ((mem_gen isAt).mpr own)
    · exact .edge next isLive (by simp [dataflow, Cfg.dataflow, isAt, kill])

/-- What has not the entry and goes on to one point only is as dead as that. -/
theorem dead_of_next (ungenerated : id ∉ input.dataflow.gen p)
    (only : input.instrument.succ Terminator.followed p = [q]) (dead : ¬ input.Live id q) :
    ¬ input.Live id p := by
  intro isLive
  cases isLive with
  | gen isGenerated => exact ungenerated isGenerated
  | @edge _ m next isLive _ =>
      have next : m ∈ input.instrument.succ Terminator.followed p := next
      rw [only, List.mem_singleton] at next
      exact dead (next ▸ isLive)

/-! ## The analysis -/

theorem dataflow_closed (input : ForestInput) : input.dataflow.Closed :=
  Cfg.dataflow_closed Terminator.followed_subset

theorem Solved.exact (solved : input.Solved) (isPoint : p ∈ input.instrument.points) (id : Nat) :
    (id ∈ solved.state.into p ↔ input.Live id p) ∧
      (id ∈ solved.state.out p ↔
        ∃ q ∈ input.instrument.succ Terminator.followed p, input.Live id q) := by
  have start := System.start_invariant input.dataflow
  have invariant := System.run_invariant input.dataflow_closed start solved.run
  rcases invariant.exact input.dataflow_closed solved.done p isPoint with ⟨into, out⟩
  exact ⟨into id, out id⟩

/--
The worklist is emptied whatever the order of the visits is, and then `IN` and `OUT` are the
translations that are live before and after each instruction, along the followed edges.
-/
theorem dataflow_exact (input : ForestInput) :
    (∀ visits state, Run (ofFunction input.dataflow.next) input.dataflow.start visits state →
      visits.length ≤ input.dataflow.rank input.dataflow.start ∧
      ∃ solved : input.Solved, visits <+: solved.visits) ∧
    ∀ (solved : input.Solved), ∀ p ∈ input.instrument.points, ∀ id,
      (id ∈ solved.state.into p ↔ input.Live id p) ∧
      (id ∈ solved.state.out p ↔
        ∃ q ∈ input.instrument.succ Terminator.followed p, input.Live id q) := by
  refine ⟨fun visits state run => ?_, fun solved p isPoint id => solved.exact isPoint id⟩
  have start := System.start_invariant input.dataflow
  refine ⟨System.length_le_rank input.dataflow_closed start run, ?_⟩
  have invariant := System.run_invariant input.dataflow_closed start run
  rcases System.exists_done input.dataflow_closed invariant with ⟨more, final, rest, done⟩
  exact ⟨⟨final, visits ++ more, run.append rest, done⟩, List.prefix_append _ _⟩

/-! ## The releases -/

theorem mem_points_of_mem_succ (next : q ∈ input.instrument.succ Terminator.followed p) :
    p ∈ input.instrument.points ∧ q ∈ input.instrument.points :=
  ⟨Cfg.mem_points.mpr (Cfg.exists_at_of_succ next),
    Cfg.mem_points.mpr (Cfg.exists_at_of_mem_succ Terminator.followed_subset next)⟩

/-- A translation that is released is not used any more. -/
theorem Solved.dead_of_releases (solved : input.Solved)
    (next : q ∈ input.instrument.succ Terminator.followed p)
    (released : solved.releases id p q = true) : ¬ input.Live id q := by
  rcases mem_points_of_mem_succ next with ⟨isPoint, isPoint'⟩
  simp only [Solved.releases] at released
  split at released
  · simp only [Bool.and_eq_true, decide_eq_true_eq] at released
    rw [← (solved.exact isPoint' id).1]
    exact released.2
  · simp only [Bool.and_eq_true, decide_eq_true_eq, (solved.exact isPoint id).2] at released
    exact fun isLive => released.2 ⟨q, next, isLive⟩

/-- The range of a translation is only left with a release or a leak. -/
theorem Solved.leaks_of_not_releases (solved : input.Solved)
    (next : q ∈ input.instrument.succ Terminator.followed p)
    (held : id ∈ input.dataflow.kill p ∨ input.Live id p) (dead : ¬ input.Live id q)
    (unreleased : solved.releases id p q = false) : input.Leaks id p q := by
  refine ⟨dead, ?_⟩
  rcases held with made | isLive
  · exact Or.inl made
  rcases mem_points_of_mem_succ next with ⟨isPoint, isPoint'⟩
  refine Or.inr ⟨isLive, ?_⟩
  have into := (solved.exact isPoint id).1.mpr isLive
  have into' := (solved.exact isPoint' id).1.not.mpr dead
  cases isTerminator : input.instrument.isTerminator p with
  | false =>
      have only := Cfg.succ_of_not_terminator isTerminator next
      have out : id ∉ solved.state.out p := by
        rw [(solved.exact isPoint id).2, only]
        simpa using dead
      simp [Solved.releases, isTerminator, into, out] at unreleased
  | true =>
      refine ⟨rfl, fun ⟨branch, out⟩ => ?_⟩
      rw [← (solved.exact isPoint id).2] at out
      simp [Solved.releases, isTerminator, branch, into, out, into'] at unreleased

/-- A step of an execution. -/
theorem Solved.next_eq (step : solved.next s q = some t) :
    q ∈ input.instrument.succ Terminator.followed s.point ∧ t.point = q ∧
      ∀ id, id ∈ t.held ↔ (id ∈ s.held ∨ id ∈ input.dataflow.kill s.point) ∧
        solved.releases id s.point q = false := by
  simp only [Solved.next, Option.ite_none_right_eq_some, Option.some.injEq,
    List.contains_iff_mem] at step
  rcases step with ⟨next, rfl⟩
  refine ⟨next, rfl, fun id => ?_⟩
  simp

/-- Every path along followed edges is that of an execution. -/
theorem Solved.exists_run (solved : input.Solved) (points : List Point) (p : Point)
    (path : List.IsChain (fun p q => q ∈ input.instrument.succ Terminator.followed p)
      (s.point :: points ++ [p])) :
    ∃ t, Run (ofFunction solved.next) s (points ++ [p]) t ∧ t.point = p := by
  induction points generalizing s with
  | nil =>
      refine ⟨_, .cons (if_pos (List.contains_iff_mem.mpr ?_)) (.nil _), rfl⟩
      simpa using path
  | cons q points ih =>
      have edges := List.isChain_cons_cons.mp path
      have first : solved.next s q = some _ := if_pos (List.contains_iff_mem.mpr edges.1)
      rcases ih (s := ⟨q, _⟩) edges.2 with ⟨t, run, isAt⟩
      exact ⟨t, .cons first run, isAt⟩

/-- A step keeps held what is live. -/
theorem Solved.step_held (solved : input.Solved) (step : solved.next s q = some t)
    (held : input.Live id s.point → id ∈ s.held) (isLive : input.Live id t.point) :
    id ∈ t.held := by
  rcases Solved.next_eq step with ⟨next, rfl, kept⟩
  refine (kept id).mpr ⟨?_, ?_⟩
  · by_cases made : id ∈ input.dataflow.kill s.point
    · exact Or.inr made
    · exact Or.inl (held (.edge next isLive made))
  · by_contra released
    exact solved.dead_of_releases next (by simpa using released) isLive

/-- In every execution a translation is held where it is live. -/
theorem Solved.held_of_live (solved : input.Solved) (run : Run (ofFunction solved.next) s path t)
    (held : input.Live id s.point → id ∈ s.held) (isLive : input.Live id t.point) :
    id ∈ t.held :=
  run.invariant (fun t => input.Live id t.point → id ∈ t.held)
    (fun _ _ _ held step => solved.step_held step held) held isLive

/-- A translation that is held where it is not live was leaked on the way. -/
theorem Solved.live_or_leaks (solved : input.Solved) (run : Run (ofFunction solved.next) s path t)
    (live : id ∈ s.held → input.Live id s.point) (held : id ∈ t.held) :
    input.Live id t.point ∨ input.Leaked id (s.point :: path) := by
  induction run with
  | nil => exact Or.inl (live held)
  | @cons s middle t q path head tail ih =>
      rcases Solved.next_eq head with ⟨next, rfl, kept⟩
      by_cases lost : id ∈ middle.held ∧ ¬ input.Live id middle.point
      · refine Or.inr ⟨[], s.point, middle.point, path, rfl, ?_⟩
        rcases (kept id).mp lost.1 with ⟨heldBefore, unreleased⟩
        exact solved.leaks_of_not_releases next (heldBefore.symm.imp_right live) lost.2 unreleased
      · rcases ih (by tauto) held with isLive | ⟨before, p, q, after, split, leaks⟩
        · exact Or.inl isLive
        · exact Or.inr ⟨s.point :: before, p, q, after, by rw [split]; rfl, leaks⟩

/--
In every execution along the followed edges, a translation that is not live at the entry is
held, made and not yet released, at every instruction that uses it and has its entry, as it
does when no other translation is used by it or inserted before it. At an instruction that uses
it and has the entry of another one, it is held when an entry ahead needs it, and else only if
it was leaked. One that is held anywhere where it is not live was leaked on the way.
-/
theorem Solved.balanced (solved : input.Solved)
    (run : Run (ofFunction solved.next) start path s) (dead : ¬ input.Live id Cfg.entry) :
    (∀ inst, input.instrument.inst s.point = some (.original inst) → (inst, id) ∈ input.nodes →
      ((∀ other ∈ input.translationsBefore inst, other = id) →
        (∀ other, (inst, other) ∈ input.nodes → other = id) →
        input.inst2bounds inst = some id) ∧
      (input.inst2bounds inst = some id → id ∈ s.held) ∧
      (input.inst2bounds inst ≠ some id →
        ((∃ q ∈ input.instrument.succ Terminator.followed s.point, input.Live id q) →
          id ∈ s.held) ∧
        (id ∈ s.held →
          (∃ q ∈ input.instrument.succ Terminator.followed s.point, input.Live id q) ∨
            input.Leaked id (Cfg.entry :: path)))) ∧
    (id ∈ s.held → input.Live id s.point ∨ input.Leaked id (Cfg.entry :: path)) := by
  have held : input.Live id s.point → id ∈ s.held :=
    solved.held_of_live run fun isLive => absurd isLive dead
  have leaked : id ∈ s.held → input.Live id s.point ∨ input.Leaked id (Cfg.entry :: path) :=
    solved.live_or_leaks run fun held => absurd held (Finset.notMem_empty id)
  refine ⟨fun inst isAt node => ⟨inst2bounds_of_node node, ?_, ?_⟩, leaked⟩
  · exact fun own => held ((live_iff isAt).mpr (Or.inl own))
  · intro other
    refine ⟨fun ahead => held ((live_iff isAt).mpr (Or.inr ahead)), fun isHeld => ?_⟩
    refine (leaked isHeld).imp_left fun isLive => ?_
    exact ((live_iff isAt).mp isLive).resolve_left other

/-- A translation that only one side of a branch uses. -/
def oneSide : ForestInput where
  func :=
    { blocks := [⟨[10], 11, .br [1, 2]⟩, ⟨[12], 13, .other []⟩, ⟨[], 14, .other []⟩]
      nonempty := by decide
      closed := by decide }
  nodes := [(10, 0), (12, 0)]
  translations := [⟨0, 10⟩]

theorem oneSide_dead : ¬ oneSide.Live 0 Cfg.entry := by
  refine dead_of_next (q := (0, 1)) (by decide) (by decide) ?_
  intro isLive
  cases isLive with
  | gen isGenerated => exact absurd isGenerated (by decide)
  | edge _ _ notKilled => exact absurd notKilled (by decide)

theorem balanced_oneSide : ∃ (solved : oneSide.Solved) (s : Execution),
    Run (ofFunction solved.next) start [(0, 1), (0, 2), (0, 3), (1, 0)] s ∧ 0 ∈ s.held := by
  have invariant := System.start_invariant oneSide.dataflow
  rcases System.exists_done oneSide.dataflow_closed invariant with ⟨visits, state, run, done⟩
  rcases Solved.exists_run ⟨state, visits, run, done⟩ (s := start)
    [(0, 1), (0, 2), (0, 3)] (1, 0) (by decide) with ⟨s, path, isAt⟩
  have uses := (Solved.balanced _ path oneSide_dead).1 12 (by rw [isAt]; decide) (by decide)
  exact ⟨_, s, path, uses.2.1 (uses.1 (by decide) (by simp [oneSide]))⟩

/-- Two instructions use a translation, and another one is inserted before the second of them. -/
def overwritten : ForestInput where
  func :=
    { blocks := [⟨[9, 10], 11, .other []⟩]
      nonempty := by decide
      closed := by decide }
  nodes := [(9, 0), (10, 0)]
  translations := [⟨0, 9⟩, ⟨1, 10⟩]

/-- The translation is released behind the first of them. -/
theorem releases_overwritten (solved : overwritten.Solved) :
    solved.releases 0 (0, 2) (0, 3) = true := by
  have isPoint : ((0, 2) : Point) ∈ overwritten.instrument.points := by decide
  have into : 0 ∈ solved.state.into (0, 2) :=
    (solved.exact isPoint 0).1.mpr (.gen (by decide))
  have dead : ¬ overwritten.Live 0 (0, 3) := by
    refine dead_of_next (q := (0, 4)) (by decide) (by decide) ?_
    refine dead_of_next (q := (0, 5)) (by decide) (by decide) ?_
    refine dead_of_next (q := (0, 6)) (by decide) (by decide) ?_
    intro isLive
    cases isLive with
    | gen isGenerated => exact absurd isGenerated (by decide)
    | edge next _ _ => exact absurd next List.not_mem_nil
  have out : 0 ∉ solved.state.out (0, 2) := by
    rw [(solved.exact isPoint 0).2]
    rintro ⟨q, next, isLive⟩
    exact dead (List.mem_singleton.mp next ▸ isLive)
  have inside : overwritten.instrument.isTerminator (0, 2) = false := by decide
  simp [Solved.releases, inside, into, out]

end ForestInput

end Alaska
