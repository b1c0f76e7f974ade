import Alaska.Compiler.AccessExpr
import Alaska.Compiler.Graph
import Alaska.Lib.Loop
import Alaska.Lib.StateElimination
import Mathlib.Tactic.FinCases

/-!
# Reduction of access automata

The loop of `AccessAutomata.cpp` that eliminates the instructions with one predecessor from the
graph of instructions. An instruction that follows itself without an access loses that edge
first; one with accesses on that edge is left for the second phase, in which they are starred.
An edge that is merged with an empty one takes its place, so the empty access is lost.
-/

namespace Alaska

universe u v

/-- The graph of instructions; the labels say what is accessed on the way. -/
abbrev AccessAutomaton (Instruction : Type u) (Token : Type v) :=
  DirectedGraph Instruction (EdgeLabel Token)

namespace AccessAutomaton

open EdgeLabel

variable {Instruction : Type u} {Token : Type v} [DecidableEq Instruction] [DecidableEq Token]

/-- The edge from an instruction to itself. -/
def selfLoop (g : AccessAutomaton Instruction Token) (inst : Instruction) :
    Option (EdgeLabel Token) :=
  ((g.incoming inst).find? fun inEdge => inEdge.1 = inst).map Prod.snd

/-- `self_edge`, which is null when there is no such edge and when it is empty. -/
def selfEdge (g : AccessAutomaton Instruction Token) (inst : Instruction) : EdgeLabel Token :=
  (g.selfLoop inst).join

def hasEmptyLoop (g : AccessAutomaton Instruction Token) (inst : Instruction) : Bool :=
  (g.selfLoop inst).any Option.isNone

def dropEmptyLoop (g : AccessAutomaton Instruction Token) (inst : Instruction) :
    AccessAutomaton Instruction Token :=
  if g.hasEmptyLoop inst then g.removeEdge inst inst else g

/-- Whether the instruction is eliminated. The edges are counted before an empty loop goes. -/
def eliminates (finishedReduction : Bool) (g : AccessAutomaton Instruction Token)
    (inst : Instruction) : Bool :=
  let inc := (g.incoming inst).length
  let outc := (g.outgoing inst).length
  let selfEdge := g.selfEdge inst
  !(!finishedReduction && selfEdge.isSome) &&
    ((selfEdge.isSome && inc = 2 || selfEdge.isNone && inc = 1) && 1 ≤ outc)

/-- The last predecessor other than the instruction itself; null is not an instruction. -/
def inEdge (g : AccessAutomaton Instruction Token) (inst : Instruction) :
    Option (Instruction × EdgeLabel Token) :=
  ((g.incoming inst).filter fun inEdge => inEdge.1 ≠ inst).getLast?

/-- The label on the way from the predecessor to the end of the instruction. -/
def through (g : AccessAutomaton Instruction Token) (inst : Instruction)
    (inEdge : EdgeLabel Token) : EdgeLabel Token :=
  match g.selfEdge inst with
  | some selfEdge => sequentialize inEdge (some (.star selfEdge))
  | none => inEdge

/-- The edge from the predecessor to one of the successors. -/
def mergeOut (inst inNode : Instruction) (inEdge : EdgeLabel Token)
    (g : AccessAutomaton Instruction Token) (out : Instruction × EdgeLabel Token) :
    AccessAutomaton Instruction Token :=
  if out.1 = inst then g
  else
    let newEdge := sequentialize inEdge out.2
    match g.getEdge inNode out.1 with
    | some e => (g.removeEdge inNode out.1).addEdge inNode out.1 (alternative newEdge e)
    | none => g.addEdge inNode out.1 newEdge

/-- The loop over the successors. Without a predecessor it does nothing, as an edge from null
is not added. -/
def mergeOuts (g : AccessAutomaton Instruction Token) (inst : Instruction) :
    AccessAutomaton Instruction Token :=
  match g.inEdge inst with
  | some (inNode, inEdge) =>
      (g.outgoing inst).foldl (mergeOut inst inNode (g.through inst inEdge)) g
  | none => g

/-- The edges around the instruction, before it is removed. -/
def bypass (g : AccessAutomaton Instruction Token) (inst : Instruction) :
    AccessAutomaton Instruction Token :=
  if (g.selfEdge inst).isSome then (g.mergeOuts inst).removeEdge inst inst
  else g.mergeOuts inst

/-- The outcome of the loop over the instructions, which ends at one that is eliminated. -/
structure Pass (Instruction : Type u) (Token : Type v) where
  graph : AccessAutomaton Instruction Token
  changed : Bool
  toRemove : Option Instruction

def pass (finishedReduction : Bool) :
    List Instruction → AccessAutomaton Instruction Token → Pass Instruction Token
  | [], g => ⟨g, false, none⟩
  | inst :: rest, g =>
      if g.eliminates finishedReduction inst then
        ⟨(g.dropEmptyLoop inst).bypass inst, g.hasEmptyLoop inst, some inst⟩
      else
        let later := pass finishedReduction rest (g.dropEmptyLoop inst)
        { later with changed := g.hasEmptyLoop inst || later.changed }

structure Reduction (Instruction : Type u) (Token : Type v) where
  graph : AccessAutomaton Instruction Token
  changed : Bool
  finishedReduction : Bool

/-- What follows the loop over the instructions. -/
def Pass.next (finishedReduction : Bool) (done : Pass Instruction Token) :
    Reduction Instruction Token :=
  match done.toRemove with
  | some inst => ⟨done.graph.removeNode inst, true, finishedReduction⟩
  | none =>
      if !done.changed && !finishedReduction then ⟨done.graph, true, true⟩
      else ⟨done.graph, done.changed, finishedReduction⟩

/-- The body of the outer loop. -/
def Reduction.body (s : Reduction Instruction Token) : Reduction Instruction Token :=
  (pass s.finishedReduction s.graph.nodes s.graph).next s.finishedReduction

/-- The reduction, with a bound on the executions of its loop. -/
def reduce (g : AccessAutomaton Instruction Token) (bound : Nat) : Reduction Instruction Token :=
  Loop.whileLoop Reduction.changed Reduction.body bound ⟨g, true, false⟩

/-! ## Words along the edges -/

open StateElimination

variable {g : AccessAutomaton Instruction Token} {inst inNode x y : Instruction}
  {access label inLabel : EdgeLabel Token} {word : List Token} {finishedReduction : Bool}

section EmptyLoop

omit [DecidableEq Token]

/-- The words of the edge from one instruction to another. -/
def edgeLanguage (g : AccessAutomaton Instruction Token) (x y : Instruction) : Language Token :=
  {word | ∃ access, (y, access) ∈ g.outgoing x ∧ word ∈ language access}

omit [DecidableEq Instruction] in
theorem mem_edgeLanguage : word ∈ g.edgeLanguage x y ↔
    ∃ access, (y, access) ∈ g.outgoing x ∧ word ∈ language access :=
  .rfl

theorem selfLoop_eq_some : g.selfLoop inst = some access ↔ (inst, access) ∈ g.outgoing inst := by
  constructor
  · intro found
    rcases Option.map_eq_some_iff.mp found with ⟨⟨inNode, access'⟩, search, rfl⟩
    have here : inNode = inst := by simpa using List.find?_some search
    subst here
    exact g.mem_incoming.mp (List.mem_of_find?_eq_some search)
  · intro member
    have found : ((g.incoming inst).find? fun inEdge => inEdge.1 = inst).isSome := by
      rw [List.find?_isSome]
      exact ⟨(inst, access), g.mem_incoming.mpr member, by simp⟩
    rcases Option.isSome_iff_exists.mp found with ⟨⟨inNode, access'⟩, search⟩
    have here : inNode = inst := by simpa using List.find?_some search
    subst here
    have other := g.mem_incoming.mp (List.mem_of_find?_eq_some search)
    rw [selfLoop, search, Option.map_some, DirectedGraph.outgoing_unique other member]

theorem hasEmptyLoop_iff : g.hasEmptyLoop inst = true ↔ (inst, none) ∈ g.outgoing inst := by
  rw [← selfLoop_eq_some, hasEmptyLoop]
  cases g.selfLoop inst with
  | none => simp
  | some access => cases access <;> simp

theorem selfEdge_eq_some {e : Expr Token} :
    g.selfEdge inst = some e ↔ (inst, some e) ∈ g.outgoing inst := by
  rw [← selfLoop_eq_some, selfEdge]
  exact Option.join_eq_some_iff

theorem mem_outgoing_dropEmptyLoop : (y, access) ∈ (g.dropEmptyLoop inst).outgoing x ↔
    (y, access) ∈ g.outgoing x ∧ ¬ ((x = inst ∧ y = inst) ∧ access = none) := by
  unfold dropEmptyLoop
  by_cases empty : g.hasEmptyLoop inst = true
  · rw [if_pos empty, DirectedGraph.mem_outgoing_removeEdge]
    apply and_congr_right
    intro member
    apply not_congr
    constructor
    · rintro ⟨rfl, rfl⟩
      exact ⟨⟨rfl, rfl⟩, DirectedGraph.outgoing_unique member (hasEmptyLoop_iff.mp empty)⟩
    · exact And.left
  · rw [if_neg empty]
    constructor
    · intro member
      refine ⟨member, ?_⟩
      rintro ⟨⟨rfl, rfl⟩, rfl⟩
      exact empty (hasEmptyLoop_iff.mpr member)
    · exact And.left

theorem nodes_dropEmptyLoop : (g.dropEmptyLoop inst).nodes = g.nodes := by
  unfold dropEmptyLoop
  split
  · rfl
  · rfl

/-- Nothing is lost with an empty edge from an instruction to itself. -/
theorem along_dropEmptyLoop : Along g.edgeLanguage x y word ↔
    Along (g.dropEmptyLoop inst).edgeLanguage x y word := by
  by_cases empty : g.hasEmptyLoop inst = true
  · have loop := hasEmptyLoop_iff.mp empty
    apply along_iff_of_loop
    · rintro word ⟨access, member, inWords⟩
      rw [DirectedGraph.outgoing_unique member loop] at inWords
      exact inWords
    · intro x y other
      ext word
      simp only [mem_edgeLanguage, mem_outgoing_dropEmptyLoop, other, false_and, not_false_eq_true,
        and_true]
    · ext word
      simp only [mem_edgeLanguage, mem_outgoing_dropEmptyLoop, true_and]
      refine iff_of_false ?_ (Language.notMem_zero word)
      rintro ⟨access, ⟨member, occupied⟩, _⟩
      exact occupied (DirectedGraph.outgoing_unique member loop)
  · rw [dropEmptyLoop, if_neg empty]

theorem inEdge_mem (found : g.inEdge inst = some (inNode, inLabel)) :
    inNode ≠ inst ∧ (inst, inLabel) ∈ g.outgoing inNode := by
  rcases List.mem_filter.mp (List.mem_of_getLast? found) with ⟨member, other⟩
  exact ⟨by simpa using other, g.mem_incoming.mp member⟩

/-- An instruction that is eliminated has at most one other predecessor. -/
theorem inEdge_of_eliminates (eliminates : g.eliminates finishedReduction inst = true)
    (other : x ≠ inst) (member : (inst, access) ∈ g.outgoing x) :
    (g.dropEmptyLoop inst).inEdge inst = some (x, access) := by
  have same : (g.dropEmptyLoop inst).inEdge inst = g.inEdge inst := by
    unfold dropEmptyLoop
    split
    · simp [inEdge, DirectedGraph.removeEdge, List.filter_filter]
    · rfl
  have short : ((g.incoming inst).filter fun inEdge => inEdge.1 ≠ inst).length ≤ 1 := by
    simp only [AccessAutomaton.eliminates, Bool.and_eq_true, Bool.or_eq_true,
      decide_eq_true_eq] at eliminates
    rcases eliminates.2.1 with ⟨loops, two⟩ | ⟨_, one⟩
    · rcases Option.isSome_iff_exists.mp loops with ⟨e, found⟩
      have loop := g.mem_incoming.mpr (selfEdge_eq_some.mp found)
      have fewer : ((g.incoming inst).filter fun inEdge => inEdge.1 ≠ inst).length <
          (g.incoming inst).length :=
        List.length_filter_lt_length_iff_exists.mpr ⟨_, loop, by simp⟩
      omega
    · exact (List.length_filter_le _ _).trans one.le
  have here : (x, access) ∈ (g.incoming inst).filter fun inEdge => inEdge.1 ≠ inst :=
    List.mem_filter.mpr ⟨g.mem_incoming.mpr member, by simpa using other⟩
  rw [same, inEdge]
  cases ins : (g.incoming inst).filter fun inEdge => inEdge.1 ≠ inst with
  | nil =>
      rw [ins] at here
      simp at here
  | cons first rest =>
      have alone : rest = [] := by
        rw [ins, List.length_cons] at short
        exact List.eq_nil_of_length_eq_zero (by omega)
      subst alone
      rw [ins, List.mem_singleton] at here
      rw [here]
      rfl

end EmptyLoop

/-! ## The edges around an instruction -/

/-- The label of the edge from a predecessor to a successor. -/
def mergedEdge (g : AccessAutomaton Instruction Token) (inNode : Instruction)
    (inLabel : EdgeLabel Token) (out : Instruction × EdgeLabel Token) : EdgeLabel Token :=
  match g.getEdge inNode out.1 with
  | some e => alternative (sequentialize inLabel out.2) e
  | none => sequentialize inLabel out.2

theorem nodes_mergeOut {out : Instruction × EdgeLabel Token} :
    (mergeOut inst inNode inLabel g out).nodes = g.nodes := by
  unfold mergeOut
  split
  · rfl
  · split
    · exact DirectedGraph.nodes_addEdge
    · exact DirectedGraph.nodes_addEdge

theorem mem_outgoing_mergeOut {out : Instruction × EdgeLabel Token} (inNodes : inNode ∈ g.nodes)
    (outNodes : out.1 ∈ g.nodes) :
    (y, access) ∈ (mergeOut inst inNode inLabel g out).outgoing x ↔
      ((x = inNode ∧ y = out.1) ∧ y ≠ inst ∧ access = g.mergedEdge inNode inLabel out) ∨
        (y, access) ∈ g.outgoing x ∧ ¬ ((x = inNode ∧ y = out.1) ∧ y ≠ inst) := by
  unfold mergeOut mergedEdge
  by_cases self : out.1 = inst
  · rw [if_pos self]
    by_cases here : x = inNode ∧ y = out.1
    · simp [here, self]
    · simp [here]
  · rw [if_neg self]
    cases parallel : g.getEdge inNode out.1 with
    | some e =>
        have removed : ¬ (g.removeEdge inNode out.1).Edge inNode out.1 := by
          intro edge
          rcases DirectedGraph.edge_iff.mp edge with ⟨label, member⟩
          exact (DirectedGraph.mem_outgoing_removeEdge.mp member).2 ⟨rfl, rfl⟩
        have present : inNode ∈ (g.removeEdge inNode out.1).nodes ∧
            out.1 ∈ (g.removeEdge inNode out.1).nodes := ⟨inNodes, outNodes⟩
        simp only [DirectedGraph.mem_outgoing_addEdge, DirectedGraph.mem_outgoing_removeEdge]
        by_cases here : x = inNode ∧ y = out.1
        · simp [here, self, removed, present]
        · simp [here]
    | none =>
        have missing : ¬ g.Edge inNode out.1 := DirectedGraph.getEdge_eq_none.mp parallel
        simp only [DirectedGraph.mem_outgoing_addEdge]
        by_cases here : x = inNode ∧ y = out.1
        · have absent : (out.1, access) ∉ g.outgoing inNode :=
            fun member => missing (DirectedGraph.edge_iff.mpr ⟨_, member⟩)
          simp [here, self, missing, inNodes, outNodes, absent]
        · simp [here]

theorem mem_outgoing_foldl {outs : List (Instruction × EdgeLabel Token)}
    (nodup : (outs.map Prod.fst).Nodup) (inNodes : inNode ∈ g.nodes)
    (outNodes : ∀ out ∈ outs, out.1 ∈ g.nodes) :
    (y, access) ∈ (outs.foldl (mergeOut inst inNode inLabel) g).outgoing x ↔
      ((x = inNode ∧ y ≠ inst) ∧ ∃ label, (y, label) ∈ outs ∧
        access = g.mergedEdge inNode inLabel (y, label)) ∨
      (y, access) ∈ g.outgoing x ∧
        ¬ ((x = inNode ∧ y ≠ inst) ∧ ∃ label, (y, label) ∈ outs) := by
  induction outs generalizing g with
  | nil => simp
  | cons out outs ih =>
      rw [List.map_cons, List.nodup_cons] at nodup
      have outNode := outNodes out (by simp)
      have same : ∀ label, (y, label) ∈ outs →
          (mergeOut inst inNode inLabel g out).mergedEdge inNode inLabel (y, label) =
            g.mergedEdge inNode inLabel (y, label) := by
        intro label member
        have other : y ≠ out.1 := by
          rintro rfl
          exact nodup.1 (List.mem_map.mpr ⟨_, member, rfl⟩)
        have found : (mergeOut inst inNode inLabel g out).getEdge inNode y =
            g.getEdge inNode y := by
          apply Option.ext
          intro e
          simp only [DirectedGraph.getEdge_eq_some, mem_outgoing_mergeOut inNodes outNode]
          simp [other]
        simp only [mergedEdge, found]
      rw [List.foldl_cons, ih nodup.2 (by rwa [nodes_mergeOut])
        (fun out' member => by rw [nodes_mergeOut]; exact outNodes out' (by simp [member])),
        mem_outgoing_mergeOut inNodes outNode]
      constructor
      · rintro (⟨here, label, member, rfl⟩ | ⟨⟨⟨rfl, rfl⟩, other, rfl⟩ | ⟨old, away⟩, later⟩)
        · exact Or.inl ⟨here, label, List.mem_cons_of_mem _ member, same label member⟩
        · exact Or.inl ⟨⟨rfl, other⟩, out.2, List.mem_cons_self, rfl⟩
        · right
          refine ⟨old, ?_⟩
          rintro ⟨here, label, member⟩
          rcases List.mem_cons.mp member with rfl | member
          · exact away ⟨⟨here.1, rfl⟩, here.2⟩
          · exact later ⟨here, label, member⟩
      · rintro (⟨here, label, member, rfl⟩ | ⟨old, later⟩)
        · rcases List.mem_cons.mp member with rfl | member
          · right
            refine ⟨Or.inl ⟨⟨here.1, rfl⟩, here.2, rfl⟩, ?_⟩
            rintro ⟨_, label', member'⟩
            exact nodup.1 (List.mem_map.mpr ⟨_, member', rfl⟩)
          · exact Or.inl ⟨here, label, member, (same label member).symm⟩
        · right
          refine ⟨Or.inr ⟨old, ?_⟩, ?_⟩
          · rintro ⟨⟨rfl, rfl⟩, other⟩
            exact later ⟨⟨rfl, other⟩, out.2, List.mem_cons_self⟩
          · rintro ⟨here, label, member⟩
            exact later ⟨here, label, List.mem_cons_of_mem _ member⟩

theorem nodes_foldl {outs : List (Instruction × EdgeLabel Token)} :
    (outs.foldl (mergeOut inst inNode inLabel) g).nodes = g.nodes := by
  induction outs generalizing g with
  | nil => rfl
  | cons out outs ih => rw [List.foldl_cons, ih, nodes_mergeOut]

theorem nodes_bypass : (g.bypass inst).nodes = g.nodes := by
  have merged : (g.mergeOuts inst).nodes = g.nodes := by
    unfold mergeOuts
    split
    · exact nodes_foldl
    · rfl
  unfold bypass
  split
  · exact merged
  · exact merged

/-- The graph without an instruction that has been eliminated. -/
def eliminated (g : AccessAutomaton Instruction Token) (inst : Instruction) :
    AccessAutomaton Instruction Token :=
  (g.bypass inst).removeNode inst

theorem mem_outgoing_eliminated : (y, access) ∈ (g.eliminated inst).outgoing x ↔
    (x ≠ inst ∧ y ≠ inst) ∧
      ((∃ inLabel label, g.inEdge inst = some (x, inLabel) ∧ (y, label) ∈ g.outgoing inst ∧
          access = g.mergedEdge x (g.through inst inLabel) (y, label)) ∨
        (y, access) ∈ g.outgoing x ∧
          ¬ ∃ inLabel label, g.inEdge inst = some (x, inLabel) ∧
            (y, label) ∈ g.outgoing inst) := by
  have removed : (y, access) ∈ (g.eliminated inst).outgoing x ↔
      (x ≠ inst ∧ y ≠ inst) ∧ (y, access) ∈ (g.mergeOuts inst).outgoing x := by
    rw [eliminated, DirectedGraph.mem_outgoing_removeNode, and_comm]
    apply and_congr_right
    intro other
    unfold bypass
    split
    · rw [DirectedGraph.mem_outgoing_removeEdge]
      exact and_iff_left fun same => other.1 same.1
    · exact .rfl
  rw [removed]
  apply and_congr_right
  intro other
  unfold mergeOuts
  cases found : g.inEdge inst with
  | none => simp
  | some pair =>
      rcases pair with ⟨inNode, inLabel⟩
      rcases inEdge_mem found with ⟨_, enters⟩
      have inNodes : inNode ∈ g.nodes := (g.mem_nodes enters).1
      have outNodes : ∀ out ∈ g.outgoing inst, out.1 ∈ g.nodes :=
        fun out member => (g.mem_nodes member).2
      change (y, access) ∈ ((g.outgoing inst).foldl
        (mergeOut inst inNode (g.through inst inLabel)) g).outgoing x ↔ _
      rw [mem_outgoing_foldl (g.outgoing_nodup inst) inNodes outNodes]
      constructor
      · rintro (⟨⟨rfl, _⟩, label, member, rfl⟩ | ⟨old, away⟩)
        · exact Or.inl ⟨inLabel, label, rfl, member, rfl⟩
        · right
          refine ⟨old, ?_⟩
          rintro ⟨_, label, same, member⟩
          cases same
          exact away ⟨⟨rfl, other.2⟩, label, member⟩
      · rintro (⟨_, label, same, member, rfl⟩ | ⟨old, away⟩)
        · cases same
          exact Or.inl ⟨⟨rfl, other.2⟩, label, member, rfl⟩
        · right
          refine ⟨old, ?_⟩
          rintro ⟨⟨rfl, _⟩, label, member⟩
          exact away ⟨inLabel, label, rfl, member⟩

/-! ## When an elimination keeps the words -/

/-- An edge over the instruction is merged with a parallel one, and only one of them is empty. -/
def Drops (g : AccessAutomaton Instruction Token) (inst x y : Instruction) : Prop :=
  ∃ inLabel label e, (g.inEdge inst = some (x, inLabel) ∧ (y, label) ∈ g.outgoing inst) ∧
    y ≠ inst ∧ (y, e) ∈ g.outgoing x ∧
      (sequentialize (g.through inst inLabel) label).isNone ≠ e.isNone

/--
Does the edge that takes the place of those over the instruction accept the empty word? The
labels are those before the step, and a merge drops an empty one next to another one.
-/
def acceptsEmpty (g : AccessAutomaton Instruction Token) (inst x y : Instruction)
    (inLabel label : EdgeLabel Token) : Bool :=
  let across := inLabel.nullable && label.nullable
  match g.getEdge x y with
  | some (some e) =>
      if inLabel.isNone && (g.selfEdge inst).isNone && label.isNone then e.nullable
      else across || e.nullable
  | _ => across

/-- The empty word leads from `x` to `y` without the instruction, by an edge that is merged or
by one that is not. -/
def EmptyAccess (g : AccessAutomaton Instruction Token) (inst x y : Instruction) : Prop :=
  (x ≠ inst ∧ y ≠ inst) ∧
    ((∃ inLabel label, g.inEdge inst = some (x, inLabel) ∧ (y, label) ∈ g.outgoing inst ∧
        g.acceptsEmpty inst x y inLabel label = true) ∨
      ∃ access, (y, access) ∈ g.outgoing x ∧ access.nullable = true ∧
        ¬ ∃ inLabel label, g.inEdge inst = some (x, inLabel) ∧ (y, label) ∈ g.outgoing inst)

/-- Every empty access that a merge drops is possible by other empty accesses. -/
def Lossless (g : AccessAutomaton Instruction Token) (inst : Instruction) : Prop :=
  ∀ x y, g.Drops inst x y → Relation.ReflTransGen (g.EmptyAccess inst) x y

theorem nullable_mergedEdge :
    (g.mergedEdge x (g.through inst inLabel) (y, label)).nullable =
      g.acceptsEmpty inst x y inLabel label := by
  have through_nullable : (g.through inst inLabel).nullable = inLabel.nullable := by
    unfold through
    split
    · rw [nullable_sequentialize]
      exact Bool.and_true _
    · rfl
  have through_isNone : (g.through inst inLabel).isNone =
      (inLabel.isNone && (g.selfEdge inst).isNone) := by
    unfold through
    split
    · next loop => simp [loop]
    · next none => simp [none]
  have across : (sequentialize (g.through inst inLabel) label).nullable =
      (inLabel.nullable && label.nullable) := by
    rw [nullable_sequentialize, through_nullable]
  have isEmpty : (sequentialize (g.through inst inLabel) label).isNone =
      (inLabel.isNone && (g.selfEdge inst).isNone && label.isNone) := by
    rw [isNone_sequentialize, through_isNone]
  unfold mergedEdge acceptsEmpty
  simp only [← across, ← isEmpty]
  cases g.getEdge x y with
  | none => rfl
  | some e =>
      cases sequentialize (g.through inst inLabel) label with
      | none => cases e <;> rfl
      | some s =>
          cases e with
          | none => rfl
          | some e => exact nullable_alternative_some

theorem nil_mem_eliminated :
    [] ∈ (g.eliminated inst).edgeLanguage x y ↔ g.EmptyAccess inst x y := by
  simp only [mem_edgeLanguage, mem_outgoing_eliminated, EmptyAccess, ← nullable_iff,
    ← nullable_mergedEdge]
  constructor
  · rintro ⟨access, ⟨other, ⟨inLabel, label, found, member, rfl⟩ | ⟨old, away⟩⟩, empty⟩
    · exact ⟨other, Or.inl ⟨inLabel, label, found, member, empty⟩⟩
    · exact ⟨other, Or.inr ⟨access, old, empty, away⟩⟩
  · rintro ⟨other, ⟨inLabel, label, found, member, empty⟩ | ⟨access, old, empty, away⟩⟩
    · exact ⟨_, ⟨other, Or.inl ⟨inLabel, label, found, member, rfl⟩⟩, empty⟩
    · exact ⟨access, ⟨other, Or.inr ⟨old, away⟩⟩, empty⟩

section Elimination

variable (noEmpty : (inst, none) ∉ g.outgoing inst)

include noEmpty

omit [DecidableEq Token] in
theorem language_through : language (g.through inst inLabel) =
    language inLabel * KStar.kstar (g.edgeLanguage inst inst) := by
  unfold through
  cases loop : g.selfEdge inst with
  | none =>
      have nothing : g.edgeLanguage inst inst = 0 := by
        ext word
        refine iff_of_false ?_ (Language.notMem_zero word)
        rintro ⟨access, member, _⟩
        cases access with
        | none => exact noEmpty member
        | some e => simp [selfEdge_eq_some.mpr member] at loop
      simp [nothing]
  | some e =>
      have only : g.edgeLanguage inst inst = e.language := by
        ext word
        constructor
        · rintro ⟨access, member, inWords⟩
          rwa [DirectedGraph.outgoing_unique member (selfEdge_eq_some.mp loop)] at inWords
        · exact fun inWords => ⟨some e, selfEdge_eq_some.mp loop, inWords⟩
      rw [only, language_sequentialize]
      rfl

variable (single : ∀ x access, x ≠ inst → (inst, access) ∈ g.outgoing x →
  g.inEdge inst = some (x, access))

include single

omit [DecidableEq Token] in
theorem mem_eliminate_iff : word ∈ eliminate g.edgeLanguage inst x y ↔
    (x ≠ inst ∧ y ≠ inst) ∧ (word ∈ g.edgeLanguage x y ∨
      ∃ inLabel label, g.inEdge inst = some (x, inLabel) ∧ (y, label) ∈ g.outgoing inst ∧
        word ∈ language (sequentialize (g.through inst inLabel) label)) := by
  rw [mem_eliminate, Language.mem_add]
  apply and_congr_right
  intro other
  apply or_congr_right
  constructor
  · intro across
    rcases Language.mem_mul.mp across with ⟨prior, enters, last, ⟨label, member, leave⟩, rfl⟩
    rcases Language.mem_mul.mp enters with ⟨first, ⟨inLabel, enter, inFirst⟩, loops, turns, rfl⟩
    refine ⟨inLabel, label, single x inLabel other.1 enter, member, ?_⟩
    rw [language_sequentialize, language_through noEmpty]
    exact Language.mem_mul.mpr
      ⟨_, Language.mem_mul.mpr ⟨first, inFirst, loops, turns, rfl⟩, last, leave, rfl⟩
  · rintro ⟨inLabel, label, found, member, inWords⟩
    rw [language_sequentialize, language_through noEmpty] at inWords
    rcases Language.mem_mul.mp inWords with ⟨prior, enters, last, leave, rfl⟩
    rcases Language.mem_mul.mp enters with ⟨first, inFirst, loops, turns, rfl⟩
    refine Language.mem_mul.mpr ⟨_, ?_, last, ⟨label, member, leave⟩, rfl⟩
    exact Language.mem_mul.mpr
      ⟨first, ⟨inLabel, (inEdge_mem found).2, inFirst⟩, loops, turns, rfl⟩

theorem eliminate_of_eliminated (step : word ∈ (g.eliminated inst).edgeLanguage x y) :
    word ∈ eliminate g.edgeLanguage inst x y := by
  rw [mem_eliminate_iff noEmpty single]
  rcases step with ⟨access, member, inWords⟩
  rcases mem_outgoing_eliminated.mp member with
    ⟨other, ⟨inLabel, label, found, leaves, rfl⟩ | ⟨old, _⟩⟩
  · refine ⟨other, ?_⟩
    unfold mergedEdge at inWords
    cases parallel : g.getEdge x y with
    | none =>
        rw [parallel] at inWords
        exact Or.inr ⟨inLabel, label, found, leaves, inWords⟩
    | some e =>
        rw [parallel] at inWords
        rcases mem_language_alternative.mpr (Or.inl inWords) with across | direct
        · exact Or.inr ⟨inLabel, label, found, leaves, across⟩
        · exact Or.inl ⟨e, DirectedGraph.getEdge_eq_some.mp parallel, direct⟩
  · exact ⟨other, Or.inl ⟨access, old, inWords⟩⟩

theorem eliminated_of_eliminate (step : word ∈ eliminate g.edgeLanguage inst x y) :
    word ∈ (g.eliminated inst).edgeLanguage x y ∨ word = [] ∧ g.Drops inst x y := by
  rw [mem_eliminate_iff noEmpty single] at step
  rcases step with ⟨other, step⟩
  by_cases merged : ∃ inLabel label, g.inEdge inst = some (x, inLabel) ∧
      (y, label) ∈ g.outgoing inst
  · rcases merged with ⟨inLabel, label, found, leaves⟩
    have edge : (y, g.mergedEdge x (g.through inst inLabel) (y, label)) ∈
        (g.eliminated inst).outgoing x :=
      mem_outgoing_eliminated.mpr ⟨other, Or.inl ⟨inLabel, label, found, leaves, rfl⟩⟩
    have either : word ∈ language (sequentialize (g.through inst inLabel) label) ∨
        ∃ e, (y, e) ∈ g.outgoing x ∧ word ∈ language e := by
      rcases step with ⟨e, direct, inWords⟩ | ⟨inLabel', label', found', leaves', inWords⟩
      · exact Or.inr ⟨e, direct, inWords⟩
      · rw [found] at found'
        cases found'
        rw [DirectedGraph.outgoing_unique leaves' leaves] at inWords
        exact Or.inl inWords
    cases parallel : g.getEdge x y with
    | none =>
        left
        refine ⟨_, edge, ?_⟩
        have missing := DirectedGraph.getEdge_eq_none.mp parallel
        rcases either with across | ⟨e, direct, _⟩
        · simpa only [mergedEdge, parallel] using across
        · exact (missing (DirectedGraph.edge_iff.mpr ⟨e, direct⟩)).elim
    | some e =>
        have direct := DirectedGraph.getEdge_eq_some.mp parallel
        have words : word ∈ language (sequentialize (g.through inst inLabel) label) ∨
            word ∈ language e := by
          apply either.imp_right
          rintro ⟨e', direct', inWords⟩
          rwa [DirectedGraph.outgoing_unique direct direct']
        rcases mem_language_alternative.mp words with inWords | ⟨empty, differ⟩
        · left
          refine ⟨_, edge, ?_⟩
          simpa only [mergedEdge, parallel] using inWords
        · exact Or.inr ⟨empty, inLabel, label, e, ⟨found, leaves⟩, other.2, direct, differ⟩
  · rcases step with ⟨access, direct, inWords⟩ | ⟨inLabel, label, found, leaves, _⟩
    · exact Or.inl ⟨access, mem_outgoing_eliminated.mpr ⟨other, Or.inr ⟨direct, merged⟩⟩, inWords⟩
    · exact (merged ⟨inLabel, label, found, leaves⟩).elim

/-- An elimination keeps the words between the other instructions exactly when it is lossless. -/
theorem along_eliminated_iff : (∀ x ∈ (g.eliminated inst).nodes, ∀ y ∈ (g.eliminated inst).nodes,
      ∀ word, Along g.edgeLanguage x y word ↔
        Along (g.eliminated inst).edgeLanguage x y word) ↔ g.Lossless inst := by
  have remain : ∀ {x}, x ∈ (g.eliminated inst).nodes ↔ x ∈ g.nodes ∧ x ≠ inst := by
    intro x
    simp [eliminated, DirectedGraph.removeNode, nodes_bypass]
  constructor
  · intro kept x y drops
    rcases drops with ⟨inLabel, label, e, ⟨found, leaves⟩, other, direct, differ⟩
    have source := (inEdge_mem found).1
    have remains := g.mem_nodes direct
    have nil : [] ∈ eliminate g.edgeLanguage inst x y := by
      rw [mem_eliminate_iff noEmpty single]
      refine ⟨⟨source, other⟩, ?_⟩
      rcases mem_language_alternative.mpr (Or.inr ⟨rfl, differ⟩) with across | here
      · exact Or.inr ⟨inLabel, label, found, leaves, across⟩
      · exact Or.inl ⟨e, direct, here⟩
    have before := (along_eliminate source other).mp (.single nil)
    have after := (kept x (remain.mpr ⟨remains.1, source⟩) y (remain.mpr ⟨remains.2, other⟩)
      []).mp before
    apply Relation.ReflTransGen.mono _ _ _ (along_nil_iff.mp after)
    exact fun x y => nil_mem_eliminated.mp
  · intro lossless x inX y inY word
    rw [← along_eliminate (remain.mp inX).2 (remain.mp inY).2]
    apply along_iff_of_dropped
    · exact fun x y word => eliminate_of_eliminated noEmpty single
    · exact fun x y word => eliminated_of_eliminate noEmpty single
    · intro x y drops
      apply Relation.ReflTransGen.mono _ _ _ (lossless x y drops)
      exact fun x y => nil_mem_eliminated.mpr

end Elimination

/-! ## The whole reduction -/

/-- The words between the instructions that remain are the same. -/
def SameWords (g g' : AccessAutomaton Instruction Token) : Prop :=
  ∀ x ∈ g'.nodes, ∀ y ∈ g'.nodes, ∀ word,
    Along g.edgeLanguage x y word ↔ Along g'.edgeLanguage x y word

omit [DecidableEq Instruction] [DecidableEq Token] in
theorem SameWords.trans {g' g'' : AccessAutomaton Instruction Token} (first : SameWords g g')
    (second : SameWords g' g'') (subset : ∀ x ∈ g''.nodes, x ∈ g'.nodes) : SameWords g g'' := by
  intro x inX y inY word
  exact (first x (subset x inX) y (subset y inY) word).trans (second x inX y inY word)

omit [DecidableEq Token] in
theorem sameWords_dropEmptyLoop : SameWords g (g.dropEmptyLoop inst) :=
  fun _ _ _ _ _ => along_dropEmptyLoop

theorem sameWords_eliminated (eliminates : g.eliminates finishedReduction inst = true) :
    SameWords g ((g.dropEmptyLoop inst).eliminated inst) ↔
      (g.dropEmptyLoop inst).Lossless inst := by
  have noEmpty : (inst, none) ∉ (g.dropEmptyLoop inst).outgoing inst := by
    rw [mem_outgoing_dropEmptyLoop]
    exact fun member => member.2 ⟨⟨rfl, rfl⟩, rfl⟩
  have single : ∀ x access, x ≠ inst → (inst, access) ∈ (g.dropEmptyLoop inst).outgoing x →
      (g.dropEmptyLoop inst).inEdge inst = some (x, access) := by
    intro x access other member
    exact inEdge_of_eliminates eliminates other (mem_outgoing_dropEmptyLoop.mp member).1
  rw [← along_eliminated_iff noEmpty single]
  simp only [SameWords, @along_dropEmptyLoop _ _ _ g inst]

/-- Every elimination of the loop over the instructions is lossless. -/
def PassLossless (finishedReduction : Bool) :
    List Instruction → AccessAutomaton Instruction Token → Prop
  | [], _ => True
  | inst :: rest, g =>
      if g.eliminates finishedReduction inst then (g.dropEmptyLoop inst).Lossless inst
      else PassLossless finishedReduction rest (g.dropEmptyLoop inst)

def Reduction.Lossless (s : Reduction Instruction Token) : Prop :=
  PassLossless s.finishedReduction s.graph.nodes s.graph

/-- The graph after the removals that follow the loop over the instructions. -/
def Pass.result (done : Pass Instruction Token) : AccessAutomaton Instruction Token :=
  match done.toRemove with
  | some inst => done.graph.removeNode inst
  | none => done.graph

theorem subset_result {todo : List Instruction} :
    ∀ x ∈ (pass finishedReduction todo g).result.nodes, x ∈ g.nodes := by
  induction todo generalizing g with
  | nil => exact fun x member => member
  | cons inst rest ih =>
      unfold pass
      split
      · intro x member
        have inGraph := (List.mem_filter.mp member).1
        rwa [nodes_bypass, nodes_dropEmptyLoop] at inGraph
      · intro x member
        have inGraph := @ih (g.dropEmptyLoop inst) x member
        rwa [nodes_dropEmptyLoop] at inGraph

/-- One loop over the instructions. -/
theorem sameWords_pass {todo : List Instruction}
    (lossless : PassLossless finishedReduction todo g) :
    SameWords g (pass finishedReduction todo g).result := by
  induction todo generalizing g with
  | nil => exact fun _ _ _ _ _ => .rfl
  | cons inst rest ih =>
      unfold PassLossless at lossless
      unfold pass
      by_cases eliminates : g.eliminates finishedReduction inst = true
      · rw [if_pos eliminates] at lossless ⊢
        exact (sameWords_eliminated eliminates).mpr lossless
      · rw [if_neg eliminates] at lossless ⊢
        exact sameWords_dropEmptyLoop.trans (ih lossless) subset_result

omit [DecidableEq Token] in
theorem Pass.graph_next {done : Pass Instruction Token} :
    (done.next finishedReduction).graph = done.result := by
  unfold next result
  split
  · rfl
  · split
    · rfl
    · rfl

/-- A run whose eliminations are lossless. -/
theorem sameWords_reduce {bound : Nat}
    (lossless : ∀ k < bound, (reduce g k).changed = true → (reduce g k).Lossless) :
    SameWords g (reduce g bound).graph ∧ ∀ x ∈ (reduce g bound).graph.nodes, x ∈ g.nodes := by
  induction bound with
  | zero => exact ⟨fun _ _ _ _ _ => .rfl, fun _ member => member⟩
  | succ bound ih =>
      rcases ih fun k less => lossless k (by omega) with ⟨same, subset⟩
      have next : reduce g (bound + 1) =
          if (reduce g bound).changed then (reduce g bound).body else reduce g bound :=
        Loop.whileLoop_succ _
      rw [next]
      split
      · next changed =>
          rw [Reduction.body, Pass.graph_next]
          refine ⟨same.trans (sameWords_pass (lossless bound (by omega) changed)) subset_result, ?_⟩
          exact fun x member => subset x (subset_result x member)
      · exact ⟨same, subset⟩

/-! ## The reduction comes to an end -/

def emptyLoops (g : AccessAutomaton Instruction Token) : Nat :=
  g.nodes.countP g.hasEmptyLoop

omit [DecidableEq Token] in
theorem hasEmptyLoop_dropEmptyLoop : (g.dropEmptyLoop inst).hasEmptyLoop x = true ↔
    g.hasEmptyLoop x = true ∧ x ≠ inst := by
  rw [hasEmptyLoop_iff, hasEmptyLoop_iff, mem_outgoing_dropEmptyLoop]
  simp

omit [DecidableEq Token] in
theorem emptyLoops_dropEmptyLoop_le : (g.dropEmptyLoop inst).emptyLoops ≤ g.emptyLoops := by
  unfold emptyLoops
  rw [nodes_dropEmptyLoop]
  exact List.countP_mono_left fun x _ loops => (hasEmptyLoop_dropEmptyLoop.mp loops).1

omit [DecidableEq Token] in
theorem emptyLoops_dropEmptyLoop_lt (member : inst ∈ g.nodes)
    (loops : g.hasEmptyLoop inst = true) :
    (g.dropEmptyLoop inst).emptyLoops < g.emptyLoops := by
  unfold emptyLoops
  rw [nodes_dropEmptyLoop]
  refine DirectedGraph.countP_lt_countP ?_ member loops ?_
  · exact fun x _ loops => (hasEmptyLoop_dropEmptyLoop.mp loops).1
  · by_contra still
    simp only [Bool.not_eq_false] at still
    exact (hasEmptyLoop_dropEmptyLoop.mp still).2 rfl

/-- A loop over the instructions removes one of them, or some empty loops if it changes
anything. -/
theorem pass_measure {todo : List Instruction} (inNodes : ∀ inst ∈ todo, inst ∈ g.nodes) :
    (pass finishedReduction todo g).graph.nodes = g.nodes ∧
      match (pass finishedReduction todo g).toRemove with
      | some inst => inst ∈ g.nodes
      | none => (pass finishedReduction todo g).graph.emptyLoops ≤ g.emptyLoops ∧
          ((pass finishedReduction todo g).changed = true →
            (pass finishedReduction todo g).graph.emptyLoops < g.emptyLoops) := by
  induction todo generalizing g with
  | nil => simp [pass]
  | cons inst rest ih =>
      have here := inNodes inst (by simp)
      unfold pass
      by_cases eliminates : g.eliminates finishedReduction inst = true
      · rw [if_pos eliminates]
        exact ⟨nodes_bypass.trans nodes_dropEmptyLoop, here⟩
      · rw [if_neg eliminates]
        have later := @ih (g.dropEmptyLoop inst) fun other member => by
          rw [nodes_dropEmptyLoop]
          exact inNodes other (by simp [member])
        rw [nodes_dropEmptyLoop] at later
        refine ⟨later.1, ?_⟩
        have rest_measure := later.2
        simp only
        have dropped := @emptyLoops_dropEmptyLoop_le _ _ _ g inst
        cases removed : (pass finishedReduction rest (g.dropEmptyLoop inst)).toRemove with
        | some other => simpa [removed] using rest_measure
        | none =>
            rw [removed] at rest_measure
            refine ⟨rest_measure.1.trans dropped, ?_⟩
            intro changed
            rcases Bool.or_eq_true _ _ ▸ changed with loops | changed
            · exact rest_measure.1.trans_lt (emptyLoops_dropEmptyLoop_lt here loops)
            · exact (rest_measure.2 changed).trans_le dropped

/-- The instructions come first, then their empty loops, then the phase. -/
def Reduction.measure (s : Reduction Instruction Token) : Nat :=
  4 * (s.graph.nodes.length * (s.graph.nodes.length + 1) + s.graph.emptyLoops) +
    2 * (!s.finishedReduction).toNat + s.changed.toNat

theorem Reduction.body_measure {s : Reduction Instruction Token} (changed : s.changed = true) :
    s.body.measure < s.measure := by
  rcases @pass_measure _ _ _ _ s.graph s.finishedReduction s.graph.nodes fun _ member => member
    with ⟨nodes, outcome⟩
  let done := pass s.finishedReduction s.graph.nodes s.graph
  change (done.next s.finishedReduction).measure < s.measure
  cases removed : done.toRemove with
  | some inst =>
      have member : inst ∈ done.graph.nodes := by
        rw [nodes]
        simpa only [done, removed] using outcome
      have fewer : (done.graph.removeNode inst).nodes.length < s.graph.nodes.length := by
        rw [← nodes]
        exact List.length_filter_lt_length_iff_exists.mpr ⟨inst, member, by simp⟩
      have loops : (emptyLoops (done.graph.removeNode inst)) ≤
          (done.graph.removeNode inst).nodes.length := List.countP_le_length
      have inner := Nat.mul_le_mul_left (done.graph.removeNode inst).nodes.length fewer
      have outer := Nat.mul_le_mul_right (s.graph.nodes.length + 1) fewer
      rw [Nat.succ_mul] at outer
      rw [Nat.mul_succ] at outer
      simp only [Pass.next, removed, measure, changed, Bool.toNat_true]
      rw [Nat.succ_eq_add_one] at inner
      omega
  | none =>
      have counted : done.graph.emptyLoops ≤ s.graph.emptyLoops ∧
          (done.changed = true → done.graph.emptyLoops < s.graph.emptyLoops) := by
        simpa only [done, removed] using outcome
      have length : done.graph.nodes.length = s.graph.nodes.length := by rw [nodes]
      simp only [Pass.next, removed, measure]
      cases again : done.changed with
      | true =>
          have less := counted.2 again
          simp only [Bool.not_true, Bool.false_and, Bool.false_eq_true, if_false, length, changed]
          omega
      | false =>
          have le := counted.1
          cases phase : s.finishedReduction with
          | true =>
              simp only [Bool.not_true, Bool.and_false, Bool.false_eq_true, if_false, length,
                changed, Bool.toNat_true, Bool.toNat_false]
              omega
          | false =>
              simp only [Bool.not_false, Bool.and_self, if_true, length, changed,
                Bool.toNat_true, Bool.toNat_false, Bool.not_true]
              omega

theorem reduce_ends {bound : Nat}
    (enough : (⟨g, true, false⟩ : Reduction Instruction Token).measure ≤ bound) :
    (reduce g bound).changed = false :=
  @Loop.whileLoop_finished _ Reduction.changed Reduction.body (fun _ => True) Reduction.measure
    (fun _ _ _ => trivial) (fun _ _ changed => Reduction.body_measure changed) bound _ trivial
    enough

/-- An elimination keeps the words between the remaining instructions exactly when it is
lossless, the removal of an empty loop always does, and a run of the reduction, which comes to
an end, does when its eliminations are lossless. -/
theorem reduce_correct (g : AccessAutomaton Instruction Token) :
    (∀ finishedReduction inst, g.eliminates finishedReduction inst = true →
      (SameWords g ((g.dropEmptyLoop inst).eliminated inst) ↔
        (g.dropEmptyLoop inst).Lossless inst)) ∧
    (∀ inst, SameWords g (g.dropEmptyLoop inst)) ∧
    (∃ enough, ∀ bound ≥ enough, (reduce g bound).changed = false) ∧
    ∀ bound, (∀ k < bound, (reduce g k).changed = true → (reduce g k).Lossless) →
      SameWords g (reduce g bound).graph := by
  refine ⟨?_, ?_, ?_, ?_⟩
  · exact fun finishedReduction inst eliminates => sameWords_eliminated eliminates
  · exact fun inst => sameWords_dropEmptyLoop
  · exact ⟨_, fun bound enough => reduce_ends enough⟩
  · exact fun bound lossless => (sameWords_reduce lossless).1

/-- A branch over a load: `0` branches to the load `1` or to the end `3`, and `2` is the branch
from the load to the end. -/
def optionalLoad : AccessAutomaton (Fin 4) Int where
  nodes := [0, 1, 2, 3]
  outgoing a :=
    if a = 0 then [(1, none), (3, none)] else if a = 1 then [(2, some (.tok 8))]
    else if a = 2 then [(3, none)] else []
  incoming b :=
    if b = 1 then [(0, none)] else if b = 2 then [(1, some (.tok 8))]
    else if b = 3 then [(0, none), (2, none)] else []
  nodes_nodup := by decide
  mem_nodes {a b _} _ := (by decide : ∀ a b : Fin 4, a ∈ [0, 1, 2, 3] ∧ b ∈ [0, 1, 2, 3]) a b
  mem_incoming {a b edge} := by fin_cases a <;> fin_cases b <;> simp
  outgoing_nodup a := by fin_cases a <;> decide
  incoming_nodup b := by fin_cases b <;> decide

/-- In the reduced automaton the end is reached by the load only. -/
theorem reduce_optionalLoad : (reduce optionalLoad 9).changed = false ∧
    ¬ SameWords optionalLoad (reduce optionalLoad 9).graph := by
  refine ⟨rfl, fun same => ?_⟩
  have start : 0 ∈ (reduce optionalLoad 9).graph.nodes := List.mem_cons_self
  have stop : 3 ∈ (reduce optionalLoad 9).graph.nodes := List.mem_cons_of_mem _ List.mem_cons_self
  have skipped : Along optionalLoad.edgeLanguage 0 3 [] :=
    .single ⟨none, List.mem_cons_of_mem _ List.mem_cons_self, rfl⟩
  have kept := along_nil_iff.mp ((same 0 start 3 stop []).mp skipped)
  rcases Relation.ReflTransGen.cases_head kept with here | ⟨next, ⟨access, member, empty⟩, _⟩
  · exact absurd here (by decide)
  · have edges : (reduce optionalLoad 9).graph.outgoing 0 = [(3, some (.tok 8))] := rfl
    rw [edges, List.mem_singleton] at member
    cases member
    exact absurd (nullable_iff.mpr empty) (by decide)

end AccessAutomaton

end Alaska
