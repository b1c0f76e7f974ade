import Alaska.Compiler.Graph
import Mathlib.Data.List.Perm.Lattice

/-!
# Topological order

`topological_order` of `Graph.h`, a depth-first search that lists a node after the nodes it
leads to, and whose list is reversed in the end. The temporary marks are on the nodes whose
search has not come to an end, so an edge to one of them closes a cycle.
-/

namespace Alaska

universe u v

namespace DirectedGraph

variable {NodeType : Type u} {EdgeType : Type v}

/-- A loop whose body may return early with `false`, and may run out of its bound. -/
def whileTrue {State : Type u} (body : NodeType → State → Option (Bool × State)) :
    List NodeType → State → Option (Bool × State)
  | [], s => some (true, s)
  | node :: rest, s => do
      let (ok, s) ← body node s
      if ok then whileTrue body rest s else some (false, s)

variable {g : DirectedGraph NodeType EdgeType} {a b node : NodeType} [DecidableEq NodeType]

/-- The state of the depth-first search. -/
structure TopologicalSearch (NodeType : Type u) where
  order : List NodeType
  permanentMark : NodeType → Bool
  temporaryMark : NodeType → Bool

/-- `topological_order_helper`, with a bound on the depth of its recursion. -/
def topologicalOrderHelper (g : DirectedGraph NodeType EdgeType) :
    Nat → NodeType → TopologicalSearch NodeType → Option (Bool × TopologicalSearch NodeType)
  | 0, _, _ => none
  | depth + 1, node, s =>
      if s.permanentMark node then
        some (true, s)
      else if s.temporaryMark node then
        some (false, s)
      else do
        let s := { s with temporaryMark := Function.update s.temporaryMark node true }
        let (ok, s) ← whileTrue (topologicalOrderHelper g depth) (g.successors node) s
        if ok then
          some (true,
            { order := s.order ++ [node]
              permanentMark := Function.update s.permanentMark node true
              temporaryMark := Function.update s.temporaryMark node false })
        else
          some (false, s)

/-- `topological_order`; the outer `none` stands for a search that is too deep. -/
def topologicalOrder (g : DirectedGraph NodeType EdgeType) : Option (Option (List NodeType)) := do
  let start : TopologicalSearch NodeType := ⟨[], fun _ => false, fun _ => false⟩
  let visit := fun node (s : TopologicalSearch NodeType) =>
    if s.permanentMark node then some (true, s)
    else g.topologicalOrderHelper (g.nodes.length + 1) node s
  let (ok, s) ← whileTrue visit g.nodes start
  if ok then some (some s.order.reverse) else some none

namespace TopologicalSearch

variable {s s' : TopologicalSearch NodeType} {depth : Nat}

/-- The nodes without a mark. -/
def unmarked (g : DirectedGraph NodeType EdgeType) (s : TopologicalSearch NodeType) : Nat :=
  g.nodes.countP fun node => !s.permanentMark node && !s.temporaryMark node

/-- The permanently marked nodes are listed after all their successors. -/
structure Good (g : DirectedGraph NodeType EdgeType) (s : TopologicalSearch NodeType) : Prop where
  mem_order : ∀ node, s.permanentMark node = true ↔ node ∈ s.order
  nodup : s.order.Nodup
  subset : ∀ node ∈ s.order, node ∈ g.nodes
  closed : ∀ before node after, s.order = before ++ node :: after →
    ∀ successor, g.Edge node successor → successor ∈ before
  apart : ∀ node, s.temporaryMark node = true → s.permanentMark node = false

/-- What a search keeps on its way back. -/
structure Extends (s s' : TopologicalSearch NodeType) : Prop where
  order : s.order <+: s'.order
  temporary : s'.temporaryMark = s.temporaryMark

omit [DecidableEq NodeType] in
theorem Extends.refl (s : TopologicalSearch NodeType) : Extends s s :=
  ⟨List.prefix_refl _, rfl⟩

omit [DecidableEq NodeType] in
theorem Extends.trans {s'' : TopologicalSearch NodeType} (first : Extends s s')
    (second : Extends s' s'') : Extends s s'' :=
  ⟨first.order.trans second.order, second.temporary.trans first.temporary⟩

omit [DecidableEq NodeType] in
theorem Extends.unmarked_le (kept : Extends s s') (good : Good g s) (good' : Good g s') :
    unmarked g s' ≤ unmarked g s := by
  apply List.countP_mono_left
  intro node _ notMarked
  simp only [Bool.and_eq_true, Bool.not_eq_true'] at notMarked ⊢
  refine ⟨?_, by rw [← kept.temporary]; exact notMarked.2⟩
  have missing : node ∉ s'.order := by
    rw [← good'.mem_order, notMarked.1]
    simp
  have before : node ∉ s.order := fun member => missing (kept.order.subset member)
  rw [← good.mem_order] at before
  simpa using before

/-- The outcome of a search from a node: a good state in which it is marked, or a cycle. -/
def Searched (g : DirectedGraph NodeType EdgeType) (marked : List NodeType)
    (s : TopologicalSearch NodeType) : Option (Bool × TopologicalSearch NodeType) → Prop
  | none => False
  | some (false, _) => ¬ g.Acyclic
  | some (true, s') => Good g s' ∧ Extends s s' ∧ ∀ node ∈ marked, s'.permanentMark node = true

omit [DecidableEq NodeType] in
theorem Extends.permanent (kept : Extends s s') (good : Good g s) (good' : Good g s')
    (marked : s.permanentMark node = true) : s'.permanentMark node = true := by
  rw [good'.mem_order]
  exact kept.order.subset ((good.mem_order node).mp marked)

omit [DecidableEq NodeType] in
/-- The search of several nodes, one after the other. -/
theorem searched_whileTrue
    {visit : NodeType → TopologicalSearch NodeType → Option (Bool × TopologicalSearch NodeType)}
    {todo : List NodeType}
    (visits : ∀ node ∈ todo, ∀ s', Good g s' → Extends s s' →
      Searched g [node] s' (visit node s')) (good : Good g s) :
    Searched g todo s (whileTrue visit todo s) := by
  induction todo generalizing s with
  | nil => exact ⟨good, .refl s, by simp⟩
  | cons node rest ih =>
      have here := visits node (by simp) s good (.refl s)
      simp only [whileTrue]
      cases visited : visit node s with
      | none => simp [visited, Searched] at here
      | some result =>
          rcases result with ⟨_ | _, s₁⟩
          · simpa [visited, Searched] using here
          · rw [visited] at here
            rcases here with ⟨good₁, kept₁, marked₁⟩
            have there : Searched g rest s₁ (whileTrue visit rest s₁) := by
              apply ih _ good₁
              intro other member s' good' kept
              exact visits other (by simp [member]) s' good' (kept₁.trans kept)
            simp only [Option.bind_eq_bind, Option.bind_some, if_true]
            cases after : whileTrue visit rest s₁ with
            | none => simp [after, Searched] at there
            | some result =>
                rcases result with ⟨_ | _, s₂⟩
                · simpa [after, Searched] using there
                · rw [after] at there
                  rcases there with ⟨good₂, kept₂, marked₂⟩
                  refine ⟨good₂, kept₁.trans kept₂, ?_⟩
                  intro other member
                  rcases List.mem_cons.mp member with rfl | member
                  · exact kept₂.permanent good₁ good₂ (marked₁ other (by simp))
                  · exact marked₂ other member

/-- The state after a temporary mark has been set. -/
theorem Good.enter (good : Good g s) (unmarkedNode : s.permanentMark node = false) :
    Good g { s with temporaryMark := Function.update s.temporaryMark node true } where
  mem_order := good.mem_order
  nodup := good.nodup
  subset := good.subset
  closed := good.closed
  apart := by
    intro other marked
    by_cases same : other = node
    · simpa [same] using unmarkedNode
    · simp only [Function.update_of_ne same] at marked
      exact good.apart other marked

/-- The state after the mark of a searched node has been made permanent. -/
theorem Good.leave (good : Good g s) (member : node ∈ g.nodes)
    (marked : s.temporaryMark node = true)
    (done : ∀ successor ∈ g.successors node, s.permanentMark successor = true) :
    Good g
      { order := s.order ++ [node]
        permanentMark := Function.update s.permanentMark node true
        temporaryMark := Function.update s.temporaryMark node false } where
  mem_order other := by
    by_cases same : other = node
    · simp [same]
    · simp [good.mem_order, same]
  nodup := by
    have missing : node ∉ s.order := by
      rw [← good.mem_order, good.apart node marked]
      simp
    rw [List.nodup_append]
    refine ⟨good.nodup, by simp, ?_⟩
    rintro x inOrder y inLast rfl
    simp only [List.mem_singleton] at inLast
    subst inLast
    exact missing inOrder
  subset other inOrder := by
    rcases List.mem_append.mp inOrder with inOrder | inLast
    · exact good.subset other inOrder
    · simp only [List.mem_singleton] at inLast
      subst inLast
      exact member
  closed before other after split successor edge := by
    rcases List.eq_nil_or_concat after with rfl | ⟨after', last, rfl⟩
    · rcases List.append_inj' split rfl with ⟨rfl, same⟩
      simp only [List.cons.injEq, and_true] at same
      subst same
      exact (good.mem_order successor).mp (done successor edge)
    · have shorter : s.order ++ [node] = (before ++ other :: after') ++ [last] := by
        simpa using split
      rcases List.append_inj' shorter rfl with ⟨earlier, _⟩
      exact good.closed before other after' earlier successor edge
  apart other temporary := by
    by_cases same : other = node
    · simp [same] at temporary
    · simp only [Function.update_of_ne same] at temporary ⊢
      exact good.apart other temporary

/-- One call of the search: it is deep enough while unmarked nodes are left to be counted,
and it fails only at a node that the temporarily marked ones lead to. -/
theorem searched_helper (enough : unmarked g s < depth) (good : Good g s)
    (member : node ∈ g.nodes)
    (path : ∀ marked, s.temporaryMark marked = true → Relation.TransGen g.Edge marked node) :
    Searched g [node] s (g.topologicalOrderHelper depth node s) := by
  induction depth generalizing node s with
  | zero => omega
  | succ depth ih =>
      simp only [topologicalOrderHelper]
      by_cases permanent : s.permanentMark node = true
      · rw [if_pos permanent]
        exact ⟨good, .refl s, by simpa using permanent⟩
      · rw [if_neg permanent]
        simp only [Bool.not_eq_true] at permanent
        by_cases temporary : s.temporaryMark node = true
        · rw [if_pos temporary]
          exact fun acyclic => acyclic node (path node temporary)
        · rw [if_neg temporary]
          simp only [Bool.not_eq_true] at temporary
          let entered : TopologicalSearch NodeType :=
            { s with temporaryMark := Function.update s.temporaryMark node true }
          have goodEntered : Good g entered := good.enter permanent
          have fewer : unmarked g entered < unmarked g s := by
            refine countP_lt_countP ?_ member (by simp [permanent, temporary])
              (by simp [entered])
            intro other _ notMarked
            by_cases same : other = node
            · simp [same, permanent, temporary]
            · simpa [entered, Function.update_of_ne same] using notMarked
          have searched : Searched g (g.successors node) entered
              (whileTrue (g.topologicalOrderHelper depth) (g.successors node) entered) := by
            apply searched_whileTrue _ goodEntered
            intro successor edge s' good' kept
            have fewer' := kept.unmarked_le goodEntered good'
            apply ih (by omega) good' (Edge.mem_nodes edge).2
            intro marked isMarked
            rw [kept.temporary] at isMarked
            by_cases same : marked = node
            · subst same
              exact .single edge
            · apply Relation.TransGen.tail _ edge
              apply path
              simpa [entered, Function.update_of_ne same] using isMarked
          cases result : whileTrue (g.topologicalOrderHelper depth) (g.successors node)
              entered with
          | none => simp [result, Searched] at searched
          | some result' =>
              rw [result] at searched
              rcases result' with ⟨_ | _, s₁⟩
              · simpa [entered, result, Searched] using searched
              · rcases searched with ⟨good₁, kept₁, marked₁⟩
                have nodeMarked : s₁.temporaryMark node = true := by
                  rw [kept₁.temporary]
                  simp [entered]
                simp only [Option.bind_eq_bind, Option.bind_some, if_true]
                refine ⟨good₁.leave member nodeMarked marked₁, ⟨?_, ?_⟩, by simp⟩
                · exact kept₁.order.trans (List.prefix_append _ _)
                · simp [kept₁.temporary, entered, ← temporary]

omit [DecidableEq NodeType] in
/-- Whatever a listed node leads to is listed before it. -/
theorem Good.before_of_transGen (good : Good g s) {before after : List NodeType}
    (split : s.order = before ++ a :: after) (path : Relation.TransGen g.Edge a b) :
    b ∈ before := by
  induction path with
  | single edge => exact good.closed before a after split _ edge
  | tail _ edge ih =>
      rcases List.append_of_mem ih with ⟨before', after', rfl⟩
      apply List.mem_append_left
      apply good.closed before' _ (after' ++ a :: after) _ _ edge
      simpa using split

omit [DecidableEq NodeType] in
/-- A graph that is listed in full has no cycle. -/
theorem Good.acyclic (good : Good g s) (all : ∀ node ∈ g.nodes, s.permanentMark node = true) :
    g.Acyclic := by
  intro node cycle
  have member : node ∈ g.nodes := by
    cases cycle with
    | single edge => exact edge.mem_nodes.1
    | tail _ edge => exact edge.mem_nodes.2
  have listed : node ∈ s.order := (good.mem_order node).mp (all node member)
  rcases List.append_of_mem listed with ⟨before, after, split⟩
  have earlier : node ∈ before := good.before_of_transGen split cycle
  have nodup := good.nodup
  rw [split, List.nodup_append] at nodup
  exact nodup.2.2 node earlier node (by simp) rfl

end TopologicalSearch

open TopologicalSearch in
/-- The search of the whole graph. -/
theorem topologicalOrder_searched (g : DirectedGraph NodeType EdgeType) :
    (∃ order, g.topologicalOrder = some (some order) ∧ g.Acyclic ∧ order.Perm g.nodes ∧
      ∀ a b, g.Edge a b → ∃ before after, order = before ++ a :: after ∧ b ∈ after) ∨
    g.topologicalOrder = some none ∧ ¬ g.Acyclic := by
  let start : TopologicalSearch NodeType := ⟨[], fun _ => false, fun _ => false⟩
  let visit := fun node (s : TopologicalSearch NodeType) =>
    if s.permanentMark node then some (true, s)
    else g.topologicalOrderHelper (g.nodes.length + 1) node s
  have goodStart : Good g start :=
    ⟨by simp [start], by simp [start], by simp [start], by simp [start], by simp [start]⟩
  have searched : Searched g g.nodes start (whileTrue visit g.nodes start) := by
    apply searched_whileTrue _ goodStart
    intro node member s good kept
    simp only [visit]
    by_cases permanent : s.permanentMark node = true
    · rw [if_pos permanent]
      exact ⟨good, .refl s, by simpa using permanent⟩
    · rw [if_neg permanent]
      apply searched_helper _ good member
      · intro marked isMarked
        simp [kept.temporary, start] at isMarked
      · exact Nat.lt_succ_of_le List.countP_le_length
  have unfolded : g.topologicalOrder =
      (whileTrue visit g.nodes start).bind fun (ok, s) =>
        if ok then some (some s.order.reverse) else some none := rfl
  rw [unfolded]
  cases result : whileTrue visit g.nodes start with
  | none => simp [result, Searched] at searched
  | some result' =>
      rw [result] at searched
      rcases result' with ⟨_ | _, s⟩
      · right
        exact ⟨rfl, searched⟩
      · left
        rcases searched with ⟨good, _, all⟩
        refine ⟨s.order.reverse, rfl, good.acyclic all, ?_, ?_⟩
        · apply (List.reverse_perm _).trans
          apply (List.perm_ext_iff_of_nodup good.nodup g.nodes_nodup).mpr
          intro node
          rw [← good.mem_order]
          refine ⟨fun marked => ?_, all node⟩
          exact good.subset node ((good.mem_order node).mp marked)
        · intro a b edge
          have listed : a ∈ s.order := (good.mem_order a).mp (all a edge.mem_nodes.1)
          rcases List.append_of_mem listed with ⟨before, after, split⟩
          refine ⟨after.reverse, before.reverse, by simp [split], ?_⟩
          exact List.mem_reverse.mpr (good.closed before a after split b edge)

/-- The search comes to an end. It finds an order exactly when there is no cycle, and the order
lists every node once, before the nodes its edges lead to. -/
theorem topologicalOrder_correct (g : DirectedGraph NodeType EdgeType) :
    ∃ result, g.topologicalOrder = some result ∧ (result.isSome ↔ g.Acyclic) ∧
      ∀ order, result = some order → order.Perm g.nodes ∧
        ∀ a b, g.Edge a b → ∃ before after, order = before ++ a :: after ∧ b ∈ after := by
  rcases g.topologicalOrder_searched with ⟨order, found, acyclic, perm, sorted⟩ | ⟨nothing, cyclic⟩
  · refine ⟨some order, found, by simp [acyclic], ?_⟩
    rintro order' same
    cases same
    exact ⟨perm, sorted⟩
  · exact ⟨_, nothing, by simp [cyclic], by simp⟩

end DirectedGraph

end Alaska
