import Mathlib.Data.List.Nodup
import Mathlib.Logic.Function.Basic
import Mathlib.Logic.Relation

/-!
# Directed graphs

`DirectedGraph` of `Graph.h`. A graph is a map from nodes to the edges that leave and enter
them, so the nodes have an order, each edge is kept at both of its ends, and there is at most
one edge from a node to another.
-/

namespace Alaska

universe u v

structure DirectedGraph (NodeType : Type u) (EdgeType : Type v) where
  nodes : List NodeType
  outgoing : NodeType → List (NodeType × EdgeType)
  incoming : NodeType → List (NodeType × EdgeType)
  nodes_nodup : nodes.Nodup
  mem_nodes : ∀ {a b edge}, (b, edge) ∈ outgoing a → a ∈ nodes ∧ b ∈ nodes
  mem_incoming : ∀ {a b edge}, (a, edge) ∈ incoming b ↔ (b, edge) ∈ outgoing a
  outgoing_nodup : ∀ a, ((outgoing a).map Prod.fst).Nodup
  incoming_nodup : ∀ b, ((incoming b).map Prod.fst).Nodup

namespace DirectedGraph

variable {NodeType : Type u} {EdgeType : Type v}

def successors (g : DirectedGraph NodeType EdgeType) (node : NodeType) : List NodeType :=
  (g.outgoing node).map Prod.fst

/-- There is an edge from `a` to `b`. -/
def Edge (g : DirectedGraph NodeType EdgeType) (a b : NodeType) : Prop :=
  b ∈ g.successors a

/-- There is a path from `a` to `b`. -/
abbrev Reaches (g : DirectedGraph NodeType EdgeType) : NodeType → NodeType → Prop :=
  Relation.ReflTransGen g.Edge

def Acyclic (g : DirectedGraph NodeType EdgeType) : Prop :=
  ∀ a, ¬ Relation.TransGen g.Edge a a

/-- A graph without nodes. -/
def empty (NodeType : Type u) (EdgeType : Type v) : DirectedGraph NodeType EdgeType where
  nodes := []
  outgoing _ := []
  incoming _ := []
  nodes_nodup := List.nodup_nil
  mem_nodes member := by simp at member
  mem_incoming := by simp
  outgoing_nodup := by simp
  incoming_nodup := by simp

variable {g : DirectedGraph NodeType EdgeType} {a b x y node newNode source target : NodeType}
  {prop edge : EdgeType}

theorem edge_iff : g.Edge a b ↔ ∃ edge, (b, edge) ∈ g.outgoing a := by
  simp [Edge, successors]

theorem Edge.mem_nodes (edge : g.Edge a b) : a ∈ g.nodes ∧ b ∈ g.nodes := by
  rcases edge_iff.mp edge with ⟨_, member⟩
  exact g.mem_nodes member

/-- There is at most one edge from a node to another. -/
theorem outgoing_unique {edge' : EdgeType} (first : (b, edge) ∈ g.outgoing a)
    (second : (b, edge') ∈ g.outgoing a) : edge = edge' := by
  have same := List.inj_on_of_nodup_map (g.outgoing_nodup a) first second rfl
  exact (Prod.mk.inj same).2

/-! ## Building a graph -/

/-- A list of edges stays free of duplicates when an edge to a new neighbor is added. -/
theorem nodup_concat {l : List (NodeType × EdgeType)} (nodup : (l.map Prod.fst).Nodup)
    (fresh : node ∉ l.map Prod.fst) : ((l ++ [(node, edge)]).map Prod.fst).Nodup := by
  rw [List.map_append, List.nodup_append]
  refine ⟨nodup, by simp, ?_⟩
  rintro other member last inLast rfl
  simp only [List.map_cons, List.map_nil, List.mem_singleton] at inLast
  exact fresh (inLast ▸ member)

variable [DecidableEq NodeType]

instance : Decidable (g.Edge a b) :=
  inferInstanceAs (Decidable (b ∈ g.successors a))

def addNode (g : DirectedGraph NodeType EdgeType) (newNode : NodeType) :
    DirectedGraph NodeType EdgeType :=
  if present : newNode ∈ g.nodes then g
  else
    { g with
      nodes := g.nodes ++ [newNode]
      nodes_nodup := by
        rw [List.nodup_append]
        refine ⟨g.nodes_nodup, by simp, ?_⟩
        rintro a member b last rfl
        simp only [List.mem_singleton] at last
        exact present (last ▸ member)
      mem_nodes := by
        intro a b edge member
        have old := g.mem_nodes member
        exact ⟨List.mem_append_left _ old.1, List.mem_append_left _ old.2⟩ }

/-- Nothing is added when an end is not a node or when there is such an edge already. -/
def addEdge (g : DirectedGraph NodeType EdgeType) (source target : NodeType) (prop : EdgeType) :
    DirectedGraph NodeType EdgeType :=
  if fits : (source ∈ g.nodes ∧ target ∈ g.nodes) ∧ ¬ g.Edge source target then
    { nodes := g.nodes
      outgoing :=
        Function.update g.outgoing source (g.outgoing source ++ [(target, prop)])
      incoming :=
        Function.update g.incoming target (g.incoming target ++ [(source, prop)])
      nodes_nodup := g.nodes_nodup
      mem_nodes := by
        intro a b edge member
        by_cases same : a = source
        · subst same
          simp only [Function.update_self, List.mem_append, List.mem_singleton,
            Prod.mk.injEq] at member
          rcases member with old | ⟨rfl, rfl⟩
          · exact g.mem_nodes old
          · exact fits.1
        · rw [Function.update_of_ne same] at member
          exact g.mem_nodes member
      mem_incoming := by
        intro a b edge
        by_cases sameA : a = source
        · by_cases sameB : b = target
          · simp [sameA, sameB, g.mem_incoming]
          · simp [sameA, sameB, g.mem_incoming]
        · by_cases sameB : b = target
          · simp [sameA, sameB, g.mem_incoming]
          · simp [sameA, sameB, g.mem_incoming]
      outgoing_nodup := by
        intro a
        by_cases same : a = source
        · subst same
          rw [Function.update_self]
          exact nodup_concat (g.outgoing_nodup a) fits.2
        · rw [Function.update_of_ne same]
          exact g.outgoing_nodup a
      incoming_nodup := by
        intro b
        by_cases same : b = target
        · subst same
          rw [Function.update_self]
          apply nodup_concat (g.incoming_nodup b)
          intro member
          rcases List.mem_map.mp member with ⟨⟨_, edge⟩, inEdge, rfl⟩
          exact fits.2 (edge_iff.mpr ⟨edge, g.mem_incoming.mp inEdge⟩)
        · rw [Function.update_of_ne same]
          exact g.incoming_nodup b }
  else g

def removeEdge (g : DirectedGraph NodeType EdgeType) (source target : NodeType) :
    DirectedGraph NodeType EdgeType where
  nodes := g.nodes
  outgoing :=
    Function.update g.outgoing source ((g.outgoing source).filter fun out => out.1 ≠ target)
  incoming :=
    Function.update g.incoming target ((g.incoming target).filter fun inEdge => inEdge.1 ≠ source)
  nodes_nodup := g.nodes_nodup
  mem_nodes := by
    intro a b edge member
    by_cases same : a = source
    · subst same
      rw [Function.update_self] at member
      exact g.mem_nodes (List.mem_of_mem_filter member)
    · rw [Function.update_of_ne same] at member
      exact g.mem_nodes member
  mem_incoming := by
    intro a b edge
    by_cases sameA : a = source
    · by_cases sameB : b = target
      · simp [sameA, sameB]
      · simp [sameA, sameB, g.mem_incoming]
    · by_cases sameB : b = target
      · simp [sameA, sameB, g.mem_incoming]
      · simp [sameA, sameB, g.mem_incoming]
  outgoing_nodup := by
    intro a
    by_cases same : a = source
    · subst same
      rw [Function.update_self]
      exact (g.outgoing_nodup a).sublist (List.filter_sublist.map Prod.fst)
    · rw [Function.update_of_ne same]
      exact g.outgoing_nodup a
  incoming_nodup := by
    intro b
    by_cases same : b = target
    · subst same
      rw [Function.update_self]
      exact (g.incoming_nodup b).sublist (List.filter_sublist.map Prod.fst)
    · rw [Function.update_of_ne same]
      exact g.incoming_nodup b

/-- `remove_nodes`, which takes the edges of the node along. -/
def removeNode (g : DirectedGraph NodeType EdgeType) (removed : NodeType) :
    DirectedGraph NodeType EdgeType where
  nodes := g.nodes.filter fun node => node ≠ removed
  outgoing a :=
    if a = removed then [] else (g.outgoing a).filter fun out => out.1 ≠ removed
  incoming b :=
    if b = removed then [] else (g.incoming b).filter fun inEdge => inEdge.1 ≠ removed
  nodes_nodup := g.nodes_nodup.filter _
  mem_nodes := by
    intro a b edge member
    by_cases same : a = removed
    · simp [same] at member
    · rw [if_neg same] at member
      rcases List.mem_filter.mp member with ⟨old, other⟩
      have inNodes := g.mem_nodes old
      exact ⟨List.mem_filter.mpr ⟨inNodes.1, by simpa using same⟩,
        List.mem_filter.mpr ⟨inNodes.2, other⟩⟩
  mem_incoming := by
    intro a b edge
    by_cases sameA : a = removed
    · simp [sameA]
    · by_cases sameB : b = removed
      · simp [sameB]
      · simp [sameA, sameB, g.mem_incoming]
  outgoing_nodup := by
    intro a
    split
    · exact List.nodup_nil
    · exact (g.outgoing_nodup a).sublist (List.filter_sublist.map Prod.fst)
  incoming_nodup := by
    intro b
    split
    · exact List.nodup_nil
    · exact (g.incoming_nodup b).sublist (List.filter_sublist.map Prod.fst)

/-- `get_edge`; `none` stands for its `abort`. -/
def getEdge (g : DirectedGraph NodeType EdgeType) (a b : NodeType) : Option EdgeType :=
  ((g.outgoing a).find? fun out => out.1 = b).map Prod.snd

theorem mem_addNode : x ∈ (g.addNode newNode).nodes ↔ x ∈ g.nodes ∨ x = newNode := by
  unfold addNode
  split
  · next present =>
      constructor
      · exact Or.inl
      · rintro (old | rfl)
        · exact old
        · exact present
  · simp

theorem edge_addNode : (g.addNode newNode).Edge x y ↔ g.Edge x y := by
  unfold addNode
  split
  · exact .rfl
  · exact .rfl

theorem nodes_addEdge : (g.addEdge source target prop).nodes = g.nodes := by
  unfold addEdge
  split
  · rfl
  · rfl

theorem edge_addEdge : (g.addEdge source target prop).Edge x y ↔
    g.Edge x y ∨ (x = source ∧ y = target) ∧ source ∈ g.nodes ∧ target ∈ g.nodes := by
  unfold addEdge
  split
  · next fits =>
      by_cases same : x = source
      · simp [Edge, successors, same, fits.1]
      · simp [Edge, successors, same]
  · next misfit =>
      constructor
      · exact Or.inl
      · rintro (old | ⟨⟨rfl, rfl⟩, inNodes⟩)
        · exact old
        · by_contra missing
          exact misfit ⟨inNodes, missing⟩

theorem mem_outgoing_addEdge : (y, edge) ∈ (g.addEdge source target prop).outgoing x ↔
    (y, edge) ∈ g.outgoing x ∨ ((x = source ∧ y = target) ∧ edge = prop) ∧
      (source ∈ g.nodes ∧ target ∈ g.nodes) ∧ ¬ g.Edge source target := by
  unfold addEdge
  split
  · next fits =>
      by_cases same : x = source
      · simp [same, fits]
      · simp [same]
  · next misfit =>
      constructor
      · exact Or.inl
      · rintro (old | ⟨_, fits⟩)
        · exact old
        · exact (misfit fits).elim

theorem mem_outgoing_removeEdge : (y, edge) ∈ (g.removeEdge source target).outgoing x ↔
    (y, edge) ∈ g.outgoing x ∧ ¬ (x = source ∧ y = target) := by
  by_cases same : x = source
  · simp [removeEdge, same]
  · simp [removeEdge, same]

theorem mem_outgoing_removeNode : (y, edge) ∈ (g.removeNode node).outgoing x ↔
    (y, edge) ∈ g.outgoing x ∧ x ≠ node ∧ y ≠ node := by
  by_cases same : x = node
  · simp [removeNode, same]
  · simp [removeNode, same]

theorem getEdge_eq_some : g.getEdge a b = some edge ↔ (b, edge) ∈ g.outgoing a := by
  constructor
  · intro found
    rcases Option.map_eq_some_iff.mp found with ⟨⟨c, edge'⟩, search, rfl⟩
    have here : c = b := by simpa using List.find?_some search
    exact here ▸ List.mem_of_find?_eq_some search
  · intro member
    have found : ((g.outgoing a).find? fun out => out.1 = b).isSome := by
      rw [List.find?_isSome]
      exact ⟨(b, edge), member, by simp⟩
    rcases Option.isSome_iff_exists.mp found with ⟨⟨c, edge'⟩, search⟩
    have here : c = b := by simpa using List.find?_some search
    subst here
    rw [getEdge, search, Option.map_some,
      outgoing_unique (List.mem_of_find?_eq_some search) member]

theorem getEdge_of_edge (edge : g.Edge a b) : ∃ prop, g.getEdge a b = some prop := by
  rcases edge_iff.mp edge with ⟨prop, member⟩
  exact ⟨prop, getEdge_eq_some.mpr member⟩

theorem getEdge_eq_none : g.getEdge a b = none ↔ ¬ g.Edge a b := by
  constructor
  · intro missing edge
    rcases getEdge_of_edge edge with ⟨prop, found⟩
    simp [missing] at found
  · intro missing
    cases found : g.getEdge a b with
    | none => rfl
    | some prop => exact (missing (edge_iff.mpr ⟨prop, getEdge_eq_some.mp found⟩)).elim

/-! ## Counting nodes -/

/-- One element fewer is counted when one of them no longer has the property. -/
theorem countP_lt_countP {Element : Type u} {p q : Element → Bool} {l : List Element} {x : Element}
    (implies : ∀ y ∈ l, p y = true → q y = true) (member : x ∈ l) (holds : q x = true)
    (fails : p x = false) : l.countP p < l.countP q := by
  rcases List.append_of_mem member with ⟨before, after, rfl⟩
  have left : before.countP p ≤ before.countP q :=
    List.countP_mono_left fun y inBefore => implies y (List.mem_append_left _ inBefore)
  have right : after.countP p ≤ after.countP q :=
    List.countP_mono_left fun y inAfter => implies y (by simp [inAfter])
  simp only [List.countP_append, List.countP_cons, holds, fails, if_true]
  simp only [Bool.false_eq_true, if_false]
  omega

/-- A property added at one more element of a list counts once more. -/
theorem countP_update {Element : Type u} {p q : Element → Bool} {l : List Element} {x : Element}
    (nodup : l.Nodup) (member : x ∈ l) (fails : p x = false) (holds : q x = true)
    (same : ∀ y, y ≠ x → q y = p y) : l.countP q = l.countP p + 1 := by
  rcases List.append_of_mem member with ⟨before, after, rfl⟩
  have missing : x ∉ before ∧ x ∉ after := by
    rw [List.nodup_append, List.nodup_cons] at nodup
    exact ⟨fun inBefore => nodup.2.2 x inBefore x (by simp) rfl, nodup.2.1.1⟩
  have left : before.countP q = before.countP p := by
    apply List.countP_congr
    intro y inBefore
    rw [same y]
    rintro rfl
    exact missing.1 inBefore
  have right : after.countP q = after.countP p := by
    apply List.countP_congr
    intro y inAfter
    rw [same y]
    rintro rfl
    exact missing.2 inAfter
  simp only [List.countP_append, List.countP_cons, holds, fails, left, right]
  simp
  omega

end DirectedGraph

end Alaska
