import Alaska.Compiler.TarjanScc

/-!
# Condensations

`condense` of `Graph.h`. The condensation has a node for the root of each strongly connected
component. It takes the edges that leave and enter the roots, and of these it keeps those whose
other end is a root as well, since an edge to something that is not a node is not added.
-/

namespace Alaska

universe u v

namespace DirectedGraph

variable {NodeType : Type u} {EdgeType : Type v} [DecidableEq NodeType]

/-- A graph whose nodes have a view of a component as their property. -/
structure Condensation (NodeType : Type u) (EdgeType : Type v) where
  graph : DirectedGraph NodeType EdgeType
  view : NodeType → Option (Finset NodeType)

namespace Condensation

def addNodeWithProp (c : Condensation NodeType EdgeType) (newNode : NodeType)
    (nodes : Finset NodeType) : Condensation NodeType EdgeType :=
  if newNode ∈ c.graph.nodes then c
  else ⟨c.graph.addNode newNode, Function.update c.view newNode (some nodes)⟩

def addEdgeWithProp (c : Condensation NodeType EdgeType) (source target : NodeType)
    (prop : EdgeType) : Condensation NodeType EdgeType :=
  { c with graph := c.graph.addEdge source target prop }

end Condensation

/-- The body of the loops over the neighbors of a root. -/
def condenseNeighbor (g : DirectedGraph NodeType EdgeType) (nodes : Finset NodeType)
    (ends : NodeType → NodeType × NodeType) (c : Condensation NodeType EdgeType)
    (neighbor : NodeType × EdgeType) : Option (Condensation NodeType EdgeType) :=
  let (source, target) := ends neighbor.1
  if neighbor.1 ∈ nodes then some c
  else (g.getEdge source target).map (c.addEdgeWithProp source target)

def condenseIncoming (g : DirectedGraph NodeType EdgeType) (root : NodeType)
    (nodes : Finset NodeType) :=
  g.condenseNeighbor nodes fun inNode => (inNode, root)

def condenseOutgoing (g : DirectedGraph NodeType EdgeType) (root : NodeType)
    (nodes : Finset NodeType) :=
  g.condenseNeighbor nodes fun outNode => (root, outNode)

/-- The condensation of one component. -/
def condenseComponent (g : DirectedGraph NodeType EdgeType) (components : Components NodeType)
    (c : Condensation NodeType EdgeType) (root : NodeType) :
    Option (Condensation NodeType EdgeType) :=
  match components root with
  | none => some c
  | some nodes => do
      let c := c.addNodeWithProp root nodes
      let c ← (g.incoming root).foldlM (g.condenseIncoming root nodes) c
      (g.outgoing root).foldlM (g.condenseOutgoing root nodes) c

/-- `condense`. The components come in the order of their roots, which is that of the nodes. -/
def condense (g : DirectedGraph NodeType EdgeType) : Option (Condensation NodeType EdgeType) :=
  g.tarjanScc.bind fun components =>
    g.nodes.foldlM (g.condenseComponent components) ⟨empty NodeType EdgeType, fun _ => none⟩

/-! ## What is in the condensation -/

variable {g : DirectedGraph NodeType EdgeType} {a b x y newNode root source target : NodeType}
  {prop edge : EdgeType} {components : Components NodeType} {nodes : Finset NodeType}

/-- A loop over the neighbors adds the edges between nodes. -/
theorem condenseNeighbor_ends {c : Condensation NodeType EdgeType}
    {ends : NodeType → NodeType × NodeType} {todo : List (NodeType × EdgeType)}
    (edges : ∀ neighbor ∈ todo, g.Edge (ends neighbor.1).1 (ends neighbor.1).2) :
    ∃ c', todo.foldlM (g.condenseNeighbor nodes ends) c = some c' ∧ c'.view = c.view ∧
      c'.graph.nodes = c.graph.nodes ∧
      ∀ x y, c'.graph.Edge x y ↔ c.graph.Edge x y ∨ (∃ neighbor ∈ todo,
        neighbor.1 ∉ nodes ∧ ends neighbor.1 = (x, y)) ∧ x ∈ c.graph.nodes ∧
          y ∈ c.graph.nodes := by
  refine @Loop.foldlM_ends _ _ (g.condenseNeighbor nodes ends)
    (fun finished c' => c'.view = c.view ∧ c'.graph.nodes = c.graph.nodes ∧
      ∀ x y, c'.graph.Edge x y ↔ c.graph.Edge x y ∨ (∃ neighbor ∈ finished,
        neighbor.1 ∉ nodes ∧ ends neighbor.1 = (x, y)) ∧ x ∈ c.graph.nodes ∧
          y ∈ c.graph.nodes) todo c ?_ ⟨rfl, rfl, by simp⟩
  rintro finished neighbor rest c' split ⟨view, sameNodes, sameEdges⟩
  have member : neighbor ∈ todo := by simp [split]
  by_cases within : neighbor.1 ∈ nodes
  · refine ⟨c', by simp [condenseNeighbor, within], view, sameNodes, fun x y => ?_⟩
    simp [sameEdges, or_and_right, exists_or, within]
  · rcases getEdge_of_edge (edges neighbor member) with ⟨prop, found⟩
    refine ⟨c'.addEdgeWithProp (ends neighbor.1).1 (ends neighbor.1).2 prop,
      by simp [condenseNeighbor, within, found], view, ?_, fun x y => ?_⟩
    · exact nodes_addEdge.trans sameNodes
    · simp only [Condensation.addEdgeWithProp, edge_addEdge, sameEdges, sameNodes,
        List.mem_append, List.mem_singleton, or_and_right, exists_or, exists_eq_left, within,
        not_false_eq_true, true_and, or_assoc]
      apply or_congr_right
      apply or_congr_right
      constructor
      · rintro ⟨⟨rfl, rfl⟩, inNodes⟩
        exact ⟨rfl, inNodes⟩
      · rintro ⟨same, inNodes⟩
        rw [same]
        exact ⟨⟨rfl, rfl⟩, inNodes⟩

/-- The part of the condensation that has been built from the nodes in `finished`. -/
structure Condensed (g : DirectedGraph NodeType EdgeType) (components : Components NodeType)
    (finished : List NodeType) (c : Condensation NodeType EdgeType) : Prop where
  mem_nodes : ∀ x, x ∈ c.graph.nodes ↔ x ∈ finished ∧ components x ≠ none
  view : ∀ x ∈ c.graph.nodes, c.view x = components x
  edge : ∀ x y, c.graph.Edge x y ↔
    (x ∈ c.graph.nodes ∧ y ∈ c.graph.nodes) ∧ x ≠ y ∧ g.Edge x y

theorem Condensed.component {finished : List NodeType} {c : Condensation NodeType EdgeType}
    (condensed : Condensed g components finished c) (fresh : root ∉ finished)
    (apart : ∀ x y nodes, components x ≠ none → components y = some nodes →
      (x ∈ nodes ↔ x = y)) :
    ∃ c', g.condenseComponent components c root = some c' ∧
      Condensed g components (finished ++ [root]) c' := by
  cases found : components root with
  | none =>
      refine ⟨c, by simp [condenseComponent, found], ?_, condensed.view, condensed.edge⟩
      intro x
      rw [condensed.mem_nodes]
      by_cases same : x = root
      · simp [same, found]
      · simp [same]
  | some nodes =>
      let c₀ := c.addNodeWithProp root nodes
      have missing : root ∉ c.graph.nodes := by
        rw [condensed.mem_nodes]
        exact fun inFinished => fresh inFinished.1
      have nodes₀ : ∀ x, x ∈ c₀.graph.nodes ↔ x ∈ c.graph.nodes ∨ x = root := by
        intro x
        simp [c₀, Condensation.addNodeWithProp, missing, mem_addNode]
      have edges₀ : ∀ x y, c₀.graph.Edge x y ↔ c.graph.Edge x y := by
        intro x y
        simp [c₀, Condensation.addNodeWithProp, missing, edge_addNode]
      have incoming : ∀ neighbor ∈ g.incoming root, g.Edge neighbor.1 root := by
        intro neighbor member
        exact List.mem_map.mpr ⟨(root, neighbor.2), g.mem_incoming.mp member, rfl⟩
      have outgoing : ∀ neighbor ∈ g.outgoing root, g.Edge root neighbor.1 := by
        intro neighbor member
        exact List.mem_map.mpr ⟨neighbor, member, rfl⟩
      rcases @condenseNeighbor_ends _ _ _ g nodes c₀ (fun inNode => (inNode, root))
        (g.incoming root) incoming with ⟨c₁, ran₁, view₁, nodes₁, edges₁⟩
      rcases @condenseNeighbor_ends _ _ _ g nodes c₁ (fun outNode => (root, outNode))
        (g.outgoing root) outgoing with ⟨c₂, ran₂, view₂, nodes₂, edges₂⟩
      refine ⟨c₂, ?_, ?_⟩
      · simp only [condenseComponent, found, condenseIncoming, condenseOutgoing]
        rw [ran₁]
        exact ran₂
      have inEdge : ∀ x y, (∃ neighbor ∈ g.incoming root, neighbor.1 ∉ nodes ∧
          (neighbor.1, root) = (x, y)) ↔ y = root ∧ x ∉ nodes ∧ g.Edge x root := by
        intro x y
        constructor
        · rintro ⟨neighbor, member, outside, same⟩
          cases same
          exact ⟨rfl, outside, incoming neighbor member⟩
        · rintro ⟨rfl, outside, step⟩
          rcases List.mem_map.mp step with ⟨⟨_, prop⟩, member, rfl⟩
          exact ⟨(x, prop), g.mem_incoming.mpr member, outside, rfl⟩
      have outEdge : ∀ x y, (∃ neighbor ∈ g.outgoing root, neighbor.1 ∉ nodes ∧
          (root, neighbor.1) = (x, y)) ↔ x = root ∧ y ∉ nodes ∧ g.Edge root y := by
        intro x y
        constructor
        · rintro ⟨neighbor, member, outside, same⟩
          cases same
          exact ⟨rfl, outside, outgoing neighbor member⟩
        · rintro ⟨rfl, outside, step⟩
          rcases List.mem_map.mp step with ⟨neighbor, member, rfl⟩
          exact ⟨neighbor, member, outside, rfl⟩
      have old : ∀ x ∈ c.graph.nodes, x ∉ nodes := by
        intro x inOld within
        have isRoot := ((condensed.mem_nodes x).mp inOld).2
        rw [(apart x root nodes isRoot found).mp within] at inOld
        exact missing inOld
      have self : root ∈ nodes := (apart root root nodes (by simp [found]) found).mpr rfl
      constructor
      case mem_nodes =>
        intro x
        rw [nodes₂, nodes₁, nodes₀, condensed.mem_nodes]
        by_cases same : x = root
        · simp [same, found]
        · simp [same]
      case view =>
        intro x inNodes
        rw [nodes₂, nodes₁, nodes₀] at inNodes
        rw [view₂, view₁]
        by_cases same : x = root
        · simp [c₀, Condensation.addNodeWithProp, missing, same, found]
        · have view := condensed.view x (inNodes.resolve_right same)
          simpa [c₀, Condensation.addNodeWithProp, missing, same] using view
      case edge =>
        intro x y
        rw [edges₂, edges₁, edges₀, inEdge, outEdge, condensed.edge, nodes₂, nodes₁, nodes₀,
          nodes₀]
        constructor
        · rintro ((⟨⟨inX, inY⟩, differ, step⟩ | ⟨⟨rfl, outside, step⟩, inNodes⟩) |
            ⟨⟨rfl, outside, step⟩, inNodes⟩)
          · exact ⟨⟨Or.inl inX, Or.inl inY⟩, differ, step⟩
          · exact ⟨inNodes, fun same => outside (same ▸ self), step⟩
          · exact ⟨inNodes, fun same => outside (same ▸ self), step⟩
        · rintro ⟨inNodes, differ, step⟩
          rcases inNodes.1 with oldX | rfl
          · rcases inNodes.2 with oldY | rfl
            · exact Or.inl (Or.inl ⟨⟨oldX, oldY⟩, differ, step⟩)
            · exact Or.inl (Or.inr ⟨⟨rfl, old x oldX, step⟩, inNodes⟩)
          · have oldY := inNodes.2.resolve_right (Ne.symm differ)
            exact Or.inr ⟨⟨rfl, old y oldY, step⟩, inNodes⟩

/-- `a` and `b` are in the same strongly connected component. -/
def Together (g : DirectedGraph NodeType EdgeType) (a b : NodeType) : Prop :=
  g.Reaches a b ∧ g.Reaches b a

/-- The node is the root of one of the components that `tarjan_scc` returns. -/
def IsRoot (g : DirectedGraph NodeType EdgeType) (root : NodeType) : Prop :=
  ∃ components, g.tarjanScc = some components ∧ components root ≠ none

/-- `c` is the quotient of `g` by strong connectivity. -/
structure IsCondensation (g c : DirectedGraph NodeType EdgeType) : Prop where
  subset : ∀ r ∈ c.nodes, r ∈ g.nodes
  representative : ∀ x ∈ g.nodes, ∃! r, r ∈ c.nodes ∧ g.Together x r
  edge : ∀ r₁ ∈ c.nodes, ∀ r₂ ∈ c.nodes, r₁ ≠ r₂ →
    (c.Edge r₁ r₂ ↔ ∃ a b, g.Together a r₁ ∧ g.Together b r₂ ∧ g.Edge a b)
  acyclic : c.Acyclic

/-- The condensation is the subgraph of the roots, without edges from a root to itself. -/
theorem condense_spec (small : g.nodes.length ≤ 2 ^ 32) :
    ∃ components c, g.tarjanScc = some components ∧ SccPartition g components ∧
      g.condense = some c ∧ Condensed g components g.nodes c := by
  rcases g.tarjanScc_partition small with ⟨components, found, partition⟩
  have apart : ∀ x y nodes, components x ≠ none → components y = some nodes →
      (x ∈ nodes ↔ x = y) := by
    intro x y nodes isRoot foundY
    constructor
    · intro within
      rcases Option.ne_none_iff_exists'.mp isRoot with ⟨scc, foundX⟩
      exact partition.unique x scc y nodes foundX foundY x (partition.root_mem foundX) within
    · rintro rfl
      exact partition.root_mem foundY
  have built : ∃ c, g.nodes.foldlM (g.condenseComponent components)
      ⟨empty NodeType EdgeType, fun _ => none⟩ = some c ∧ Condensed g components g.nodes c := by
    refine @Loop.foldlM_ends _ _ (g.condenseComponent components)
      (fun finished c => Condensed g components finished c) g.nodes _ ?_ ?_
    · intro finished root rest c split condensed
      have nodup := g.nodes_nodup
      rw [split, List.nodup_append] at nodup
      refine condensed.component (fun member => ?_) apart
      exact nodup.2.2 root member root (by simp) rfl
    · constructor
      all_goals simp [empty, Edge, successors]
  rcases built with ⟨c, ran, condensed⟩
  exact ⟨components, c, found, partition, by rw [condense, found, Option.bind_some, ran],
    condensed⟩

namespace Condensed

variable {c : Condensation NodeType EdgeType} {r₁ r₂ : NodeType}

omit [DecidableEq NodeType] in
/-- The nodes are the roots. -/
theorem mem_nodes_iff (condensed : Condensed g components g.nodes c)
    (partition : SccPartition g components) (r : NodeType) :
    r ∈ c.graph.nodes ↔ components r ≠ none := by
  rw [condensed.mem_nodes]
  refine and_iff_right_of_imp fun isRoot => ?_
  rcases Option.ne_none_iff_exists'.mp isRoot with ⟨scc, foundR⟩
  exact partition.mem_nodes r scc foundR r (partition.root_mem foundR)

theorem isRoot_iff (condensed : Condensed g components g.nodes c)
    (partition : SccPartition g components) (found : g.tarjanScc = some components)
    (r : NodeType) : g.IsRoot r ↔ r ∈ c.graph.nodes := by
  rw [condensed.mem_nodes_iff partition]
  simp [IsRoot, found]

omit [DecidableEq NodeType] in
/-- Two roots are not in the same component. -/
theorem same_root (condensed : Condensed g components g.nodes c)
    (partition : SccPartition g components) (r₁ : NodeType) (inNodes₁ : r₁ ∈ c.graph.nodes)
    (r₂ : NodeType) (inNodes₂ : r₂ ∈ c.graph.nodes) (together : g.Together r₁ r₂) : r₁ = r₂ := by
  rw [condensed.mem_nodes_iff partition] at inNodes₁ inNodes₂
  rcases Option.ne_none_iff_exists'.mp inNodes₁ with ⟨scc₁, found₁⟩
  rcases Option.ne_none_iff_exists'.mp inNodes₂ with ⟨scc₂, found₂⟩
  apply partition.unique r₁ scc₁ r₂ scc₂ found₁ found₂ r₂ _ (partition.root_mem found₂)
  exact (partition.component r₁ scc₁ found₁ r₂).mpr together

omit [DecidableEq NodeType] in
theorem acyclic (condensed : Condensed g components g.nodes c)
    (partition : SccPartition g components) : c.graph.Acyclic := by
  intro r cycle
  rcases Relation.TransGen.head'_iff.mp cycle with ⟨r', step, back⟩
  rcases (condensed.edge r r').mp step with ⟨⟨inNodes, inNodes'⟩, differ, step'⟩
  have back' : g.Reaches r' r :=
    Relation.ReflTransGen.mono (fun x y edge => ((condensed.edge x y).mp edge).2.2) _ _ back
  exact differ (condensed.same_root partition r inNodes r' inNodes' ⟨.single step', back'⟩)

end Condensed

/-- The condensation has the edges between components exactly when an edge between members of
two components comes with an edge between their roots. -/
theorem condense_iff (small : g.nodes.length ≤ 2 ^ 32) :
    (∃ c, g.condense = some c ∧ g.IsCondensation c.graph) ↔
      ∀ r₁ r₂ a b, g.IsRoot r₁ → g.IsRoot r₂ → r₁ ≠ r₂ → g.Together a r₁ → g.Together b r₂ →
        g.Edge a b → g.Edge r₁ r₂ := by
  rcases condense_spec small with ⟨components, c, found, partition, condensation, condensed⟩
  have roots := condensed.mem_nodes_iff partition
  have isRoot := condensed.isRoot_iff partition found
  have same_root := condensed.same_root partition
  constructor
  · rintro ⟨c', condensation', quotient⟩ r₁ r₂ a b isRoot₁ isRoot₂ differ withR₁ withR₂ step
    have same : c' = c := Option.some.inj (condensation'.symm.trans condensation)
    subst same
    have inNodes₁ := (isRoot r₁).mp isRoot₁
    have inNodes₂ := (isRoot r₂).mp isRoot₂
    have carried := (quotient.edge r₁ inNodes₁ r₂ inNodes₂ differ).mpr
      ⟨a, b, withR₁, withR₂, step⟩
    exact ((condensed.edge r₁ r₂).mp carried).2.2
  · intro carry
    refine ⟨c, condensation, ?_⟩
    constructor
    case subset => exact fun r inNodes => ((condensed.mem_nodes r).mp inNodes).1
    case representative =>
      intro x member
      rcases partition.placed x member with ⟨root, scc, foundRoot, inScc⟩
      have paths := (partition.component root scc foundRoot x).mp inScc
      have inNodes : root ∈ c.graph.nodes := by
        rw [roots, foundRoot]
        simp
      refine ⟨root, ⟨inNodes, paths.2, paths.1⟩, ?_⟩
      rintro r ⟨inNodesR, there, back⟩
      exact same_root r inNodesR root inNodes ⟨back.trans paths.2, paths.1.trans there⟩
    case edge =>
      intro r₁ inNodes₁ r₂ inNodes₂ differ
      rw [condensed.edge]
      constructor
      · rintro ⟨_, _, step⟩
        exact ⟨r₁, r₂, ⟨.refl, .refl⟩, ⟨.refl, .refl⟩, step⟩
      · rintro ⟨a, b, withR₁, withR₂, step⟩
        refine ⟨⟨inNodes₁, inNodes₂⟩, differ, ?_⟩
        exact carry r₁ r₂ a b ((isRoot r₁).mpr inNodes₁) ((isRoot r₂).mpr inNodes₂) differ
          withR₁ withR₂ step
    case acyclic => exact condensed.acyclic partition

theorem condense_iff_offRoot : (∃ c, offRoot.condense = some c ∧
    offRoot.IsCondensation c.graph) ↔ ∀ r₁ r₂ a b, offRoot.IsRoot r₁ → offRoot.IsRoot r₂ →
      r₁ ≠ r₂ → offRoot.Together a r₁ → offRoot.Together b r₂ → offRoot.Edge a b →
        offRoot.Edge r₁ r₂ :=
  condense_iff (by decide)

/-- The condensation of `offRoot` misses the edge that leaves the component of the root at its
other member. -/
theorem condense_offRoot :
    ¬ ∃ c, offRoot.condense = some c ∧ offRoot.IsCondensation c.graph := by
  rintro ⟨c, condensation, quotient⟩
  have nodes : offRoot.condense.map (fun c => c.graph.nodes) = some [.top, .outside] := by
    decide
  have edges : offRoot.condense.map (fun c => c.graph.successors .top) = some [] := by decide
  rw [condensation] at nodes edges
  simp only [Option.map_some, Option.some.injEq] at nodes edges
  have there : offRoot.Edge .top .inner := by decide
  have back : offRoot.Edge .inner .top := by decide
  have leaves : offRoot.Edge .inner .outside := by decide
  have carried : c.graph.Edge .top .outside :=
    (quotient.edge .top (by simp [nodes]) .outside (by simp [nodes]) (by decide)).mpr
      ⟨.inner, .outside, ⟨.single back, .single there⟩, ⟨.refl, .refl⟩, leaves⟩
  simp [Edge, edges] at carried

end DirectedGraph

end Alaska
