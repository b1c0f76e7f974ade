import Alaska.Compiler.AccessAutomata
import Alaska.Compiler.Condensation
import Alaska.Compiler.TopologicalOrder
import Alaska.Lib.Loop
import Mathlib.Data.Finset.Sort
import Mathlib.Data.Fintype.Card
import Mathlib.Data.List.Sort

/-!
# Offsets of memory accesses

`memory_access_offsets` of `AccessAutomata.cpp`, and the edges of an access automaton that are
labelled with its result. From a root object it follows the uses through address computations
and phis, condenses the graph of these uses, and lets sets of offsets flow along the edges of
the condensation. The nodes of a graph are in the order of their addresses, so the values are
ordered; the neighbors of a node are in no particular order, and here come in the order of
the users of the value.
-/

namespace Alaska

universe u v

/-! ## Graphs whose edges are modified -/

namespace DirectedGraph

variable {NodeType : Type u} {EdgeType : Type v}

/-- The nodes in the order of a map. -/
def sortNodes [LinearOrder NodeType] (g : DirectedGraph NodeType EdgeType) :
    DirectedGraph NodeType EdgeType :=
  { g with
    nodes := g.nodes.insertionSort (· ≤ ·)
    nodes_nodup := (List.perm_insertionSort (· ≤ ·) g.nodes).nodup_iff.mpr g.nodes_nodup
    mem_nodes := by
      intro a b edge member
      simpa only [List.mem_insertionSort] using g.mem_nodes member }

/-- The edges that leave a node are modified. -/
def mapOutgoing [DecidableEq NodeType] (g : DirectedGraph NodeType EdgeType) (node : NodeType)
    (f : EdgeType → EdgeType) : DirectedGraph NodeType EdgeType where
  nodes := g.nodes
  outgoing a :=
    if a = node then (g.outgoing a).map fun out => (out.1, f out.2) else g.outgoing a
  incoming b :=
    (g.incoming b).map fun inEdge =>
      if inEdge.1 = node then (inEdge.1, f inEdge.2) else inEdge
  nodes_nodup := g.nodes_nodup
  mem_nodes := by
    intro a b edge member
    split at member
    · rcases List.mem_map.mp member with ⟨⟨_, old⟩, there, same⟩
      cases same
      exact g.mem_nodes there
    · exact g.mem_nodes member
  mem_incoming := by
    intro a b edge
    constructor
    · intro member
      rcases List.mem_map.mp member with ⟨⟨source, old⟩, there, moved⟩
      have there' := g.mem_incoming.mp there
      by_cases same : source = node
      · obtain ⟨rfl, rfl⟩ : source = a ∧ f old = edge := by simpa [same] using moved
        rw [if_pos same]
        exact List.mem_map.mpr ⟨(b, old), there', rfl⟩
      · obtain ⟨rfl, rfl⟩ : source = a ∧ old = edge := by simpa [same] using moved
        rwa [if_neg same]
    · intro member
      split at member
      · next same =>
          rcases List.mem_map.mp member with ⟨⟨target, old⟩, there, moved⟩
          obtain ⟨rfl, rfl⟩ := Prod.mk.inj moved
          exact List.mem_map.mpr ⟨(a, old), g.mem_incoming.mpr there, if_pos same⟩
      · next other =>
          exact List.mem_map.mpr ⟨(a, edge), g.mem_incoming.mpr member, if_neg other⟩
  outgoing_nodup := by
    intro a
    split
    · rw [List.map_map]
      exact g.outgoing_nodup a
    · exact g.outgoing_nodup a
  incoming_nodup := by
    intro b
    have sources : (Prod.fst ∘ fun inEdge : NodeType × EdgeType =>
        if inEdge.1 = node then (inEdge.1, f inEdge.2) else inEdge) = Prod.fst := by
      funext inEdge
      simp only [Function.comp_apply]
      split <;> rfl
    rw [List.map_map, sources]
    exact g.incoming_nodup b

variable [DecidableEq NodeType] {g : DirectedGraph NodeType EdgeType} {a b node : NodeType}
  {f : EdgeType → EdgeType} {edge : EdgeType}

theorem mem_outgoing_mapOutgoing : (b, edge) ∈ (g.mapOutgoing node f).outgoing a ↔
    ∃ old, (b, old) ∈ g.outgoing a ∧ edge = if a = node then f old else old := by
  by_cases same : a = node
  · simp [mapOutgoing, same, eq_comm]
  · simp [mapOutgoing, same]

theorem edge_mapOutgoing : (g.mapOutgoing node f).Edge a b ↔ g.Edge a b := by
  simp only [edge_iff, mem_outgoing_mapOutgoing]
  constructor
  · rintro ⟨_, old, there, _⟩
    exact ⟨old, there⟩
  · rintro ⟨old, there⟩
    exact ⟨_, old, there, rfl⟩

/-- The edges of a condensation have the properties that they had. -/
theorem outgoing_condense {c : Condensation NodeType EdgeType} (condensed : g.condense = some c)
    (there : (b, edge) ∈ c.graph.outgoing a) : (b, edge) ∈ g.outgoing a := by
  let Kept (c : Condensation NodeType EdgeType) : Prop :=
    ∀ a b edge, (b, edge) ∈ c.graph.outgoing a → (b, edge) ∈ g.outgoing a
  have neighbors : ∀ (nodes : Finset NodeType) (ends : NodeType → NodeType × NodeType)
      (todo : List (NodeType × EdgeType)) (c c' : Condensation NodeType EdgeType), Kept c →
        todo.foldlM (g.condenseNeighbor nodes ends) c = some c' → Kept c' := by
    intro nodes ends todo c c' kept ran
    refine Loop.foldlM_invariant (fun c neighbor c' _ kept step => ?_) kept ran
    unfold condenseNeighbor at step
    dsimp only at step
    split at step
    · cases step
      exact kept
    · rcases Option.map_eq_some_iff.mp step with ⟨prop, found, rfl⟩
      intro a b edge member
      rcases mem_outgoing_addEdge.mp member with old | ⟨⟨⟨rfl, rfl⟩, rfl⟩, _⟩
      · exact kept a b edge old
      · exact getEdge_eq_some.mp found
  unfold condense at condensed
  rcases Option.bind_eq_some_iff.mp condensed with ⟨components, _, ran⟩
  have kept : Kept c := by
    refine Loop.foldlM_invariant (fun c root c' _ kept step => ?_) ?_ ran
    case refine_2 => exact fun _ _ _ member => absurd member List.not_mem_nil
    unfold condenseComponent at step
    split at step
    · cases step
      exact kept
    · next nodes _ =>
        have added : Kept (c.addNodeWithProp root nodes) := by
          unfold Condensation.addNodeWithProp addNode
          split
          · exact kept
          · exact kept
        rcases Option.bind_eq_some_iff.mp step with ⟨middle, incoming, outgoing⟩
        exact neighbors _ _ _ _ _ (neighbors _ _ _ _ _ added incoming) outgoing
  exact kept a b edge there

end DirectedGraph

/-! ## The function -/

/-- What the compiler looks at in a value. -/
inductive UsedValue where
  /-- `isFirstOffsetZero`, and the result of `accumulateConstantOffset` -/
  | getElementPtr (firstOffsetZero : Bool) (constantOffset : Option Int)
  | phi
  | load (isPointer : Bool)
  | store
  | other
  deriving DecidableEq, Repr

/-- The values of a function, and the users of each. -/
structure Uses (Val : Type u) where
  kind : Val → UsedValue
  users : Val → List Val

namespace Uses

variable {Val : Type u} [LinearOrder Val]

/-- The graph that is built, and the stack `q`. -/
structure Building (Val : Type u) where
  graph : DirectedGraph Val (Finset Int)
  stack : List Val

namespace Building

/-- The function `add`. -/
def add (s : Building Val) (v : Val) : Building Val :=
  if v ∈ s.graph.nodes then s else ⟨s.graph.addNode v, v :: s.stack⟩

def addNode (s : Building Val) (v : Val) : Building Val :=
  { s with graph := s.graph.addNode v }

/-- An edge without offsets. -/
def addEdge (s : Building Val) (v user : Val) : Building Val :=
  { s with graph := s.graph.addEdge v user ∅ }

end Building

/-- One user of the value that was on top of the stack. -/
def visitUser (p : Uses Val) (v : Val) (s : Building Val) (user : Val) : Building Val :=
  match p.kind user with
  | .getElementPtr firstOffsetZero _ =>
      if firstOffsetZero then (s.add user).addEdge v user else s
  | .phi => (s.add user).addEdge v user
  | .load _ | .store => (s.addNode user).addEdge v user
  | .other => s

/-- The body of the loop. -/
def visit (p : Uses Val) (s : Building Val) : Building Val :=
  match s.stack with
  | [] => s
  | v :: rest => (p.users v).foldl (p.visitUser v) { s with stack := rest }

/-- The graph of the uses of an object. No value is on the stack twice. -/
def useGraph [Fintype Val] (p : Uses Val) (obj : Val) : DirectedGraph Val (Finset Int) :=
  let start : Building Val := Building.add ⟨.empty Val (Finset Int), []⟩ obj
  (Loop.whileLoop (fun s => !s.stack.isEmpty) p.visit (Fintype.card Val) start).graph.sortNodes

/-- The offsets of all edges that enter a node. -/
def incomingOffsets (con : DirectedGraph Val (Finset Int)) (node : Val) : Finset Int :=
  (con.incoming node).foldr (fun e offsets => e.2 ∪ offsets) ∅

/-- `all_incoming`, before it is transformed. -/
def allIncoming (con : DirectedGraph Val (Finset Int)) (node : Val) : Finset Int :=
  if (con.incoming node).length = 0 then {0} else incomingOffsets con node

/-- The transformation of a node; the constant is truncated to an `int`. -/
def transform (allIncoming : Finset Int) : UsedValue → Finset Int
  | .getElementPtr _ (some offset) => allIncoming.image (· + offset.bmod (2 ^ 32))
  | .getElementPtr _ none => ∅
  | _ => allIncoming

/-- The offsets of a node flow to the edges that leave it. -/
def flow (p : Uses Val) (con : DirectedGraph Val (Finset Int)) (node : Val) :
    DirectedGraph Val (Finset Int) :=
  con.mapOutgoing node fun prop => prop ∪ transform (allIncoming con node) (p.kind node)

def isMemoryInstruction : UsedValue → Bool
  | .load _ => true
  | .store => true
  | _ => false

/-- The entries of the result. -/
def entries (p : Uses Val) (order : List Val) (con : DirectedGraph Val (Finset Int)) (inst : Val) :
    Option (Finset Int) :=
  if inst ∈ order ∧ isMemoryInstruction (p.kind inst) = true then some (incomingOffsets con inst)
  else none

/-- `memory_access_offsets`: the offsets of the instructions that have an entry. -/
def memoryAccessOffsets [Fintype Val] (p : Uses Val) (obj : Val) :
    Option (Val → Option (Finset Int)) := do
  let con ← (p.useGraph obj).condense
  let order ← (← con.graph.topologicalOrder)
  some (p.entries order (order.foldl p.flow con.graph))

/-- The label of the edge to the next instruction; `none` when there is no `edges[0]`. -/
def edgeLabel (p : Uses Val) (offsets : Val → Option (Finset Int)) (inst : Val) :
    Option (EdgeLabel Int) :=
  match p.kind inst, offsets inst with
  | .load true, some offsets =>
      let edges := (offsets.sort (· ≤ ·)).map Expr.tok
      if edges.length > 1 then some (some (.flatten (.alt edges))) else edges[0]?.map some
  | _, _ => some none

/-! ## The graph of the uses -/

/-- The users that get an edge. -/
def tracks : UsedValue → Bool
  | .getElementPtr firstOffsetZero _ => firstOffsetZero
  | .phi => true
  | .load _ => true
  | .store => true
  | .other => false

/-- The values whose users are visited in turn. -/
def passes : UsedValue → Bool
  | .getElementPtr _ _ => true
  | .phi => true
  | _ => false

/-- From the object, or from a value that is reached by way of its uses, to a user. -/
def Step (p : Uses Val) (obj v user : Val) : Prop :=
  (v = obj ∨ passes (p.kind v) = true) ∧ user ∈ p.users v ∧ tracks (p.kind user) = true

/-- The graph has no offsets yet. -/
def Unlabelled (g : DirectedGraph Val (Finset Int)) : Prop :=
  ∀ a b offsets, (b, offsets) ∈ g.outgoing a → offsets = ∅

section Build

variable {p : Uses Val} {obj v user current : Val} {rest : List Val} {s t : Building Val}

namespace Building

/-- A user becomes a node, and it is pushed if it is a new node whose users are visited. -/
def enter (p : Uses Val) (s : Building Val) (user : Val) : Building Val :=
  if passes (p.kind user) then s.add user else s.addNode user

theorem mem_enter (p : Uses Val) (s : Building Val) (user x : Val) :
    x ∈ (s.enter p user).graph.nodes ↔ x ∈ s.graph.nodes ∨ x = user := by
  unfold enter add addNode
  split
  · split
    · next present =>
        constructor
        · exact .inl
        · rintro (old | rfl)
          · exact old
          · exact present
    · exact DirectedGraph.mem_addNode
  · exact DirectedGraph.mem_addNode

theorem outgoing_enter (p : Uses Val) (s : Building Val) (user : Val) :
    (s.enter p user).graph.outgoing = s.graph.outgoing := by
  have added : (s.graph.addNode user).outgoing = s.graph.outgoing := by
    unfold DirectedGraph.addNode
    split <;> rfl
  unfold enter add addNode
  split
  · split
    · rfl
    · exact added
  · exact added

theorem mem_stack_enter (p : Uses Val) (s : Building Val) (user x : Val) :
    x ∈ (s.enter p user).stack ↔
      x ∈ s.stack ∨ x = user ∧ passes (p.kind user) = true ∧ user ∉ s.graph.nodes := by
  unfold enter add addNode
  split
  · next pass =>
      split
      · next present => simp [present]
      · next fresh => simp [pass, fresh, or_comm]
  · next pass => simp [pass]

/-- What is pushed is a new node. -/
theorem size_enter (p : Uses Val) (s : Building Val) (user : Val) :
    (s.enter p user).stack.length + s.graph.nodes.length ≤
      s.stack.length + (s.enter p user).graph.nodes.length := by
  unfold enter add addNode DirectedGraph.addNode
  split
  · split
    · exact Nat.le_refl _
    · simp only [List.length_cons, List.length_append, List.length_nil]
      omega
  · split
    · exact Nat.le_refl _
    · simp

end Building

theorem visitUser_eq (p : Uses Val) (v : Val) (s : Building Val) (user : Val) :
    p.visitUser v s user =
      if tracks (p.kind user) then (s.enter p user).addEdge v user else s := by
  unfold visitUser Building.enter
  cases p.kind user <;> rfl

/--
The graph that has been built while users of `current` are still to be visited: it has the
uses of all other nodes that are not on the stack.
-/
structure Built (p : Uses Val) (obj current : Val) (rest : List Val) (s : Building Val) :
    Prop where
  root : obj ∈ s.graph.nodes
  reached : ∀ v ∈ s.graph.nodes, Relation.ReflTransGen (p.Step obj) obj v
  sound : ∀ a b, s.graph.Edge a b → p.Step obj a b
  complete : ∀ a ∈ s.graph.nodes, a ∉ s.stack → ∀ b, p.Step obj a b →
    s.graph.Edge a b ∨ a = current ∧ b ∈ rest
  pushed : ∀ a ∈ s.stack, a ∈ s.graph.nodes ∧ (a = obj ∨ passes (p.kind a) = true)
  unlabelled : Unlabelled s.graph

theorem Built.visitUser (built : Built p obj current (user :: rest) s)
    (member : current ∈ s.graph.nodes) (follows : current = obj ∨ passes (p.kind current) = true)
    (isUser : user ∈ p.users current) : Built p obj current rest (p.visitUser current s user) := by
  rw [visitUser_eq]
  split
  · next tracked =>
      have step : p.Step obj current user := ⟨follows, isUser, tracked⟩
      have mem := s.mem_enter p user
      have edge : ∀ x y, ((s.enter p user).addEdge current user).graph.Edge x y ↔
          s.graph.Edge x y ∨ x = current ∧ y = user := by
        intro x y
        have old : (s.enter p user).graph.Edge x y ↔ s.graph.Edge x y := by
          rw [DirectedGraph.Edge, DirectedGraph.successors, s.outgoing_enter p user]
          rfl
        rw [Building.addEdge, DirectedGraph.edge_addEdge, old, mem, mem]
        simp [member]
      have nodes : ∀ x, x ∈ ((s.enter p user).addEdge current user).graph.nodes ↔
          x ∈ s.graph.nodes ∨ x = user := by
        intro x
        rw [Building.addEdge, DirectedGraph.nodes_addEdge, mem]
      have stack : ∀ x, x ∈ ((s.enter p user).addEdge current user).stack ↔
          x ∈ s.stack ∨ x = user ∧ passes (p.kind user) = true ∧ user ∉ s.graph.nodes :=
        s.mem_stack_enter p user
      constructor
      case root => exact (nodes obj).mpr (.inl built.root)
      case reached =>
        intro v isNode
        rcases (nodes v).mp isNode with old | rfl
        · exact built.reached v old
        · exact (built.reached current member).tail step
      case sound =>
        intro a b isEdge
        rcases (edge a b).mp isEdge with old | ⟨rfl, rfl⟩
        · exact built.sound a b old
        · exact step
      case complete =>
        intro a isNode done b uses
        rw [edge]
        rw [stack, not_or] at done
        by_cases old : a ∈ s.graph.nodes
        · rcases built.complete a old done.1 b uses with there | ⟨same, inRest⟩
          · exact .inl (.inl there)
          · rcases List.mem_cons.mp inRest with rfl | later
            · exact .inl (.inr ⟨same, rfl⟩)
            · exact .inr ⟨same, later⟩
        · -- a new node that is not pushed has no users to visit
          obtain rfl := ((nodes a).mp isNode).resolve_left old
          rcases uses.1 with rfl | pass
          · exact absurd built.root old
          · exact absurd ⟨rfl, pass, old⟩ done.2
      case pushed =>
        intro a onStack
        rw [nodes]
        rcases (stack a).mp onStack with old | ⟨rfl, pass, _⟩
        · exact ⟨.inl (built.pushed a old).1, (built.pushed a old).2⟩
        · exact ⟨.inr rfl, .inr pass⟩
      case unlabelled =>
        intro a b offsets isEdge
        rcases DirectedGraph.mem_outgoing_addEdge.mp isEdge with old | ⟨⟨_, empty⟩, _⟩
        · rw [s.outgoing_enter p user] at old
          exact built.unlabelled a b offsets old
        · exact empty
  · next untracked =>
      refine { built with complete := ?_ }
      intro a isNode done b uses
      rcases built.complete a isNode done b uses with there | ⟨same, inRest⟩
      · exact .inl there
      · rcases List.mem_cons.mp inRest with rfl | later
        · exact absurd uses.2.2 untracked
        · exact .inr ⟨same, later⟩

theorem mem_visitUser (member : v ∈ s.graph.nodes) :
    v ∈ (p.visitUser current s user).graph.nodes := by
  rw [visitUser_eq]
  split
  · rw [Building.addEdge, DirectedGraph.nodes_addEdge, Building.mem_enter]
    exact .inl member
  · exact member

theorem size_visitUser (p : Uses Val) (current : Val) (s : Building Val) (user : Val) :
    (p.visitUser current s user).stack.length + s.graph.nodes.length ≤
      s.stack.length + (p.visitUser current s user).graph.nodes.length := by
  rw [visitUser_eq]
  split
  · rw [Building.addEdge, DirectedGraph.nodes_addEdge]
    exact s.size_enter p user
  · exact Nat.le_refl _

/-- All users of a value are visited. -/
theorem Built.visitUsers (built : Built p obj current rest s) (member : current ∈ s.graph.nodes)
    (follows : current = obj ∨ passes (p.kind current) = true)
    (areUsers : ∀ user ∈ rest, user ∈ p.users current) :
    Built p obj current [] (rest.foldl (p.visitUser current) s) ∧
      (rest.foldl (p.visitUser current) s).stack.length + s.graph.nodes.length ≤
        s.stack.length + (rest.foldl (p.visitUser current) s).graph.nodes.length := by
  induction rest generalizing s with
  | nil => exact ⟨built, Nat.le_refl _⟩
  | cons user rest ih =>
      have isUser := areUsers user List.mem_cons_self
      have size := size_visitUser p current s user
      rcases ih (built.visitUser member follows isUser) (mem_visitUser member)
        (fun other later => areUsers other (List.mem_cons_of_mem _ later)) with ⟨built', size'⟩
      refine ⟨built', ?_⟩
      rw [List.foldl_cons]
      omega

/-- One execution of the loop body. -/
theorem Built.visit (built : Built p obj current [] s) (stack : s.stack = v :: rest) :
    Built p obj v [] (p.visit s) ∧
      (p.visit s).stack.length + s.graph.nodes.length <
        s.stack.length + (p.visit s).graph.nodes.length := by
  have top := built.pushed v (by simp [stack])
  have popped : Built p obj v (p.users v) { s with stack := rest } := by
    refine { built with complete := ?_, pushed := ?_ }
    · intro a isNode done b uses
      by_cases same : a = v
      · exact .inr ⟨same, same ▸ uses.2.1⟩
      · left
        have notOnStack : a ∉ s.stack := by
          rw [stack, List.mem_cons, not_or]
          exact ⟨same, done⟩
        exact (built.complete a isNode notOnStack b uses).resolve_right
          fun wrong => nomatch wrong.2
    · intro a onStack
      exact built.pushed a (by simp [stack, show a ∈ rest from onStack])
  rcases popped.visitUsers top.1 top.2 fun user member => member with ⟨built', size⟩
  rw [Uses.visit, stack]
  refine ⟨built', ?_⟩
  rw [List.length_cons]
  dsimp only at size ⊢
  omega

/-- The object is the first node. -/
theorem Built.start (p : Uses Val) (obj : Val) :
    Built p obj obj [] (Building.add ⟨.empty Val (Finset Int), []⟩ obj) := by
  have nodes : ∀ x, x ∈ (Building.add ⟨.empty Val (Finset Int), []⟩ obj).graph.nodes ↔ x = obj := by
    intro x
    simp [Building.add, DirectedGraph.addNode, DirectedGraph.empty]
  have stack : (Building.add ⟨.empty Val (Finset Int), []⟩ obj).stack = [obj] := by
    simp [Building.add, DirectedGraph.empty]
  have outgoing : ∀ x, (Building.add ⟨.empty Val (Finset Int), []⟩ obj).graph.outgoing x = [] := by
    intro x
    simp [Building.add, DirectedGraph.addNode, DirectedGraph.empty]
  constructor
  case root => exact (nodes obj).mpr rfl
  case reached =>
    intro v isNode
    rw [(nodes v).mp isNode]
  case sound =>
    intro a b isEdge
    rw [DirectedGraph.Edge, DirectedGraph.successors, outgoing, List.map_nil] at isEdge
    exact absurd isEdge List.not_mem_nil
  case complete =>
    intro a isNode done
    rw [stack, (nodes a).mp isNode] at done
    exact absurd (List.mem_singleton_self obj) done
  case pushed =>
    intro a onStack
    rw [stack, List.mem_singleton] at onStack
    exact ⟨(nodes a).mpr onStack, .inl onStack⟩
  case unlabelled =>
    intro a b offsets isEdge
    rw [outgoing] at isEdge
    exact absurd isEdge List.not_mem_nil

/-- The loop ends when every value that the object reaches has been visited. -/
theorem useGraph_built [Fintype Val] (p : Uses Val) (obj : Val) :
    ∃ s : Building Val, p.useGraph obj = s.graph.sortNodes ∧ s.stack = [] ∧
      ∃ current, Built p obj current [] s := by
  let start : Building Val := Building.add ⟨.empty Val (Finset Int), []⟩ obj
  let condition := fun s : Building Val => !s.stack.isEmpty
  have preserved : ∀ s : Building Val, (∃ current, Built p obj current [] s) →
      condition s = true → (∃ current, Built p obj current [] (p.visit s)) ∧
        (p.visit s).stack.length + s.graph.nodes.length <
          s.stack.length + (p.visit s).graph.nodes.length := by
    rintro s ⟨current, built⟩ more
    cases stack : s.stack with
    | nil => simp [condition, stack] at more
    | cons v rest =>
        rcases built.visit stack with ⟨built', less⟩
        rw [stack] at less
        exact ⟨⟨v, built'⟩, less⟩
  have started : ∃ current, Built p obj current [] start := ⟨obj, .start p obj⟩
  have kept := Loop.whileLoop_invariant
    (fun s built more => (preserved s built more).1) (Fintype.card Val) started
  have enough : start.stack.length + (Fintype.card Val - start.graph.nodes.length) ≤
      Fintype.card Val := by
    have one : start.stack.length = 1 := by simp [start, Building.add, DirectedGraph.empty]
    have pos := List.length_pos_of_mem (Built.start p obj).root
    have bound := start.graph.nodes_nodup.length_le_card
    change 0 < start.graph.nodes.length at pos
    omega
  have finished : condition (Loop.whileLoop condition p.visit (Fintype.card Val) start) = false := by
    refine Loop.whileLoop_finished
      (fun s : Building Val => s.stack.length + (Fintype.card Val - s.graph.nodes.length))
      (fun s built more => (preserved s built more).1) (fun s built more => ?_) started enough
    have less := (preserved s built more).2
    have bound := (p.visit s).graph.nodes_nodup.length_le_card
    omega
  refine ⟨_, rfl, ?_, kept⟩
  simpa [condition] using finished

variable [Fintype Val]

/-- The nodes are the values that the object reaches. -/
theorem mem_useGraph : v ∈ (p.useGraph obj).nodes ↔ Relation.ReflTransGen (p.Step obj) obj v := by
  rcases useGraph_built p obj with ⟨s, same, done, current, built⟩
  have nodes : ∀ x, x ∈ (p.useGraph obj).nodes ↔ x ∈ s.graph.nodes := by
    intro x
    rw [same]
    exact List.mem_insertionSort _
  rw [nodes]
  refine ⟨built.reached v, fun path => ?_⟩
  induction path with
  | refl => exact built.root
  | tail _ step ih =>
      have edge := built.complete _ ih (by simp [done]) _ step
      exact (edge.resolve_right fun wrong => nomatch wrong.2).mem_nodes.2

/-- The edges are the uses of the nodes. -/
theorem edge_useGraph : (p.useGraph obj).Edge v user ↔
    v ∈ (p.useGraph obj).nodes ∧ p.Step obj v user := by
  rcases useGraph_built p obj with ⟨s, same, done, current, built⟩
  have nodes : v ∈ (p.useGraph obj).nodes ↔ v ∈ s.graph.nodes := by
    rw [same]
    exact List.mem_insertionSort _
  have edges : (p.useGraph obj).Edge v user ↔ s.graph.Edge v user := by
    rw [same]
    rfl
  rw [nodes, edges]
  constructor
  · exact fun edge => ⟨edge.mem_nodes.1, built.sound v user edge⟩
  · rintro ⟨isNode, step⟩
    have edge := built.complete v isNode (by simp [done]) user step
    exact edge.resolve_right fun wrong => nomatch wrong.2

theorem unlabelled_useGraph (p : Uses Val) (obj : Val) : Unlabelled (p.useGraph obj) := by
  rcases useGraph_built p obj with ⟨s, same, _, _, built⟩
  rw [same]
  exact built.unlabelled

end Build

/-! ## Offsets along the edges -/

/-- The address computations that wipe out the offsets. -/
def clears : UsedValue → Bool
  | .getElementPtr _ none => true
  | _ => false

/-- Some offset leaves a node: none is wiped out on a way that starts where no edge enters. -/
inductive Carries (edge : Val → Val → Prop) (p : Uses Val) : Val → Prop where
  | source {v : Val} (first : ∀ u, ¬ edge u v) (keeps : clears (p.kind v) = false) :
      Carries edge p v
  | next {u v : Val} (before : Carries edge p u) (flows : edge u v)
      (keeps : clears (p.kind v) = false) : Carries edge p v

section Flow

variable {p : Uses Val} {con flowed : DirectedGraph Val (Finset Int)} {node a b : Val}
  {offsets : Finset Int} {offset : Int} {finished rest : List Val}

omit [LinearOrder Val] in
theorem carries_iff {edge : Val → Val → Prop} {v : Val} : Carries edge p v ↔
    ((∀ u, ¬ edge u v) ∨ ∃ u, edge u v ∧ Carries edge p u) ∧ clears (p.kind v) = false := by
  constructor
  · intro carries
    cases carries with
    | source first keeps => exact ⟨.inl first, keeps⟩
    | next before flows keeps => exact ⟨.inr ⟨_, flows, before⟩, keeps⟩
  · rintro ⟨first | ⟨u, flows, before⟩, keeps⟩
    · exact .source first keeps
    · exact .next before flows keeps

omit [LinearOrder Val] in
theorem transform_nonempty {kind : UsedValue} :
    (transform offsets kind).Nonempty ↔ offsets.Nonempty ∧ clears kind = false := by
  cases kind with
  | getElementPtr _ constantOffset =>
      cases constantOffset with
      | none => simp [transform, clears]
      | some offset =>
          rw [transform, Finset.image_nonempty]
          simp [clears]
  | phi => simp [transform, clears]
  | load _ => simp [transform, clears]
  | store => simp [transform, clears]
  | other => simp [transform, clears]

omit [LinearOrder Val] in
theorem mem_incomingOffsets : offset ∈ incomingOffsets con node ↔
    ∃ a offsets, (node, offsets) ∈ con.outgoing a ∧ offset ∈ offsets := by
  have union : ∀ edges : List (Val × Finset Int),
      offset ∈ edges.foldr (fun e offsets => e.2 ∪ offsets) ∅ ↔ ∃ e ∈ edges, offset ∈ e.2 := by
    intro edges
    induction edges with
    | nil => simp
    | cons e edges ih => simp [ih]
  rw [incomingOffsets, union]
  simp [con.mem_incoming]

omit [LinearOrder Val] in
theorem incomingOffsets_nonempty : (incomingOffsets con node).Nonempty ↔
    ∃ a offsets, (node, offsets) ∈ con.outgoing a ∧ offsets.Nonempty := by
  simp only [Finset.Nonempty, mem_incomingOffsets]
  constructor
  · rintro ⟨offset, a, offsets, there, member⟩
    exact ⟨a, offsets, there, offset, member⟩
  · rintro ⟨a, offsets, there, offset, member⟩
    exact ⟨offset, a, offsets, there, member⟩

/-- The edges that leave the nodes in `finished` have been labelled. -/
structure Flowed (p : Uses Val) (con : DirectedGraph Val (Finset Int)) (finished : List Val)
    (flowed : DirectedGraph Val (Finset Int)) : Prop where
  edge : ∀ a b, flowed.Edge a b ↔ con.Edge a b
  label : ∀ a b offsets, (b, offsets) ∈ flowed.outgoing a →
    (offsets.Nonempty ↔ a ∈ finished ∧ Carries con.Edge p a)

namespace Flowed

omit [LinearOrder Val] in
theorem start (unlabelled : Unlabelled con) : Flowed p con [] con where
  edge _ _ := .rfl
  label a b offsets there := by
    rw [unlabelled a b offsets there]
    simp

omit [LinearOrder Val] in
/-- A node has an offset if an edge that enters it has one, or if no edge enters it. -/
theorem incoming (flow : Flowed p con finished flowed)
    (before : ∀ a, con.Edge a node → a ∈ finished) :
    (incomingOffsets flowed node).Nonempty ↔ ∃ a, con.Edge a node ∧ Carries con.Edge p a := by
  rw [incomingOffsets_nonempty]
  constructor
  · rintro ⟨a, offsets, there, nonempty⟩
    have isEdge := (flow.edge a node).mp (DirectedGraph.edge_iff.mpr ⟨offsets, there⟩)
    exact ⟨a, isEdge, ((flow.label a node offsets there).mp nonempty).2⟩
  · rintro ⟨a, isEdge, carries⟩
    rcases DirectedGraph.edge_iff.mp ((flow.edge a node).mpr isEdge) with ⟨offsets, there⟩
    exact ⟨a, offsets, there, (flow.label a node offsets there).mpr ⟨before a isEdge, carries⟩⟩

/-- One node, after all nodes with an edge to it. -/
theorem step (flow : Flowed p con finished flowed) (fresh : node ∉ finished)
    (before : ∀ a, con.Edge a node → a ∈ finished) :
    Flowed p con (finished ++ [node]) (p.flow flowed node) where
  edge a b := by rw [Uses.flow, DirectedGraph.edge_mapOutgoing, flow.edge]
  label a b offsets there := by
    rcases DirectedGraph.mem_outgoing_mapOutgoing.mp there with ⟨old, wasThere, rfl⟩
    have label := flow.label a b old wasThere
    by_cases same : a = node
    · subst same
      have empty : ¬ old.Nonempty := fun nonempty => fresh (label.mp nonempty).1
      have noEdge : (flowed.incoming a).length = 0 ↔ ∀ u, ¬ con.Edge u a := by
        simp only [← flow.edge, DirectedGraph.edge_iff, ← flowed.mem_incoming,
          List.length_eq_zero_iff, List.eq_nil_iff_forall_not_mem, Prod.forall, not_exists]
      rw [if_pos rfl, Finset.union_nonempty, or_iff_right empty, transform_nonempty, carries_iff,
        ← flow.incoming before, ← noEdge, allIncoming]
      split
      · next none => simp [none]
      · next some => simp [some]
    · rw [if_neg same, label]
      simp [same]

/-- All nodes, in a topological order. -/
theorem all {order : List Val} (flow : Flowed p con finished flowed)
    (nodup : (finished ++ order).Nodup)
    (sorted : ∀ a b, con.Edge a b → ∃ before after, finished ++ order = before ++ a :: after ∧
      b ∈ after) : Flowed p con (finished ++ order) (order.foldl p.flow flowed) := by
  induction order generalizing finished flowed with
  | nil => simpa using flow
  | cons node rest ih =>
      have fresh := List.nodup_append.mp nodup
      rw [List.nodup_cons] at fresh
      have notBefore : node ∉ finished := fun old => fresh.2.2 node old node List.mem_cons_self rfl
      have before : ∀ a, con.Edge a node → a ∈ finished := by
        intro a isEdge
        rcases sorted a node isEdge with ⟨front, back, split, later⟩
        rcases List.append_of_mem later with ⟨middle, last, rfl⟩
        have split' : finished ++ node :: rest = (front ++ a :: middle) ++ node :: last := by
          simpa using split
        rw [List.append_cons_inj_of_notMem notBefore fresh.2.1.1] at split'
        simp [split'.1]
      have split : finished ++ node :: rest = finished ++ [node] ++ rest := by simp
      rw [split] at nodup sorted ⊢
      exact ih (flow.step notBefore before) nodup sorted

end Flowed

end Flow

/-! ## The result -/

section Result

variable [Fintype Val] {p : Uses Val} {obj inst : Val}

/-- A use that leads from the root of one component to the root of another. -/
def RootStep (p : Uses Val) (obj a b : Val) : Prop :=
  (p.useGraph obj).IsRoot a ∧ (p.useGraph obj).IsRoot b ∧ a ≠ b ∧ p.Step obj a b

/-- Every entry has an offset, and every edge of the automaton gets its label. -/
structure HasOffsets (p : Uses Val) (offsets : Val → Option (Finset Int)) : Prop where
  nonempty : ∀ inst found, offsets inst = some found → found.Nonempty
  label : ∀ inst, p.edgeLabel offsets inst ≠ none

/-- The instructions with an entry, and the entries that have an offset. -/
theorem memoryAccessOffsets_spec (p : Uses Val) (obj : Val) (small : Fintype.card Val ≤ 2 ^ 32) :
    ∃ offsets, p.memoryAccessOffsets obj = some offsets ∧ ∀ inst,
      ((p.useGraph obj).IsRoot inst ∧ isMemoryInstruction (p.kind inst) = true ↔
        offsets inst ≠ none) ∧ ∀ found, offsets inst = some found →
          (found.Nonempty ↔ ∃ a, p.RootStep obj a inst ∧ Carries (p.RootStep obj) p a) := by
  have size : (p.useGraph obj).nodes.length ≤ 2 ^ 32 :=
    (p.useGraph obj).nodes_nodup.length_le_card.trans small
  rcases DirectedGraph.condense_spec size with ⟨components, con, found, partition, made, condensed⟩
  have isRoot := condensed.isRoot_iff partition found
  have edge : ∀ a b, con.graph.Edge a b ↔ p.RootStep obj a b := by
    intro a b
    rw [condensed.edge, RootStep, isRoot, isRoot, edge_useGraph]
    constructor
    · rintro ⟨⟨inA, inB⟩, differ, _, step⟩
      exact ⟨inA, inB, differ, step⟩
    · rintro ⟨inA, inB, differ, step⟩
      exact ⟨⟨inA, inB⟩, differ, ((condensed.mem_nodes a).mp inA).1, step⟩
  rcases con.graph.topologicalOrder_searched with ⟨order, ordered, _, perm, sorted⟩ | ⟨_, cyclic⟩
  case inr => exact absurd (condensed.acyclic partition) cyclic
  have unlabelled : Unlabelled con.graph := fun a b offsets there =>
    unlabelled_useGraph p obj a b offsets (DirectedGraph.outgoing_condense made there)
  have flowed := (Flowed.start unlabelled : Flowed p _ _ _).all
    (perm.nodup_iff.mpr con.graph.nodes_nodup) sorted
  have sameEdges : con.graph.Edge = p.RootStep obj := by
    funext a b
    exact propext (edge a b)
  refine ⟨p.entries order (order.foldl p.flow con.graph), ?_, fun inst => ?_⟩
  · rw [memoryAccessOffsets, made, Option.bind_eq_bind, Option.bind_some, ordered]
    rfl
  have listed : ∀ v, v ∈ order ↔ v ∈ con.graph.nodes := fun v => perm.mem_iff
  have incoming := flowed.incoming fun a (isEdge : con.graph.Edge a inst) =>
    (listed a).mpr isEdge.mem_nodes.1
  rw [sameEdges] at incoming
  rw [isRoot, ← listed, entries]
  by_cases recorded : inst ∈ order ∧ isMemoryInstruction (p.kind inst) = true
  · rw [if_pos recorded]
    refine ⟨by simp [recorded], fun found same => ?_⟩
    rw [← Option.some.inj same]
    exact incoming
  · rw [if_neg recorded]
    exact ⟨iff_of_false recorded fun wrong => wrong rfl, fun found wrong => nomatch wrong⟩

omit [LinearOrder Val] [Fintype Val] in
/-- `edges[0]` exists when there are offsets. -/
theorem edgeLabel_ne_none {offsets : Val → Option (Finset Int)}
    (nonempty : ∀ found, offsets inst = some found → found.Nonempty) :
    p.edgeLabel offsets inst ≠ none := by
  unfold edgeLabel
  split
  · next found kind entry =>
      have some_offset := Finset.card_pos.mpr (nonempty found entry)
      dsimp only
      split
      · simp
      · rw [List.getElem?_eq_getElem (by simpa using some_offset)]
        simp
  · simp

/--
Every memory instruction that is the root of its component has an offset exactly if each of
them is used on a way that begins at a root which no other root uses, without an address
computation whose offset is not constant.
-/
theorem hasOffsets_iff (p : Uses Val) (obj : Val) (small : Fintype.card Val ≤ 2 ^ 32) :
    (∃ offsets, p.memoryAccessOffsets obj = some offsets ∧ p.HasOffsets offsets) ↔
      ∀ inst, (p.useGraph obj).IsRoot inst → isMemoryInstruction (p.kind inst) = true →
        ∃ a, p.RootStep obj a inst ∧ Carries (p.RootStep obj) p a := by
  rcases memoryAccessOffsets_spec p obj small with ⟨offsets, result, spec⟩
  constructor
  · rintro ⟨offsets', result', has⟩ inst isRoot isMemory
    obtain rfl := Option.some.inj (result.symm.trans result')
    rcases Option.ne_none_iff_exists'.mp ((spec inst).1.mp ⟨isRoot, isMemory⟩) with ⟨found, entry⟩
    exact ((spec inst).2 found entry).mp (has.nonempty inst found entry)
  · intro flows
    have nonempty : ∀ inst found, offsets inst = some found → found.Nonempty := by
      intro inst found entry
      have recorded := (spec inst).1.mpr (by simp [entry])
      exact ((spec inst).2 found entry).mpr (flows inst recorded.1 recorded.2)
    exact ⟨offsets, result, nonempty, fun inst => edgeLabel_ne_none (nonempty inst)⟩

end Result

/-- A pointer is loaded at an index that is not constant, from an object behind a phi. -/
def variableIndex : Uses (Fin 4) where
  kind v :=
    match v.val with
    | 0 => .other
    | 1 => .phi
    | 2 => .getElementPtr true none
    | _ => .load true
  users v := if next : v.val + 1 < 4 then [⟨v.val + 1, next⟩] else []

theorem hasOffsets_iff_variableIndex :
    (∃ offsets, variableIndex.memoryAccessOffsets 0 = some offsets ∧
      variableIndex.HasOffsets offsets) ↔
      ∀ inst, (variableIndex.useGraph 0).IsRoot inst →
        isMemoryInstruction (variableIndex.kind inst) = true →
          ∃ a, variableIndex.RootStep 0 a inst ∧
            Carries (variableIndex.RootStep 0) variableIndex a :=
  hasOffsets_iff variableIndex 0 (by decide)

/-- The load has an entry, which is empty, so the edge behind it gets no label. -/
theorem not_hasOffsets_variableIndex :
    ¬ ∃ offsets, variableIndex.memoryAccessOffsets 0 = some offsets ∧
      variableIndex.HasOffsets offsets := by
  rintro ⟨offsets, result, has⟩
  have empty : (variableIndex.memoryAccessOffsets 0).map (fun offsets => offsets 3) =
      some (some ∅) := by
    decide
  rw [result] at empty
  have entry := Option.some.inj empty
  exact Finset.not_nonempty_empty (has.nonempty 3 ∅ entry)

end Uses

end Alaska
