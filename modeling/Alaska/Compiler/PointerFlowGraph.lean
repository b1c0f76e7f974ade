import Alaska.Compiler.SimpleFunction
import Alaska.Lib.Loop
import Mathlib.Data.Finset.Card
import Mathlib.Data.Finset.Union

/-!
# The pointer-flow graph

The graph has a sink for every load and store, and follows the pointer operand of each up a
chain of address computations to a source. Colours flow down from the sources until they no
longer change. The nodes are kept in sets of pointers, so their order is arbitrary: it is
the order of `PointerFlowGraph.nodes`.
-/

namespace Alaska

/-- The casts whose result is a pointer. -/
inductive CastKind where
  | bitCast
  | addrSpaceCast
  | intToPtr
  deriving DecidableEq

/--
The values of pointer type; `id` numbers the values of a function. The operands of a value
are kept where the passes look at them, so that a chain of address computations is finite.
-/
inductive Value where
  | poison (id : Nat)
  | null
  | global (id : Nat) (isVariable : Bool)
  | constant (id : Nat)
  | argument (id : Nat) (function : String)
  | alloca (id : Nat)
  | call (id : Nat) (calledFunction : Option String)
  | load (id : Nat)
  | phi (id : Nat)
  | cast (id : Nat) (kind : CastKind)
  | instruction (id : Nat)
  | getElementPtr (id : Nat) (pointerOperand : Value)
  deriving DecidableEq

/-- `alaska::shouldTranslate` of a value of pointer type. -/
def shouldTranslate : Value → Bool
  | .poison _ => false
  | .global _ _ => false
  | .alloca _ => false
  | .null => false
  | .call _ calledFunction => calledFunction != some "_Znam"
  | .argument _ function => !startswith function ".omp_outlined"
  | .getElementPtr _ pointerOperand => shouldTranslate pointerOperand
  | _ => true

/-- A load or store, the sinks of the graph. -/
structure Access where
  id : Nat
  isStore : Bool
  pointer : Value
  deriving DecidableEq

/-- The instructions of a block, as far as the scans for loads and stores tell them apart. -/
inductive ScannedInst where
  | load (id : Nat) (pointer : Value)
  | store (id : Nat) (pointer : Value)
  | other (id : Nat)

def ScannedInst.access : ScannedInst → Option Access
  | .load id pointer => some ⟨id, false, pointer⟩
  | .store id pointer => some ⟨id, true, pointer⟩
  | .other _ => none

/-- The loads and stores of the blocks of a function. -/
def accesses (blocks : List (List ScannedInst)) : List Access :=
  blocks.flatten.filterMap ScannedInst.access

inductive NodeType where
  | source
  | sink
  | transient
  deriving DecidableEq

inductive FlowNode where
  | value (value : Value)
  | sink (access : Access)
  deriving DecidableEq

/-! ## Nodes and edges -/

/--
`FlowNode::populate_edges` of a value: its type, the values it has an edge from, and whether
it has a colour of its own. `visitAlloca` is not the name of a visitor's method, so an alloca
is coloured like any other instruction.
-/
def populateEdges (noStrictAlias : Bool) : Value → NodeType × List Value × Bool
  | .getElementPtr _ pointerOperand =>
      if noStrictAlias then (.source, [], true) else (.transient, [pointerOperand], false)
  | .cast _ .intToPtr => (.source, [], true)
  | .cast _ .bitCast => (.transient, [], false)
  | .cast _ .addrSpaceCast => (.transient, [], false)
  | .global _ isVariable => (.source, [], !isVariable)
  | _ => (.source, [], true)

namespace FlowNode

def type (noStrictAlias : Bool) : FlowNode → NodeType
  | .value v => (populateEdges noStrictAlias v).1
  | .sink _ => .sink

def inNodes (noStrictAlias : Bool) : FlowNode → List FlowNode
  | .value v => (populateEdges noStrictAlias v).2.1.map .value
  | .sink access => [.value access.pointer]

/-- The colours a node is created with. A colour is the id of its source. -/
def ownColors (noStrictAlias : Bool) : FlowNode → Finset FlowNode
  | .value v => if (populateEdges noStrictAlias v).2.2 then {.value v} else ∅
  | .sink _ => ∅

end FlowNode

/-- The nodes that `get_node` creates for a value, by following its edges. -/
def createdFrom (noStrictAlias : Bool) : Value → List Value
  | .getElementPtr id pointerOperand =>
      if noStrictAlias then [.getElementPtr id pointerOperand]
      else .getElementPtr id pointerOperand :: createdFrom noStrictAlias pointerOperand
  | v => [v]

/-- Every node of the graph, once. -/
def createdNodes (noStrictAlias : Bool) (blocks : List (List ScannedInst)) : List FlowNode :=
  ((accesses blocks).flatMap fun access =>
    .sink access :: (createdFrom noStrictAlias access.pointer).map .value).dedup

/-- A graph is determined by the order of its nodes. -/
structure PointerFlowGraph (noStrictAlias : Bool) (blocks : List (List ScannedInst)) where
  nodes : List FlowNode
  created : nodes.Perm (createdNodes noStrictAlias blocks)

variable {noStrictAlias : Bool} {blocks : List (List ScannedInst)}

namespace PointerFlowGraph

/-- The state of the propagation: the colours, and whether a pass changed one. -/
structure Coloring where
  colors : FlowNode → Finset FlowNode
  changed : Bool

/-- A node that is not a source takes the colours of the nodes it has an edge from. -/
def recolor (noStrictAlias : Bool) (s : Coloring) (node : FlowNode) : Coloring :=
  if node.type noStrictAlias = .source then s
  else
    let fresh := (node.inNodes noStrictAlias).toFinset.biUnion s.colors
    ⟨Function.update s.colors node fresh, s.changed || fresh != s.colors node⟩

def propagateOnce (noStrictAlias : Bool) (nodes : List FlowNode) (s : Coloring) : Coloring :=
  nodes.foldl (recolor noStrictAlias) ⟨s.colors, false⟩

/-- The colours flow from the sources until a pass changes none. -/
def propagate (g : PointerFlowGraph noStrictAlias blocks) : Coloring :=
  Loop.whileLoop Coloring.changed (propagateOnce noStrictAlias g.nodes) (g.nodes.length + 1)
    ⟨FlowNode.ownColors noStrictAlias, true⟩

/-- `get_nodes`: the nodes that have a colour. -/
def getNodes (g : PointerFlowGraph noStrictAlias blocks) : List FlowNode :=
  g.nodes.filter fun node => (g.propagate.colors node).card != 0

/-- `get_out_nodes`: the nodes with an edge from this one. -/
def getOutNodes (g : PointerFlowGraph noStrictAlias blocks) (node : FlowNode) : List FlowNode :=
  g.nodes.filter fun other => decide (node ∈ other.inNodes noStrictAlias)

/-! ## The propagation ends -/

/-- The value at the end of the chain above a value. -/
def sourceOf (noStrictAlias : Bool) : Value → Value
  | .getElementPtr id pointerOperand =>
      if noStrictAlias then .getElementPtr id pointerOperand
      else sourceOf noStrictAlias pointerOperand
  | v => v

def originOf (noStrictAlias : Bool) : FlowNode → Value
  | .value v => sourceOf noStrictAlias v
  | .sink access => sourceOf noStrictAlias access.pointer

/-- The colours of a node once they no longer change: those of its source. -/
def finalColors (noStrictAlias : Bool) (node : FlowNode) : Finset FlowNode :=
  FlowNode.ownColors noStrictAlias (.value (originOf noStrictAlias node))

variable {node other : FlowNode} {nodes : List FlowNode} {s : Coloring}

theorem finalColors_source (isSource : node.type noStrictAlias = .source) :
    finalColors noStrictAlias node = node.ownColors noStrictAlias := by
  cases node with
  | sink access => cases isSource
  | value v =>
      cases v with
      | getElementPtr id pointerOperand =>
          cases noStrictAlias with
          | true => rfl
          | false => cases isSource
      | _ => rfl

/-- A node that is not a source has an edge from one node of the same origin, or no colour. -/
theorem inNodes_cases (notSource : node.type noStrictAlias ≠ .source) :
    (∃ above, node.inNodes noStrictAlias = [above] ∧
      finalColors noStrictAlias node = finalColors noStrictAlias above) ∨
    node.inNodes noStrictAlias = [] ∧ finalColors noStrictAlias node = ∅ := by
  cases node with
  | sink access => exact .inl ⟨.value access.pointer, rfl, rfl⟩
  | value v =>
      cases v with
      | getElementPtr id pointerOperand =>
          cases noStrictAlias with
          | true => exact absurd rfl notSource
          | false => exact .inl ⟨.value pointerOperand, rfl, rfl⟩
      | cast id kind =>
          cases kind with
          | intToPtr => exact absurd rfl notSource
          | bitCast => exact .inr ⟨rfl, rfl⟩
          | addrSpaceCast => exact .inr ⟨rfl, rfl⟩
      | _ => exact absurd rfl notSource

/--
The sources keep their colours, every other node is uncoloured or has its final colours, and
colours have come down along the edges.
-/
structure Settles (noStrictAlias : Bool) (s : Coloring) : Prop where
  own : ∀ node, node.type noStrictAlias = .source →
    s.colors node = node.ownColors noStrictAlias
  final : ∀ node, s.colors node = ∅ ∨ s.colors node = finalColors noStrictAlias node
  above : ∀ node, s.colors node ≠ ∅ → ∀ other ∈ node.inNodes noStrictAlias, s.colors other ≠ ∅

/-- The nodes still to be coloured, and one for a pass to come. -/
def remaining (noStrictAlias : Bool) (nodes : List FlowNode) (s : Coloring) : Nat :=
  (nodes.toFinset.filter fun node => s.colors node ≠ finalColors noStrictAlias node).card +
    s.changed.toNat

theorem Settles.fresh (settles : Settles noStrictAlias s)
    (notSource : node.type noStrictAlias ≠ .source) :
    let fresh := (node.inNodes noStrictAlias).toFinset.biUnion s.colors
    fresh = s.colors node ∨
      s.colors node = ∅ ∧ fresh = finalColors noStrictAlias node ∧ fresh ≠ ∅ ∧
        ∀ other ∈ node.inNodes noStrictAlias, s.colors other ≠ ∅ := by
  intro fresh
  rcases inNodes_cases notSource with ⟨above, edges, same⟩ | ⟨edges, uncolored⟩
  · have isFresh : fresh = s.colors above := by simp [fresh, edges]
    rcases settles.final node with empty | final
    · rcases settles.final above with none_yet | known
      · exact .inl (isFresh.trans (none_yet.trans empty.symm))
      · by_cases nonempty : s.colors above = ∅
        · exact .inl (isFresh.trans (nonempty.trans empty.symm))
        · refine .inr ⟨empty, isFresh.trans (known.trans same.symm), isFresh ▸ nonempty, ?_⟩
          simpa [edges] using nonempty
    · by_cases nonempty : s.colors node = ∅
      · rcases settles.final above with none_yet | known
        · exact .inl (isFresh.trans (none_yet.trans nonempty.symm))
        · exact .inl (isFresh.trans (known.trans (same.symm.trans final.symm)))
      · have colored := settles.above node nonempty above (by simp [edges])
        rcases settles.final above with none_yet | known
        · exact absurd none_yet colored
        · exact .inl (isFresh.trans (known.trans (same.symm.trans final.symm)))
  · left
    have isFresh : fresh = ∅ := by simp [fresh, edges]
    rcases settles.final node with empty | final
    · exact isFresh.trans empty.symm
    · exact isFresh.trans (final.trans uncolored).symm

theorem Settles.update (settles : Settles noStrictAlias s)
    (notSource : node.type noStrictAlias ≠ .source) {fresh : Finset FlowNode}
    (final : fresh = finalColors noStrictAlias node) (nonempty : fresh ≠ ∅)
    (colored : ∀ other ∈ node.inNodes noStrictAlias, s.colors other ≠ ∅) (changed : Bool) :
    Settles noStrictAlias ⟨Function.update s.colors node fresh, changed⟩ where
  own := by
    intro other isSource
    have ne : other ≠ node := by
      rintro rfl
      exact notSource isSource
    simpa [ne] using settles.own other isSource
  final := by
    intro other
    by_cases equal : other = node
    · subst other
      exact .inr (by simpa using final)
    · simpa [equal] using settles.final other
  above := by
    intro other isColored above edge
    by_cases itself : above = node
    · simpa [itself] using nonempty
    · simp only [Function.update_of_ne itself]
      by_cases equal : other = node
      · subst other
        exact colored above edge
      · simp only [Function.update_of_ne equal] at isColored
        exact settles.above other isColored above edge

/-- Recolouring a node brings it closer to the end, also when it asks for another pass. -/
theorem Settles.recolor (settles : Settles noStrictAlias s) (member : node ∈ nodes) :
    Settles noStrictAlias (recolor noStrictAlias s node) ∧
      remaining noStrictAlias nodes (recolor noStrictAlias s node) ≤
        remaining noStrictAlias nodes s := by
  unfold PointerFlowGraph.recolor
  by_cases isSource : node.type noStrictAlias = .source
  · rw [if_pos isSource]
    exact ⟨settles, Nat.le_refl _⟩
  · rw [if_neg isSource]
    rcases settles.fresh isSource with same | ⟨empty, final, nonempty, colored⟩
    · simp only [same, Function.update_eq_self, bne_self_eq_false, Bool.or_false]
      exact ⟨settles, Nat.le_refl _⟩
    · generalize (node.inNodes noStrictAlias).toFinset.biUnion s.colors = fresh at *
      refine ⟨settles.update isSource final nonempty colored _, ?_⟩
      have changes : (fresh != s.colors node) = true := by
        rw [empty]
        exact bne_iff_ne.mpr nonempty
      have fewer : (nodes.toFinset.filter fun other =>
            Function.update s.colors node fresh other ≠ finalColors noStrictAlias other) ⊂
          nodes.toFinset.filter fun other => s.colors other ≠ finalColors noStrictAlias other := by
        refine Finset.ssubset_iff_of_subset ?_ |>.mpr ⟨node, ?_, ?_⟩
        · intro other
          by_cases equal : other = node
          · simp [equal, final]
          · simp [equal]
        · simpa [member, empty] using fun isEmpty => nonempty (final.trans isEmpty.symm)
        · simp [final]
      have := Finset.card_lt_card fewer
      simp only [remaining, changes, Bool.or_true, Bool.toNat_true]
      omega

/-- A pass keeps the colours of the sources and brings the colouring closer to the end. -/
theorem Settles.propagateOnce (settles : Settles noStrictAlias s) (changed : s.changed = true) :
    Settles noStrictAlias (propagateOnce noStrictAlias nodes s) ∧
      remaining noStrictAlias nodes (propagateOnce noStrictAlias nodes s) <
        remaining noStrictAlias nodes s := by
  have passes : ∀ (visited : List FlowNode) s, (∀ node ∈ visited, node ∈ nodes) → Settles noStrictAlias s →
      Settles noStrictAlias (visited.foldl (PointerFlowGraph.recolor noStrictAlias) s) ∧
        remaining noStrictAlias nodes
            (visited.foldl (PointerFlowGraph.recolor noStrictAlias) s) ≤
          remaining noStrictAlias nodes s := by
    intro visited
    induction visited with
    | nil => exact fun s _ settles => ⟨settles, Nat.le_refl _⟩
    | cons node rest ih =>
        intro s members settles
        have first := settles.recolor (members node List.mem_cons_self)
        have others := ih _ (fun other member => members other (List.mem_cons_of_mem _ member))
          first.1
        exact ⟨others.1, others.2.trans first.2⟩
  have pass := passes nodes ⟨s.colors, false⟩ (fun _ member => member)
    ⟨settles.own, settles.final, settles.above⟩
  refine ⟨pass.1, Nat.lt_of_le_of_lt pass.2 ?_⟩
  simp [remaining, changed]

theorem settles_start : Settles noStrictAlias ⟨FlowNode.ownColors noStrictAlias, true⟩ where
  own _ _ := rfl
  final := by
    intro node
    by_cases isSource : node.type noStrictAlias = .source
    · exact .inr (finalColors_source isSource).symm
    · left
      cases node with
      | sink access => rfl
      | value v =>
          cases v with
          | getElementPtr id pointerOperand =>
              cases noStrictAlias with
              | true => exact absurd rfl isSource
              | false => rfl
          | cast id kind =>
              cases kind with
              | intToPtr => exact absurd rfl isSource
              | bitCast => rfl
              | addrSpaceCast => rfl
          | _ => exact absurd rfl isSource
  above := by
    intro node colored other edge
    cases node with
    | sink access => exact absurd rfl colored
    | value v =>
        cases v with
        | getElementPtr id pointerOperand =>
            cases noStrictAlias with
            | true => cases edge
            | false => exact absurd rfl colored
        | cast id kind => cases kind <;> cases edge
        | _ => cases edge

/-- The propagation stops by itself, and the colours are settled then. -/
theorem propagate_spec (g : PointerFlowGraph noStrictAlias blocks) :
    g.propagate.changed = false ∧ Settles noStrictAlias g.propagate := by
  constructor
  · refine Loop.whileLoop_finished (remaining noStrictAlias g.nodes)
      (fun s settles changed => (Settles.propagateOnce settles changed).1)
      (fun s settles changed => (Settles.propagateOnce settles changed).2) settles_start ?_
    have := Finset.card_filter_le g.nodes.toFinset fun node =>
      FlowNode.ownColors noStrictAlias node ≠ finalColors noStrictAlias node
    have := g.nodes.toFinset_card_le
    simp only [remaining, Bool.toNat_true]
    omega
  · unfold propagate
    apply Loop.whileLoop_invariant
    · exact fun s settles changed => (Settles.propagateOnce settles changed).1
    · exact settles_start

/-! ## The nodes and edges of a graph -/

variable {g : PointerFlowGraph noStrictAlias blocks} {v root : Value} {access : Access}

theorem mem_nodes_sink : .sink access ∈ g.nodes ↔ access ∈ accesses blocks := by
  simp [g.created.mem_iff, createdNodes]

theorem mem_nodes_value :
    .value v ∈ g.nodes ↔
      ∃ access ∈ accesses blocks, v ∈ createdFrom noStrictAlias access.pointer := by
  simp [g.created.mem_iff, createdNodes]

theorem mem_getOutNodes :
    other ∈ g.getOutNodes node ↔ other ∈ g.nodes ∧ node ∈ other.inNodes noStrictAlias := by
  simp [getOutNodes]

/-- A value has an edge to the address computations on it. -/
theorem mem_inNodes_value :
    node ∈ FlowNode.inNodes noStrictAlias (.value v) ↔
      noStrictAlias = false ∧ ∃ id above, v = .getElementPtr id above ∧ node = .value above := by
  cases v with
  | getElementPtr id pointerOperand =>
      cases noStrictAlias with
      | true => simp [FlowNode.inNodes, populateEdges]
      | false => simp [FlowNode.inNodes, populateEdges]
  | cast id kind => cases kind <;> simp [FlowNode.inNodes, populateEdges]
  | _ => simp [FlowNode.inNodes, populateEdges]

/-- A value is followed from an operand when it is the operand, or an address computation on it
is followed. -/
theorem mem_createdFrom {pointer : Value} :
    v ∈ createdFrom noStrictAlias pointer ↔
      v = pointer ∨ noStrictAlias = false ∧
        ∃ id, .getElementPtr id v ∈ createdFrom noStrictAlias pointer := by
  induction pointer with
  | getElementPtr id above ih =>
      cases noStrictAlias with
      | true => simp [createdFrom]
      | false =>
          simp only [createdFrom, Bool.false_eq_true, if_false, List.mem_cons, true_and] at ih ⊢
          rw [ih]
          constructor
          · rintro (rfl | rfl | ⟨other, member⟩)
            · exact .inl rfl
            · exact .inr ⟨id, .inl rfl⟩
            · exact .inr ⟨other, .inr member⟩
          · rintro (rfl | ⟨other, same | member⟩)
            · exact .inl rfl
            · exact .inr (.inl (Value.getElementPtr.inj same).2)
            · exact .inr (.inr ⟨other, member⟩)
  | _ => simp [createdFrom]

theorem sourceOf_mem_createdFrom {pointer : Value} :
    sourceOf noStrictAlias pointer ∈ createdFrom noStrictAlias pointer := by
  induction pointer with
  | getElementPtr id above ih =>
      cases noStrictAlias with
      | true => simp [createdFrom, sourceOf]
      | false => simpa [createdFrom, sourceOf] using .inr ih
  | _ => simp [createdFrom, sourceOf]

/-- The only source that is followed from an operand is its own. -/
theorem eq_sourceOf {pointer : Value} (member : v ∈ createdFrom noStrictAlias pointer)
    (isSource : (FlowNode.value v).type noStrictAlias = .source) :
    v = sourceOf noStrictAlias pointer := by
  induction pointer with
  | getElementPtr id above ih =>
      cases noStrictAlias with
      | true => simpa [createdFrom, sourceOf] using member
      | false =>
          simp only [createdFrom, Bool.false_eq_true, if_false, List.mem_cons] at member
          rcases member with rfl | member
          · cases isSource
          · simpa [sourceOf] using ih member
  | _ => simpa [createdFrom, sourceOf] using member

/-- Following the address computations does not change what is to be translated. -/
theorem shouldTranslate_sourceOf {pointer : Value} :
    shouldTranslate (sourceOf noStrictAlias pointer) = shouldTranslate pointer := by
  induction pointer with
  | getElementPtr id above ih =>
      cases noStrictAlias with
      | true => rfl
      | false => simpa [sourceOf, shouldTranslate] using ih
  | _ => rfl

/-- A source is a node with a colour unless it is a global variable. -/
theorem mem_getNodes (isSource : node.type noStrictAlias = .source) :
    node ∈ g.getNodes ↔ node ∈ g.nodes ∧ node.ownColors noStrictAlias ≠ ∅ := by
  simp [getNodes, g.propagate_spec.2.own node isSource]

end PointerFlowGraph

end Alaska
