import Alaska.Compiler.PointerFlowGraph
import Alaska.Lib.Collect
import Mathlib.Data.Finset.Lattice.Fold

/-!
# The translation forest

Hoisting grows a tree from every source of the pointer-flow graph that is to be translated.
The children of a root translate it, or share the translation of a sibling that dominates
them, and the translated pointer is derived again for every address computation further
down. Conservative insertion translates the operand of each load and store in place.
-/

namespace Alaska

open Collect PointerFlowGraph

/--
What the forest asks the dominator tree about the instructions of two nodes. An unreachable
use is dominated by everything, and an unreachable definition dominates no reachable use.
-/
structure DominatorTree where
  isReachable : FlowNode → Bool
  dominates : FlowNode → FlowNode → Bool
  unreachable_use : ∀ definition use, isReachable use = false → dominates definition use = true
  unreachable_def : ∀ definition use, isReachable use = true →
    isReachable definition = false → dominates definition use = false
  asymm : ∀ a b, isReachable a = true → isReachable b = true → dominates a b = true →
    dominates b a = false
  trans : ∀ a b c, isReachable a = true → isReachable b = true → isReachable c = true →
    dominates a b = true → dominates b c = true → dominates a c = true

namespace TranslationForest

/-- The pointer that an access is rewritten to use. -/
inductive Translated where
  /-- The root, translated for a child of the root and those that share with it. -/
  | translate (root owner : FlowNode)
  /-- An address computation, applied to a translated pointer. -/
  | derive (base : Translated) (id : Nat)
  deriving DecidableEq

structure Rewrite where
  access : Access
  pointer : Translated
  deriving DecidableEq

variable {noStrictAlias : Bool} {blocks : List (List ScannedInst)}

/-- The last sibling whose instruction dominates the node's. -/
def shareTranslationWith (dt : DominatorTree) (children : List FlowNode) (sibling : FlowNode) :
    Option FlowNode :=
  children.foldl
    (fun share child =>
      if child ≠ sibling ∧ dt.dominates child sibling = true then some child else share)
    none

/-- `compute_shared_translation` with a bound on the depth of its recursion. -/
def computeSharedTranslation (share : FlowNode → Option FlowNode) :
    Nat → FlowNode → Option (Option FlowNode)
  | 0, _ => none
  | fuel + 1, node =>
      match share node with
      | none => some none
      | some other => do
          let s ← computeSharedTranslation share fuel other
          some (some (s.getD other))

/--
`TranslationForest::apply` of a node, with the pointer that comes in and a bound on the depth.
A node that is neither an address computation nor an access ends the program.
-/
def apply (g : PointerFlowGraph noStrictAlias blocks) :
    Nat → Translated → FlowNode → Option (List Rewrite)
  | 0, _, _ => none
  | _ + 1, incoming, .sink access => some [⟨access, incoming⟩]
  | fuel + 1, incoming, .value (.getElementPtr id pointerOperand) =>
      gather (apply g fuel (.derive incoming id))
        (g.getOutNodes (.value (.getElementPtr id pointerOperand)))
  | _ + 1, _, .value _ => none

/-- `shouldTranslate` of the value at a node. -/
def translates : FlowNode → Bool
  | .value v => shouldTranslate v
  | .sink _ => false

/-- The sources that a tree is grown from. -/
def roots (g : PointerFlowGraph noStrictAlias blocks) : List FlowNode :=
  g.getNodes.filter fun node => node.type noStrictAlias == .source && translates node

/-- The tree of a root: each child has its own translation or shares a sibling's. -/
def applyRoot (g : PointerFlowGraph noStrictAlias blocks) (dt : DominatorTree) (fuel : Nat)
    (root : FlowNode) : Option (List Rewrite) :=
  let children := g.getOutNodes root
  gather
    (fun child => do
      let shared ← computeSharedTranslation (shareTranslationWith dt children) fuel child
      apply g fuel (.translate root (shared.getD child)) child)
    children

def insertHoistedTranslations (g : PointerFlowGraph noStrictAlias blocks) (dt : DominatorTree)
    (fuel : Nat) : Option (List Rewrite) :=
  gather (applyRoot g dt fuel) (roots g)

/-- Each access is rewritten to use its own operand, translated. -/
def insertConservativeTranslations (blocks : List (List ScannedInst)) : List Rewrite :=
  (accesses blocks).filterMap fun access =>
    if shouldTranslate access.pointer then
      some ⟨access, .translate (.value access.pointer) (.sink access)⟩
    else none

/-! ## Sharing among siblings -/

variable {dt : DominatorTree} {children front : List FlowNode} {a b child sibling : FlowNode}
  {share : FlowNode → Option FlowNode}

theorem shareTranslationWith_append_singleton :
    shareTranslationWith dt (front ++ [b]) sibling =
      if b ≠ sibling ∧ dt.dominates b sibling = true then some b
      else shareTranslationWith dt front sibling := by
  simp [shareTranslationWith]

theorem shareTranslationWith_spec
    (shares : shareTranslationWith dt children sibling = some child) :
    child ∈ children ∧ child ≠ sibling ∧ dt.dominates child sibling = true := by
  induction children using List.reverseRecOn with
  | nil => cases shares
  | append_singleton front b ih =>
      rw [shareTranslationWith_append_singleton] at shares
      by_cases last : b ≠ sibling ∧ dt.dominates b sibling = true
      · rw [if_pos last] at shares
        obtain rfl := Option.some.inj shares
        exact ⟨List.mem_append_right _ List.mem_cons_self, last⟩
      · rw [if_neg last] at shares
        exact ⟨List.mem_append_left _ (ih shares).1, (ih shares).2⟩

/-- The recursion ends when the nodes that are shared with come down in a rank. -/
theorem computeSharedTranslation_isSome (rank : FlowNode → Nat)
    (decreases : ∀ node ∈ children, ∀ other, share node = some other →
      other ∈ children ∧ rank other < rank node) {fuel : Nat} {node : FlowNode}
    (member : node ∈ children) (enough : rank node < fuel) :
    (computeSharedTranslation share fuel node).isSome := by
  induction fuel generalizing node with
  | zero => omega
  | succ fuel ih =>
      rw [computeSharedTranslation]
      cases shares : share node with
      | none => rfl
      | some other =>
          rcases decreases node member other shares with ⟨inside, lower⟩
          have below := ih inside (by omega)
          rcases Option.isSome_iff_exists.mp below with ⟨shared, computed⟩
          simp [computed]

/-- Two nodes that share with each other are followed forever. -/
theorem computeSharedTranslation_cycle (shares : share a = some b) (back : share b = some a)
    (fuel : Nat) :
    computeSharedTranslation share fuel a = none ∧
      computeSharedTranslation share fuel b = none := by
  induction fuel with
  | zero => exact ⟨rfl, rfl⟩
  | succ fuel ih => simp [computeSharedTranslation, shares, back, ih]

/-- The sharing among siblings ends unless the last two of them are unreachable. -/
def SharingEnds (dt : DominatorTree) (children : List FlowNode) : Prop :=
  ∀ front a b, children = front ++ [a, b] → dt.isReachable a = true ∨ dt.isReachable b = true

/-- The last two siblings share with each other when both are unreachable. -/
theorem share_cycle (nodup : (front ++ [a, b]).Nodup) (deadA : dt.isReachable a = false)
    (deadB : dt.isReachable b = false) :
    shareTranslationWith dt (front ++ [a, b]) a = some b ∧
      shareTranslationWith dt (front ++ [a, b]) b = some a := by
  have ne : a ≠ b := by
    have := (List.nodup_append.mp nodup).2.1
    simpa using this
  have split : front ++ [a, b] = (front ++ [a]) ++ [b] := by simp
  rw [split]
  constructor
  · rw [shareTranslationWith_append_singleton, if_pos ⟨ne.symm, dt.unreachable_use _ _ deadA⟩]
  · rw [shareTranslationWith_append_singleton, if_neg (by simp),
      shareTranslationWith_append_singleton, if_pos ⟨ne, dt.unreachable_use _ _ deadB⟩]

/--
A rank that sharing brings down: a reachable node has fewer dominators than those it
dominates, and an unreachable one shares with the last sibling, or is the last itself and
shares with the one before.
-/
def shareRank (dt : DominatorTree) (children : List FlowNode) (node : FlowNode) : Nat :=
  if dt.isReachable node = true then
    (children.toFinset.filter fun other =>
      dt.isReachable other = true ∧ dt.dominates other node = true).card
  else if children.getLast? = some node then children.length + 1
  else children.length + 2

theorem shareRank_reachable_le (reachable : dt.isReachable a = true) :
    shareRank dt children a ≤ children.length := by
  rw [shareRank, if_pos reachable]
  exact (Finset.card_filter_le _ _).trans children.toFinset_card_le

theorem shareRank_decreases (ends : SharingEnds dt children) (nodup : children.Nodup)
    (shares : shareTranslationWith dt children sibling = some child) :
    shareRank dt children child < shareRank dt children sibling := by
  rcases shareTranslationWith_spec shares with ⟨inside, ne, dominates⟩
  cases reachable : dt.isReachable sibling with
  | true =>
      have definition : dt.isReachable child = true := by
        by_contra dead
        have := dt.unreachable_def child sibling reachable (by simpa using dead)
        exact absurd dominates (by simp [this])
      rw [shareRank, shareRank, if_pos definition, if_pos reachable]
      apply Finset.card_lt_card
      refine Finset.ssubset_iff_of_subset ?_ |>.mpr ⟨child, ?_, ?_⟩
      · intro other
        simp only [Finset.mem_filter]
        exact fun ⟨isChild, live, above⟩ =>
          ⟨isChild, live, dt.trans _ _ _ live definition reachable above dominates⟩
      · simp [inside, definition, dominates]
      · simp only [Finset.mem_filter, not_and, Bool.not_eq_true]
        intro _ _
        by_contra reflexive
        have loops : dt.dominates child child = true := by simpa using reflexive
        exact absurd loops (by simp [dt.asymm child child definition definition loops])
  | false =>
      have large : children.length + 1 ≤ shareRank dt children sibling := by
        rw [shareRank, if_neg (by simp [reachable])]
        split <;> omega
      cases alive : dt.isReachable child with
      | true =>
          have low : shareRank dt children child ≤ children.length := shareRank_reachable_le alive
          omega
      | false =>
          rcases List.eq_nil_or_concat' children with rfl | ⟨front, last, rfl⟩
          · cases inside
          rw [shareTranslationWith_append_singleton] at shares
          by_cases isLast : last = sibling
          · subst last
            rw [if_neg (by simp)] at shares
            rcases List.eq_nil_or_concat' front with rfl | ⟨front, before, rfl⟩
            · cases shares
            have apart : before ≠ sibling := by
              rintro rfl
              simp [List.nodup_append] at nodup
            rw [shareTranslationWith_append_singleton,
              if_pos ⟨apart, dt.unreachable_use _ _ reachable⟩] at shares
            obtain rfl := Option.some.inj shares
            have := ends front before sibling (by simp)
            simp [alive, reachable] at this
          · rw [if_pos ⟨isLast, dt.unreachable_use _ _ reachable⟩] at shares
            obtain rfl := Option.some.inj shares
            simp [shareRank, alive, reachable, isLast]

/-- The recursion ends for every sibling when the sharing ends. -/
theorem SharingEnds.isSome (ends : SharingEnds dt children) (nodup : children.Nodup)
    (member : child ∈ children) {fuel : Nat} (enough : children.length + 2 < fuel) :
    (computeSharedTranslation (shareTranslationWith dt children) fuel child).isSome := by
  apply computeSharedTranslation_isSome (shareRank dt children) ?_ member
  · have : shareRank dt children child ≤ children.length + 2 := by
      cases reachable : dt.isReachable child with
      | true => exact (shareRank_reachable_le reachable).trans (by omega)
      | false =>
          rw [shareRank, if_neg (by simp [reachable])]
          split <;> omega
    omega
  · exact fun node _ other shares =>
      ⟨(shareTranslationWith_spec shares).1, shareRank_decreases ends nodup shares⟩

/-- When the recursion ends for every sibling, the last two are not both unreachable. -/
theorem SharingEnds.of_isSome (nodup : children.Nodup) {fuel : Nat}
    (defined : ∀ child ∈ children,
      (computeSharedTranslation (shareTranslationWith dt children) fuel child).isSome) :
    SharingEnds dt children := by
  rintro front a b rfl
  by_contra unreachable
  simp only [not_or, Bool.not_eq_true] at unreachable
  have cycle := share_cycle nodup unreachable.1 unreachable.2
  have stuck := (computeSharedTranslation_cycle cycle.1 cycle.2 fuel).1
  have found := defined a (by simp)
  rw [stuck] at found
  cases found

/-! ## The accesses below a node -/

variable {g : PointerFlowGraph noStrictAlias blocks} {node root : FlowNode} {access : Access}
  {incoming : Translated} {rewrites : List Rewrite} {fuel bound : Nat} {v : Value}

/-- The node is on the way from an access up to its source. -/
def Below (noStrictAlias : Bool) (node : FlowNode) (access : Access) : Prop :=
  node = .sink access ∨ ∃ v ∈ createdFrom noStrictAlias access.pointer, node = .value v

/-- An access below a value is below one of the nodes that the value has an edge to. -/
theorem below_value (member : access ∈ accesses blocks) :
    Below noStrictAlias (.value v) access ↔
      ∃ child ∈ g.getOutNodes (.value v), Below noStrictAlias child access := by
  simp only [Below, reduceCtorEq, false_or, FlowNode.value.injEq, exists_eq_right',
    PointerFlowGraph.mem_getOutNodes]
  constructor
  · intro followed
    rcases PointerFlowGraph.mem_createdFrom.mp followed with rfl | ⟨strict, id, above⟩
    · refine ⟨.sink access, ⟨PointerFlowGraph.mem_nodes_sink.mpr member, ?_⟩, .inl rfl⟩
      simp [FlowNode.inNodes]
    · refine ⟨.value (.getElementPtr id v), ⟨?_, ?_⟩, .inr ⟨_, above, rfl⟩⟩
      · exact PointerFlowGraph.mem_nodes_value.mpr ⟨access, member, above⟩
      · exact PointerFlowGraph.mem_inNodes_value.mpr ⟨strict, id, v, rfl, rfl⟩
  · rintro ⟨child, ⟨_, edge⟩, rfl | ⟨w, above, rfl⟩⟩
    · obtain rfl : v = access.pointer := by simpa [FlowNode.inNodes] using edge
      exact PointerFlowGraph.mem_createdFrom.mpr (.inl rfl)
    · rcases PointerFlowGraph.mem_inNodes_value.mp edge with ⟨strict, id, v, rfl, same⟩
      obtain rfl := FlowNode.value.inj same
      exact PointerFlowGraph.mem_createdFrom.mpr (.inr ⟨strict, id, above⟩)

/-- Applying a node rewrites the accesses below it. -/
theorem mem_apply (applied : apply g fuel incoming node = some rewrites)
    (member : node ∈ g.nodes) :
    (∃ r ∈ rewrites, r.access = access) ↔
      access ∈ accesses blocks ∧ Below noStrictAlias node access := by
  induction fuel generalizing incoming node rewrites with
  | zero => cases applied
  | succ fuel ih =>
      cases node with
      | sink own =>
          obtain rfl := Option.some.inj applied
          have inCode := PointerFlowGraph.mem_nodes_sink.mp member
          constructor
          · rintro ⟨r, isRewrite, rfl⟩
            obtain rfl := List.mem_singleton.mp isRewrite
            exact ⟨inCode, .inl rfl⟩
          · rintro ⟨_, same | ⟨v, _, same⟩⟩
            · exact ⟨_, List.mem_cons_self, FlowNode.sink.inj same⟩
            · cases same
      | value v =>
          cases v with
          | getElementPtr id pointerOperand =>
              constructor
              · rintro ⟨r, isRewrite, same⟩
                rcases (mem_gather applied).mp isRewrite with ⟨child, edge, found, below, inside⟩
                have out := PointerFlowGraph.mem_getOutNodes.mp edge
                rcases (ih below out.1).mp ⟨r, inside, same⟩ with ⟨inCode, isBelow⟩
                exact ⟨inCode, (below_value inCode).mpr ⟨child, edge, isBelow⟩⟩
              · rintro ⟨inCode, isBelow⟩
                rcases (below_value inCode).mp isBelow with ⟨child, edge, childBelow⟩
                have out := PointerFlowGraph.mem_getOutNodes.mp edge
                have defined := gather_isSome.mp (Option.isSome_of_eq_some applied) child edge
                rcases Option.isSome_iff_exists.mp defined with ⟨found, below⟩
                rcases (ih below out.1).mpr ⟨inCode, childBelow⟩ with ⟨r, inside, same⟩
                exact ⟨r, (mem_gather applied).mpr ⟨child, edge, found, below, inside⟩, same⟩
          | _ => cases applied

/-- The address computations that a value is made of. -/
def depth : Value → Nat
  | .getElementPtr _ pointerOperand => depth pointerOperand + 1
  | _ => 0

theorem depth_le_of_mem {pointer : Value} (member : v ∈ createdFrom noStrictAlias pointer) :
    depth v ≤ depth pointer := by
  induction pointer with
  | getElementPtr id above ih =>
      cases noStrictAlias with
      | true =>
          obtain rfl : v = .getElementPtr id above := by simpa [createdFrom] using member
          exact Nat.le_refl _
      | false =>
          simp only [createdFrom, Bool.false_eq_true, if_false, List.mem_cons] at member
          rcases member with rfl | member
          · exact Nat.le_refl _
          · exact (ih member).trans (Nat.le_succ _)
  | _ =>
      obtain rfl := List.mem_singleton.mp member
      exact Nat.le_refl _

/-- How far down a node is when no value is deeper than a bound. -/
def level (bound : Nat) : FlowNode → Nat
  | .value v => depth v
  | .sink _ => bound + 1

theorem level_le (deep : ∀ access ∈ accesses blocks, depth access.pointer ≤ bound)
    (member : node ∈ g.nodes) : level bound node ≤ bound + 1 := by
  cases node with
  | sink access => exact Nat.le_refl _
  | value v =>
      rcases PointerFlowGraph.mem_nodes_value.mp member with ⟨access, inCode, followed⟩
      have := depth_le_of_mem followed
      have := deep access inCode
      simp only [level]
      omega

/-- A node is further down than one it has an edge from. -/
theorem level_lt {above : FlowNode}
    (deep : ∀ access ∈ accesses blocks, depth access.pointer ≤ bound)
    (member : node ∈ g.nodes) (edge : above ∈ node.inNodes noStrictAlias) :
    level bound above < level bound node := by
  cases node with
  | sink access =>
      obtain rfl : above = .value access.pointer := by simpa [FlowNode.inNodes] using edge
      have := deep access (PointerFlowGraph.mem_nodes_sink.mp member)
      simp only [level]
      omega
  | value v =>
      rcases PointerFlowGraph.mem_inNodes_value.mp edge with ⟨_, id, w, rfl, rfl⟩
      exact Nat.lt_succ_self _

/-- Applying a child of a node returns, given enough depth. -/
theorem apply_isSome {above : FlowNode}
    (deep : ∀ access ∈ accesses blocks, depth access.pointer ≤ bound)
    (isChild : node ∈ g.getOutNodes above) (enough : bound + 2 ≤ fuel + level bound node) :
    (apply g fuel incoming node).isSome := by
  induction fuel generalizing node above incoming with
  | zero =>
      have := level_le deep (PointerFlowGraph.mem_getOutNodes.mp isChild).1
      omega
  | succ fuel ih =>
      have out := PointerFlowGraph.mem_getOutNodes.mp isChild
      cases node with
      | sink access => rfl
      | value v =>
          rcases PointerFlowGraph.mem_inNodes_value.mp out.2 with ⟨_, id, w, rfl, rfl⟩
          apply gather_isSome.mpr
          intro child childEdge
          have below := PointerFlowGraph.mem_getOutNodes.mp childEdge
          have := level_lt deep below.1 below.2
          exact ih childEdge (by omega)

/-! ## The accesses that hoisting rewrites -/

theorem mem_roots :
    root ∈ roots g ↔ ∃ v, root = .value v ∧ root ∈ g.nodes ∧
      root.type noStrictAlias = .source ∧ shouldTranslate v = true := by
  simp only [roots, List.mem_filter, Bool.and_eq_true, beq_iff_eq]
  constructor
  · rintro ⟨colored, isSource, wanted⟩
    cases root with
    | sink access => cases wanted
    | value v => exact ⟨v, rfl, ((PointerFlowGraph.mem_getNodes isSource).mp colored).1,
        isSource, wanted⟩
  · rintro ⟨v, rfl, member, isSource, wanted⟩
    refine ⟨(PointerFlowGraph.mem_getNodes isSource).mpr ⟨member, ?_⟩, isSource, wanted⟩
    cases v with
    | global id isVariable => cases wanted
    | getElementPtr id pointerOperand =>
        cases noStrictAlias with
        | true => simp [FlowNode.ownColors, populateEdges]
        | false => cases isSource
    | cast id kind =>
        cases kind with
        | intToPtr => simp [FlowNode.ownColors, populateEdges]
        | bitCast => cases isSource
        | addrSpaceCast => cases isSource
    | _ => simp [FlowNode.ownColors, populateEdges]

/-- A root rewrites the accesses that come from it. -/
theorem mem_applyRoot (applied : applyRoot g dt fuel root = some rewrites)
    (isRoot : root ∈ roots g) :
    (∃ r ∈ rewrites, r.access = access) ↔
      access ∈ accesses blocks ∧ Below noStrictAlias root access := by
  rcases mem_roots.mp isRoot with ⟨v, rfl, -⟩
  constructor
  · rintro ⟨r, isRewrite, same⟩
    rcases (mem_gather applied).mp isRewrite with ⟨child, edge, found, below, inside⟩
    rcases Option.bind_eq_some_iff.mp below with ⟨shared, _, childApplied⟩
    have out := PointerFlowGraph.mem_getOutNodes.mp edge
    rcases (mem_apply childApplied out.1).mp ⟨r, inside, same⟩ with ⟨inCode, isBelow⟩
    exact ⟨inCode, (below_value inCode).mpr ⟨child, edge, isBelow⟩⟩
  · rintro ⟨inCode, isBelow⟩
    rcases (below_value inCode).mp isBelow with ⟨child, edge, childBelow⟩
    have out := PointerFlowGraph.mem_getOutNodes.mp edge
    have defined := gather_isSome.mp (Option.isSome_of_eq_some applied) child edge
    rcases Option.isSome_iff_exists.mp defined with ⟨found, below⟩
    rcases Option.bind_eq_some_iff.mp below with ⟨shared, _, childApplied⟩
    rcases (mem_apply childApplied out.1).mpr ⟨inCode, childBelow⟩ with ⟨r, inside, same⟩
    exact ⟨r, (mem_gather applied).mpr ⟨child, edge, found, below, inside⟩, same⟩

/-- Hoisting rewrites the accesses whose source is a root. -/
theorem mem_insertHoistedTranslations
    (hoisted : insertHoistedTranslations g dt fuel = some rewrites) :
    (∃ r ∈ rewrites, r.access = access) ↔
      access ∈ accesses blocks ∧ ∃ root ∈ roots g, Below noStrictAlias root access := by
  constructor
  · rintro ⟨r, isRewrite, same⟩
    rcases (mem_gather hoisted).mp isRewrite with ⟨root, isRoot, found, applied, inside⟩
    rcases (mem_applyRoot applied isRoot).mp ⟨r, inside, same⟩ with ⟨inCode, isBelow⟩
    exact ⟨inCode, root, isRoot, isBelow⟩
  · rintro ⟨inCode, root, isRoot, isBelow⟩
    have defined := gather_isSome.mp (Option.isSome_of_eq_some hoisted) root isRoot
    rcases Option.isSome_iff_exists.mp defined with ⟨found, applied⟩
    rcases (mem_applyRoot applied isRoot).mpr ⟨inCode, isBelow⟩ with ⟨r, inside, same⟩
    exact ⟨r, (mem_gather hoisted).mpr ⟨root, isRoot, found, applied, inside⟩, same⟩

theorem mem_insertConservativeTranslations :
    (∃ r ∈ insertConservativeTranslations blocks, r.access = access) ↔
      access ∈ accesses blocks ∧ shouldTranslate access.pointer = true := by
  simp only [insertConservativeTranslations, List.mem_filterMap, Option.ite_none_right_eq_some,
    Option.some.injEq]
  constructor
  · rintro ⟨r, ⟨other, inCode, wanted, rfl⟩, rfl⟩
    exact ⟨inCode, wanted⟩
  · rintro ⟨inCode, wanted⟩
    exact ⟨_, ⟨access, inCode, wanted, rfl⟩, rfl⟩

/-- Hoisting ends, and rewrites the accesses that conservative insertion rewrites. -/
def CoversConservative (g : PointerFlowGraph noStrictAlias blocks) (dt : DominatorTree) : Prop :=
  ∃ fuel rewrites, insertHoistedTranslations g dt fuel = some rewrites ∧
    ∀ access, (∃ r ∈ rewrites, r.access = access) ↔
      ∃ r ∈ insertConservativeTranslations blocks, r.access = access

/--
What hoisting needs: no pointer comes from a cast of another pointer, and the last two nodes
below a translated source are not both in unreachable code.
-/
structure Hoistable (g : PointerFlowGraph noStrictAlias blocks) (dt : DominatorTree) : Prop where
  uncast : ∀ access ∈ accesses blocks, ∀ id kind,
    sourceOf noStrictAlias access.pointer = .cast id kind → kind = .intToPtr
  ends : ∀ access ∈ accesses blocks, shouldTranslate access.pointer = true →
    SharingEnds dt (g.getOutNodes (.value (sourceOf noStrictAlias access.pointer)))

theorem getOutNodes_nodup : (g.getOutNodes node).Nodup :=
  (g.created.nodup_iff.mpr (List.nodup_dedup _)).filter _

/-- The values that are not transient are sources. -/
theorem type_sourceOf {pointer : Value}
    (uncast : ∀ id kind, sourceOf noStrictAlias pointer = .cast id kind → kind = .intToPtr) :
    (FlowNode.value (sourceOf noStrictAlias pointer)).type noStrictAlias = .source := by
  induction pointer with
  | getElementPtr id above ih =>
      cases noStrictAlias with
      | true => rfl
      | false => exact ih uncast
  | cast id kind =>
      obtain rfl := uncast id kind rfl
      rfl
  | _ => rfl

/-- The source of a translated operand is a root. -/
theorem source_mem_roots (inCode : access ∈ accesses blocks)
    (wanted : shouldTranslate access.pointer = true)
    (uncast : ∀ id kind, sourceOf noStrictAlias access.pointer = .cast id kind →
      kind = .intToPtr) :
    .value (sourceOf noStrictAlias access.pointer) ∈ roots g :=
  mem_roots.mpr ⟨_, rfl, mem_nodes_value.mpr ⟨access, inCode, sourceOf_mem_createdFrom⟩,
    type_sourceOf uncast, shouldTranslate_sourceOf.trans wanted⟩

/-- An access is below a root when its operand is translated and its source is no cast of a
pointer. -/
theorem exists_root_iff (inCode : access ∈ accesses blocks) :
    (∃ root ∈ roots g, Below noStrictAlias root access) ↔
      shouldTranslate access.pointer = true ∧
        ∀ id kind, sourceOf noStrictAlias access.pointer = .cast id kind → kind = .intToPtr := by
  constructor
  · rintro ⟨root, isRoot, isBelow⟩
    rcases mem_roots.mp isRoot with ⟨v, rfl, _, isSource, wanted⟩
    rcases isBelow with same | ⟨w, followed, same⟩
    · cases same
    · obtain rfl := FlowNode.value.inj same
      obtain rfl := eq_sourceOf followed isSource
      refine ⟨shouldTranslate_sourceOf.symm.trans wanted, fun id kind isCast => ?_⟩
      rw [isCast] at isSource
      cases kind with
      | intToPtr => rfl
      | bitCast => cases isSource
      | addrSpaceCast => cases isSource
  · rintro ⟨wanted, uncast⟩
    exact ⟨_, source_mem_roots inCode wanted uncast, .inr ⟨_, sourceOf_mem_createdFrom, rfl⟩⟩

/-- A root is the source of a translated operand. -/
theorem exists_access_of_root (isRoot : root ∈ roots g) :
    ∃ access ∈ accesses blocks, shouldTranslate access.pointer = true ∧
      root = .value (sourceOf noStrictAlias access.pointer) := by
  rcases mem_roots.mp isRoot with ⟨v, rfl, member, isSource, wanted⟩
  rcases mem_nodes_value.mp member with ⟨access, inCode, followed⟩
  obtain rfl := eq_sourceOf followed isSource
  exact ⟨access, inCode, shouldTranslate_sourceOf.symm.trans wanted, rfl⟩

/-- Given enough depth, hoisting returns when the sharing below every root ends. -/
theorem insertHoistedTranslations_isSome
    (ends : ∀ root ∈ roots g, SharingEnds dt (g.getOutNodes root)) :
    ∃ fuel, (insertHoistedTranslations g dt fuel).isSome := by
  have deep : ∀ access ∈ accesses blocks, depth access.pointer ≤
      (accesses blocks).toFinset.sup fun access => depth access.pointer := by
    intro access inCode
    exact Finset.le_sup (f := fun access : Access => depth access.pointer)
      (List.mem_toFinset.mpr inCode)
  generalize (accesses blocks).toFinset.sup (fun access => depth access.pointer) = bound at deep
  refine ⟨g.nodes.length + bound + 3, gather_isSome.mpr fun root isRoot => ?_⟩
  apply gather_isSome.mpr
  intro child edge
  have short : (g.getOutNodes root).length ≤ g.nodes.length := List.length_filter_le _ _
  have enough : (g.getOutNodes root).length + 2 < g.nodes.length + bound + 3 := by omega
  have shared := (ends root isRoot).isSome getOutNodes_nodup edge enough
  rcases Option.isSome_iff_exists.mp shared with ⟨sibling, computed⟩
  simp only [computed, Option.bind_eq_bind, Option.bind_some]
  exact apply_isSome deep edge (by omega)

/-- Hoisting covers what conservative insertion covers exactly on the hoistable functions. -/
theorem coversConservative_iff_hoistable :
    CoversConservative g dt ↔ Hoistable g dt := by
  constructor
  · rintro ⟨fuel, rewrites, hoisted, covers⟩
    have below : ∀ access ∈ accesses blocks, shouldTranslate access.pointer = true →
        ∃ root ∈ roots g, Below noStrictAlias root access := fun access inCode wanted =>
      ((mem_insertHoistedTranslations hoisted).mp ((covers access).mpr
        (mem_insertConservativeTranslations.mpr ⟨inCode, wanted⟩))).2
    refine ⟨fun access inCode id kind isCast => ?_, fun access inCode wanted => ?_⟩
    · have wanted : shouldTranslate access.pointer = true := by
        rw [← shouldTranslate_sourceOf, isCast]
        rfl
      exact ((exists_root_iff inCode).mp (below access inCode wanted)).2 id kind isCast
    · have uncast := ((exists_root_iff inCode).mp (below access inCode wanted)).2
      have applied := gather_isSome.mp (Option.isSome_of_eq_some hoisted) _
        (source_mem_roots inCode wanted uncast)
      apply SharingEnds.of_isSome getOutNodes_nodup
      intro child edge
      have defined := gather_isSome.mp applied child edge
      rcases Option.isSome_iff_exists.mp defined with ⟨found, both⟩
      rcases Option.bind_eq_some_iff.mp both with ⟨shared, computed, _⟩
      exact Option.isSome_of_eq_some computed
  · rintro ⟨uncast, ends⟩
    have rootEnds : ∀ root ∈ roots g, SharingEnds dt (g.getOutNodes root) := by
      intro root isRoot
      rcases exists_access_of_root isRoot with ⟨access, inCode, wanted, rfl⟩
      exact ends access inCode wanted
    rcases insertHoistedTranslations_isSome rootEnds with ⟨fuel, returns⟩
    rcases Option.isSome_iff_exists.mp returns with ⟨rewrites, hoisted⟩
    refine ⟨fuel, rewrites, hoisted, fun access => ?_⟩
    rw [mem_insertHoistedTranslations hoisted, mem_insertConservativeTranslations]
    constructor
    · exact fun ⟨inCode, below⟩ => ⟨inCode, ((exists_root_iff inCode).mp below).1⟩
    · exact fun ⟨inCode, wanted⟩ =>
        ⟨inCode, (exists_root_iff inCode).mpr ⟨wanted, uncast access inCode⟩⟩

/-! ## Functions that hoisting does not cover -/

/-- The number of the instruction at a node that has an edge. -/
def instructionNumber : FlowNode → Nat
  | .sink access => access.id
  | .value (.getElementPtr id _) => id
  | .value _ => 0

/-- The dominator tree of a function of one block whose instructions are numbered in order. -/
def oneBlock : DominatorTree where
  isReachable _ := true
  dominates a b := decide (instructionNumber a < instructionNumber b)
  unreachable_use _ _ unreachable := by cases unreachable
  unreachable_def _ _ _ unreachable := by cases unreachable
  asymm a b _ _ less := by
    simp only [decide_eq_true_eq, decide_eq_false_iff_not] at less ⊢
    omega
  trans a b c _ _ _ first second := by
    simp only [decide_eq_true_eq] at first second ⊢
    omega

/-- The dominator tree as it answers about nodes of unreachable blocks only. -/
def allUnreachable : DominatorTree where
  isReachable _ := false
  dominates _ _ := true
  unreachable_use _ _ _ := rfl
  unreachable_def _ _ reachable := by cases reachable
  asymm _ _ reachable := by cases reachable
  trans _ _ _ reachable := by cases reachable

/-- A load through a cast between address spaces. -/
def castLoad : List (List ScannedInst) :=
  [[.other 0, .load 1 (.cast 0 .addrSpaceCast), .other 2]]

/-- A returning block, and an unreachable one that loads from an argument twice. -/
def deadLoads : List (List ScannedInst) :=
  [[.other 0], [.load 1 (.argument 0 "f"), .load 2 (.argument 0 "f"), .other 3]]

def castLoadGraph : PointerFlowGraph false castLoad := ⟨createdNodes false castLoad, .refl _⟩

def deadLoadsGraph : PointerFlowGraph false deadLoads := ⟨createdNodes false deadLoads, .refl _⟩

/-- The load of `castLoad` keeps its handle, and hoisting in `deadLoads` does not return. -/
theorem not_covers_castLoad_deadLoads :
    ¬ CoversConservative castLoadGraph oneBlock ∧
      ¬ CoversConservative deadLoadsGraph allUnreachable := by
  constructor
  · rintro ⟨fuel, rewrites, hoisted, covers⟩
    have rootless : roots castLoadGraph = [] := by decide +kernel
    have rewritten := (covers ⟨1, false, .cast 0 .addrSpaceCast⟩).mpr (by decide)
    rcases (mem_insertHoistedTranslations hoisted).mp rewritten with ⟨_, root, isRoot, _⟩
    rw [rootless] at isRoot
    cases isRoot
  · rintro ⟨fuel, rewrites, hoisted, _⟩
    have isRoot : FlowNode.value (.argument 0 "f") ∈ roots deadLoadsGraph := by decide +kernel
    have edges : deadLoadsGraph.getOutNodes (.value (.argument 0 "f")) =
        [.sink ⟨1, false, .argument 0 "f"⟩, .sink ⟨2, false, .argument 0 "f"⟩] := by
      decide +kernel
    have applied := gather_isSome.mp (Option.isSome_of_eq_some hoisted) _ isRoot
    have ends : SharingEnds allUnreachable
        (deadLoadsGraph.getOutNodes (.value (.argument 0 "f"))) := by
      apply SharingEnds.of_isSome getOutNodes_nodup
      intro child edge
      rcases Option.isSome_iff_exists.mp (gather_isSome.mp applied child edge) with ⟨found, both⟩
      rcases Option.bind_eq_some_iff.mp both with ⟨shared, computed, _⟩
      exact Option.isSome_of_eq_some computed
    rcases ends [] _ _ edges with reachable | reachable <;> cases reachable

end TranslationForest

end Alaska
