import Alaska.Compiler.Graph
import Alaska.Lib.Loop
import Mathlib.Algebra.Group.Nat.Defs
import Mathlib.Data.Finset.Insert

/-!
# Strongly connected components

`tarjan_scc` of `Graph.h`. The search numbers the nodes in the order in which it enters them and
keeps those without a component on a stack. The number is an `uint32_t`, so the components are
right for graphs of up to `2 ^ 32` nodes, and the numbers of a larger graph start over.
-/

namespace Alaska

universe u v

namespace DirectedGraph

variable {NodeType : Type u} {EdgeType : Type v} [DecidableEq NodeType]

/-- The components, under their roots. -/
abbrev Components (NodeType : Type u) := NodeType → Option (Finset NodeType)

/-- The state of the search. The top of the stack comes first. -/
structure SccSearch (NodeType : Type u) where
  components : Components NodeType
  index : Nat
  indices : NodeType → Option Nat
  lowlink : NodeType → Nat
  stack : List NodeType

namespace SccSearch

/-- `indices[node]`, which is zero for a node without a number. -/
def indexAt (s : SccSearch NodeType) (node : NodeType) : Nat :=
  (s.indices node).getD 0

def enter (s : SccSearch NodeType) (n : NodeType) : SccSearch NodeType :=
  { s with
    index := (s.index + 1) % 2 ^ 32
    indices := Function.update s.indices n (some s.index)
    lowlink := Function.update s.lowlink n s.index
    stack := n :: s.stack }

/-- `lowlink[n] = std::min(lowlink[n], bound)`. -/
def lower (s : SccSearch NodeType) (n : NodeType) (bound : Nat) : SccSearch NodeType :=
  { s with lowlink := Function.update s.lowlink n (min (s.lowlink n) bound) }

/-- The loop that takes nodes off the stack; `none` stands for an empty stack. -/
def popComponent (n : NodeType) :
    List NodeType → Finset NodeType → Option (List NodeType × Finset NodeType)
  | [], _ => none
  | popNode :: stack, scc =>
      if popNode = n then some (stack, insert popNode scc)
      else popComponent n stack (insert popNode scc)

/-- A root takes its component off the stack. -/
def generate (s : SccSearch NodeType) (n : NodeType) : Option (SccSearch NodeType) :=
  if s.lowlink n = s.indexAt n then do
    let (stack, scc) ← popComponent n s.stack ((s.components n).getD ∅)
    some { s with
      components := Function.update s.components n (some scc)
      stack := stack }
  else
    some s

/-- The body of the loop over the successors of `n`. -/
def visitSuccessor (search : NodeType → SccSearch NodeType → Option (SccSearch NodeType))
    (n : NodeType) (s : SccSearch NodeType) (toNode : NodeType) : Option (SccSearch NodeType) :=
  if s.indices toNode = none then do
    let s ← search toNode s
    some (s.lower n (s.lowlink toNode))
  else if toNode ∈ s.stack then
    some (s.lower n (s.indexAt toNode))
  else
    some s

end SccSearch

/-- `tarjan_scc_helper`, with a bound on the depth of its recursion. -/
def tarjanSccHelper (g : DirectedGraph NodeType EdgeType) :
    Nat → NodeType → SccSearch NodeType → Option (SccSearch NodeType)
  | 0, _, _ => none
  | depth + 1, n, s => do
      let visit := SccSearch.visitSuccessor (g.tarjanSccHelper depth) n
      let s ← (g.successors n).foldlM visit (s.enter n)
      s.generate n

/-- The body of the loop over the nodes. -/
def visitNode (g : DirectedGraph NodeType EdgeType) (s : SccSearch NodeType) (node : NodeType) :
    Option (SccSearch NodeType) :=
  if s.indices node = none then g.tarjanSccHelper (g.nodes.length + 1) node s else some s

/-- `tarjan_scc`; `none` stands for a search that is too deep or takes from an empty stack. -/
def tarjanScc (g : DirectedGraph NodeType EdgeType) : Option (Components NodeType) := do
  let start : SccSearch NodeType := ⟨fun _ => none, 0, fun _ => none, fun _ => 0, []⟩
  let s ← g.nodes.foldlM g.visitNode start
  some s.components

namespace SccSearch

variable {g : DirectedGraph NodeType EdgeType} {s s' : SccSearch NodeType}
  {gray : List NodeType} {n x y root : NodeType} {scc : Finset NodeType}

/-- The node has been given a number. -/
def Visited (s : SccSearch NodeType) (node : NodeType) : Prop :=
  s.indices node ≠ none

/-- The node has been put into a component. -/
def Popped (s : SccSearch NodeType) (node : NodeType) : Prop :=
  s.Visited node ∧ node ∉ s.stack

def visitedCount (g : DirectedGraph NodeType EdgeType) (s : SccSearch NodeType) : Nat :=
  g.nodes.countP fun node => (s.indices node).isSome

/-- What holds between two steps of the search, while the nodes `gray` are being searched. -/
structure Inv (g : DirectedGraph NodeType EdgeType) (gray : List NodeType)
    (s : SccSearch NodeType) : Prop where
  index : s.index = visitedCount g s % 2 ^ 32
  index_lt : ∀ x, s.Visited x → s.indexAt x < visitedCount g s
  mem_nodes : ∀ x, s.Visited x → x ∈ g.nodes
  visited : ∀ x ∈ s.stack, s.Visited x
  sorted : s.stack.Pairwise fun x y => s.indexAt y < s.indexAt x
  onStack : ∀ x ∈ gray, x ∈ s.stack
  placed : ∀ x, s.Popped x → ∃ root scc, s.components root = some scc ∧ x ∈ scc
  popped : ∀ root scc, s.components root = some scc → ∀ x ∈ scc, s.Popped x
  component : ∀ root scc, s.components root = some scc →
    ∀ x, x ∈ scc ↔ g.Reaches root x ∧ g.Reaches x root
  unique : ∀ root scc root' scc', s.components root = some scc →
    s.components root' = some scc' → ∀ x ∈ scc, x ∈ scc' → root = root'
  closed : ∀ x y, s.Popped x → g.Edge x y → s.Popped y
  black : ∀ x y, s.Visited x → x ∉ gray → g.Edge x y → s.Visited y
  down : ∀ x ∈ s.stack, ∀ y ∈ s.stack, s.indexAt x ≤ s.indexAt y → g.Reaches x y
  up : ∀ x ∈ s.stack, ∃ t ∈ gray, s.indexAt t ≤ s.indexAt x ∧ g.Reaches x t

/-- What a search leaves as it was. -/
structure Keeps (s s' : SccSearch NodeType) : Prop where
  indices : ∀ x, s.Visited x → s'.indices x = s.indices x
  lowlink : ∀ x, s.Visited x → s'.lowlink x = s.lowlink x

/-- No edge from the new part of the stack leads below the low link. -/
def Escapes (g : DirectedGraph NodeType EdgeType) (s s' : SccSearch NodeType)
    (n : NodeType) (new : List NodeType) : Prop :=
  ∀ z ∈ new, ∀ y ∈ s.stack, g.Edge z y → s'.lowlink n ≤ s'.indexAt y

/-- The outcome of the search from a node. -/
structure Finished (g : DirectedGraph NodeType EdgeType) (gray : List NodeType) (n : NodeType)
    (s s' : SccSearch NodeType) : Prop where
  inv : Inv g gray s'
  keeps : Keeps s s'
  visited : s'.Visited n
  outcome : ∃ new, s'.stack = new ++ s.stack ∧ Escapes g s s' n new ∧
    (new = [] ∧ visitedCount g s ≤ s'.lowlink n ∨
      ∃ y ∈ s.stack, s'.indexAt y = s'.lowlink n ∧ g.Reaches n y)

/-- The search of the successors of a node that was entered in the state `s`. -/
structure Scanned (g : DirectedGraph NodeType EdgeType) (gray : List NodeType) (n : NodeType)
    (s : SccSearch NodeType) (finished new : List NodeType) (s' : SccSearch NodeType) : Prop where
  inv : Inv g (n :: gray) s'
  keeps : Keeps s s'
  stack : s'.stack = new ++ n :: s.stack
  number : s'.indexAt n = visitedCount g s
  escapes : Escapes g s s' n new
  low : ∃ y ∈ s'.stack, s'.indexAt y = s'.lowlink n ∧ s'.lowlink n ≤ s'.indexAt n ∧
    g.Reaches n y
  finished : ∀ y ∈ finished, s'.Visited y ∧ (y ∈ s.stack → s'.lowlink n ≤ s'.indexAt y)

/-- The loop takes the nodes at and above `n` off the stack. -/
theorem popComponent_append {new rest : List NodeType} (missing : n ∉ new) :
    ∃ scc', popComponent n (new ++ n :: rest) scc = some (rest, scc') ∧
      ∀ x, x ∈ scc' ↔ x ∈ scc ∨ x = n ∨ x ∈ new := by
  induction new generalizing scc with
  | nil =>
      refine ⟨insert n scc, by simp [popComponent], fun x => ?_⟩
      simp [or_comm]
  | cons popNode new ih =>
      simp only [List.mem_cons, not_or] at missing
      rcases @ih (insert popNode scc) missing.2 with ⟨scc', popped, members⟩
      refine ⟨scc', ?_, fun x => ?_⟩
      · simpa [popComponent, Ne.symm missing.1] using popped
      · rw [members, Finset.mem_insert, List.mem_cons]
        tauto

theorem visited_enter : (s.enter n).Visited x ↔ x = n ∨ s.Visited x := by
  by_cases same : x = n
  · simp [Visited, enter, same]
  · simp [Visited, enter, same]

theorem indexAt_enter_self : (s.enter n).indexAt n = s.index := by
  simp [indexAt, enter]

theorem indexAt_enter_of_ne (other : x ≠ n) : (s.enter n).indexAt x = s.indexAt x := by
  simp [indexAt, enter, other]

theorem visitedCount_enter (fresh : ¬ s.Visited n) (member : n ∈ g.nodes) :
    visitedCount g (s.enter n) = visitedCount g s + 1 := by
  simp only [Visited, not_not] at fresh
  apply countP_update g.nodes_nodup member
  · simp [fresh]
  · simp [enter]
  · intro y other
    simp [enter, other]

/-- There are numbers left for the nodes of a graph of up to `2 ^ 32` nodes. -/
theorem Inv.index_eq (inv : Inv g gray s) (small : g.nodes.length ≤ 2 ^ 32)
    (fresh : ¬ s.Visited n) (member : n ∈ g.nodes) : s.index = visitedCount g s := by
  have counted : visitedCount g (s.enter n) ≤ g.nodes.length := List.countP_le_length
  rw [visitedCount_enter fresh member] at counted
  rw [inv.index]
  exact Nat.mod_eq_of_lt (by omega)

theorem Inv.enter (inv : Inv g gray s) (small : g.nodes.length ≤ 2 ^ 32)
    (fresh : ¬ s.Visited n) (member : n ∈ g.nodes) (reach : ∀ x ∈ s.stack, g.Reaches x n) :
    Inv g (n :: gray) (s.enter n) := by
  have index := inv.index_eq small fresh member
  have ne : ∀ {x}, s.Visited x → x ≠ n := by
    rintro x visited rfl
    exact fresh visited
  have onStack : ∀ {x}, x ∈ s.stack → x ≠ n := fun inStack => ne (inv.visited _ inStack)
  have numbered : (s.enter n).indexAt n = visitedCount g s := indexAt_enter_self.trans index
  have popped : ∀ {x}, (s.enter n).Popped x ↔ s.Popped x := by
    intro x
    simp only [Popped, visited_enter]
    constructor
    · rintro ⟨visited, notOn⟩
      simp only [SccSearch.enter, List.mem_cons, not_or] at notOn
      exact ⟨visited.resolve_left notOn.1, notOn.2⟩
    · rintro ⟨visited, notOn⟩
      refine ⟨Or.inr visited, ?_⟩
      simp only [SccSearch.enter, List.mem_cons, not_or]
      exact ⟨ne visited, notOn⟩
  constructor
  case index =>
    rw [visitedCount_enter fresh member, ← index]
    rfl
  case index_lt =>
    intro x visited
    rw [visitedCount_enter fresh member]
    rcases visited_enter.mp visited with rfl | before
    · omega
    · rw [indexAt_enter_of_ne (ne before)]
      have := inv.index_lt x before
      omega
  case mem_nodes =>
    intro x visited
    rcases visited_enter.mp visited with rfl | before
    · exact member
    · exact inv.mem_nodes x before
  case visited =>
    intro x inStack
    rcases List.mem_cons.mp inStack with rfl | inStack
    · exact visited_enter.mpr (Or.inl rfl)
    · exact visited_enter.mpr (Or.inr (inv.visited x inStack))
  case sorted =>
    apply List.pairwise_cons.mpr
    constructor
    · intro x inStack
      rw [numbered, indexAt_enter_of_ne (onStack inStack)]
      exact inv.index_lt x (inv.visited x inStack)
    · apply List.Pairwise.imp_of_mem _ inv.sorted
      intro x y inX inY less
      rwa [indexAt_enter_of_ne (onStack inX), indexAt_enter_of_ne (onStack inY)]
  case onStack =>
    intro x inGray
    rcases List.mem_cons.mp inGray with rfl | inGray
    · exact List.mem_cons_self
    · exact List.mem_cons_of_mem _ (inv.onStack x inGray)
  case placed => exact fun x isPopped => inv.placed x (popped.mp isPopped)
  case popped =>
    exact fun root scc found x inScc => popped.mpr (inv.popped root scc found x inScc)
  case component => exact inv.component
  case unique => exact inv.unique
  case closed =>
    exact fun x y isPopped edge => popped.mpr (inv.closed x y (popped.mp isPopped) edge)
  case black =>
    intro x y visited notGray edge
    simp only [List.mem_cons, not_or] at notGray
    have before := (visited_enter.mp visited).resolve_left notGray.1
    exact visited_enter.mpr (Or.inr (inv.black x y before notGray.2 edge))
  case down =>
    intro x inX y inY less
    rcases List.mem_cons.mp inX with rfl | oldX
    · rcases List.mem_cons.mp inY with rfl | oldY
      · exact .refl
      · rw [numbered, indexAt_enter_of_ne (onStack oldY)] at less
        have := inv.index_lt y (inv.visited y oldY)
        omega
    · rcases List.mem_cons.mp inY with rfl | oldY
      · exact reach x oldX
      · rw [indexAt_enter_of_ne (onStack oldX), indexAt_enter_of_ne (onStack oldY)] at less
        exact inv.down x oldX y oldY less
  case up =>
    intro x inStack
    rcases List.mem_cons.mp inStack with rfl | inStack
    · exact ⟨x, by simp, le_rfl, .refl⟩
    · rcases inv.up x inStack with ⟨t, inGray, less, path⟩
      refine ⟨t, by simp [inGray], ?_, path⟩
      rwa [indexAt_enter_of_ne (onStack inStack),
        indexAt_enter_of_ne (onStack (inv.onStack t inGray))]

theorem Inv.lower {bound : Nat} (inv : Inv g gray s) : Inv g gray (s.lower n bound) :=
  ⟨inv.index, inv.index_lt, inv.mem_nodes, inv.visited, inv.sorted, inv.onStack, inv.placed,
    inv.popped, inv.component, inv.unique, inv.closed, inv.black, inv.down, inv.up⟩

section Keeps

omit [DecidableEq NodeType]

theorem Keeps.visited (keeps : Keeps s s') (visited : s.Visited x) : s'.Visited x := by
  simpa only [Visited, keeps.indices x visited] using visited

theorem Keeps.indexAt (keeps : Keeps s s') (visited : s.Visited x) :
    s'.indexAt x = s.indexAt x := by
  simp only [SccSearch.indexAt, keeps.indices x visited]

theorem Keeps.trans {s'' : SccSearch NodeType} (first : Keeps s s') (second : Keeps s' s'') :
    Keeps s s'' where
  indices x visited := by
    rw [second.indices x (first.visited visited), first.indices x visited]
  lowlink x visited := by
    rw [second.lowlink x (first.visited visited), first.lowlink x visited]

end Keeps

/-- The low link of a node that is not yet numbered may be lowered. -/
theorem Keeps.lower {bound : Nat} (keeps : Keeps s s') (fresh : ¬ s.Visited n) :
    Keeps s (s'.lower n bound) where
  indices := keeps.indices
  lowlink x visited := by
    have other : x ≠ n := by
      rintro rfl
      exact fresh visited
    simpa [SccSearch.lower, other] using keeps.lowlink x visited

theorem lowlink_lower_self {bound : Nat} :
    (s.lower n bound).lowlink n = min (s.lowlink n) bound := by
  simp [lower]

namespace Scanned

variable {finished new : List NodeType} {s₁ : SccSearch NodeType}

section Stack

omit [DecidableEq NodeType]

theorem sorted_tail (scanned : Scanned g gray n s finished new s₁) :
    (n :: s.stack).Pairwise fun x y => s₁.indexAt y < s₁.indexAt x := by
  have sorted := scanned.inv.sorted
  rw [scanned.stack] at sorted
  exact (List.pairwise_append.mp sorted).2.1

theorem older (scanned : Scanned g gray n s finished new s₁) (inStack : x ∈ s.stack) :
    s₁.indexAt x < s₁.indexAt n :=
  (List.pairwise_cons.mp scanned.sorted_tail).1 x inStack

theorem newer (scanned : Scanned g gray n s finished new s₁) (inNew : x ∈ new) :
    s₁.indexAt n < s₁.indexAt x := by
  have sorted := scanned.inv.sorted
  rw [scanned.stack] at sorted
  exact (List.pairwise_append.mp sorted).2.2 x inNew n (by simp)

theorem mem_stack (scanned : Scanned g gray n s finished new s₁) (inStack : x ∈ s.stack) :
    x ∈ s₁.stack := by
  rw [scanned.stack]
  simp [inStack]

theorem self_mem (scanned : Scanned g gray n s finished new s₁) : n ∈ s₁.stack := by
  rw [scanned.stack]
  simp

/-- The node being searched can be reached from the whole stack. -/
theorem toward (scanned : Scanned g gray n s finished new s₁) (inv : Inv g gray s)
    (inStack : x ∈ s₁.stack) : g.Reaches x n := by
  rcases scanned.inv.up x inStack with ⟨t, inGray, _, path⟩
  apply path.trans
  rcases List.mem_cons.mp inGray with rfl | inGray
  · exact .refl
  · have inStack := inv.onStack t inGray
    apply scanned.inv.down t (scanned.mem_stack inStack) n scanned.self_mem
    exact (scanned.older inStack).le

/-- A successor in a component changes nothing. -/
theorem skip (scanned : Scanned g gray n s finished new s₁) (popped : s₁.Popped x) :
    Scanned g gray n s (finished ++ [x]) new s₁ :=
  { scanned with
    finished := by
      intro y member
      rcases List.mem_append.mp member with member | last
      · exact scanned.finished y member
      · simp only [List.mem_singleton] at last
        subst last
        exact ⟨popped.1, fun inOld => (popped.2 (scanned.mem_stack inOld)).elim⟩ }

end Stack

/-- The search right after the node has been entered. -/
theorem start (inv : Inv g gray s) (small : g.nodes.length ≤ 2 ^ 32) (fresh : ¬ s.Visited n)
    (member : n ∈ g.nodes) (reach : ∀ x ∈ s.stack, g.Reaches x n) :
    Scanned g gray n s [] [] (s.enter n) where
  inv := inv.enter small fresh member reach
  keeps := by
    constructor
    all_goals
      intro x visited
      have other : x ≠ n := by
        rintro rfl
        exact fresh visited
      simp [enter, other]
  stack := rfl
  number := indexAt_enter_self.trans (inv.index_eq small fresh member)
  escapes := by simp [Escapes]
  low := by
    refine ⟨n, List.mem_cons_self, ?_, ?_, .refl⟩
    · simp [indexAt, enter]
    · simp [indexAt, enter]
  finished := by simp

/-- A successor on the stack lowers the low link. -/
theorem lower_onStack (scanned : Scanned g gray n s finished new s₁) (fresh : ¬ s.Visited n)
    (edge : g.Edge n x) (inStack : x ∈ s₁.stack) :
    Scanned g gray n s (finished ++ [x]) new (s₁.lower n (s₁.indexAt x)) where
  inv := scanned.inv.lower
  keeps := scanned.keeps.lower fresh
  stack := scanned.stack
  number := scanned.number
  escapes z inNew y inOld edge := by
    rw [lowlink_lower_self]
    exact (min_le_left _ _).trans (scanned.escapes z inNew y inOld edge)
  low := by
    rcases scanned.low with ⟨y, inY, same, less, path⟩
    rw [lowlink_lower_self]
    rcases le_total (s₁.lowlink n) (s₁.indexAt x) with le | le
    · rw [min_eq_left le]
      exact ⟨y, inY, same, less, path⟩
    · rw [min_eq_right le]
      exact ⟨x, inStack, rfl, le.trans less, .single edge⟩
  finished y member := by
    rw [lowlink_lower_self]
    rcases List.mem_append.mp member with member | last
    · rcases scanned.finished y member with ⟨visited, bound⟩
      exact ⟨visited, fun inOld => (min_le_left _ _).trans (bound inOld)⟩
    · simp only [List.mem_singleton] at last
      subst last
      exact ⟨scanned.inv.visited y inStack, fun _ => min_le_right _ _⟩

/-- A successor that was searched hands its low link on. -/
theorem lower_searched {s₂ : SccSearch NodeType} (scanned : Scanned g gray n s finished new s₁)
    (fresh : ¬ s.Visited n) (edge : g.Edge n x) (unvisited : ¬ s₁.Visited x)
    (searched : Finished g (n :: gray) x s₁ s₂) :
    ∃ new', Scanned g gray n s (finished ++ [x]) new' (s₂.lower n (s₂.lowlink x)) := by
  have visited : s₁.Visited n := scanned.inv.visited n scanned.self_mem
  have lowlink : s₂.lowlink n = s₁.lowlink n := searched.keeps.lowlink n visited
  have index : ∀ {y}, y ∈ s₁.stack → s₂.indexAt y = s₁.indexAt y := fun inStack =>
    searched.keeps.indexAt (scanned.inv.visited _ inStack)
  rcases searched.outcome with ⟨more, stack, escapes, outcome⟩
  refine ⟨more ++ new, ?_⟩
  constructor
  case inv => exact searched.inv.lower
  case keeps => exact (scanned.keeps.trans searched.keeps).lower fresh
  case stack =>
    simp only [SccSearch.lower, stack, scanned.stack, List.append_assoc]
  case number => exact (index scanned.self_mem).trans scanned.number
  case escapes =>
    intro z inNew y inOld step
    rw [lowlink_lower_self]
    change _ ≤ s₂.indexAt y
    rcases List.mem_append.mp inNew with inMore | inNew
    · exact (min_le_right _ _).trans (escapes z inMore y (scanned.mem_stack inOld) step)
    · rw [lowlink, index (scanned.mem_stack inOld)]
      exact (min_le_left _ _).trans (scanned.escapes z inNew y inOld step)
  case low =>
    rcases scanned.low with ⟨y, inY, same, less, path⟩
    have keepsLow : min (s₂.lowlink n) (s₂.lowlink x) = s₂.lowlink n →
        ∃ y ∈ (s₂.lower n (s₂.lowlink x)).stack, (s₂.lower n (s₂.lowlink x)).indexAt y =
          (s₂.lower n (s₂.lowlink x)).lowlink n ∧
        (s₂.lower n (s₂.lowlink x)).lowlink n ≤ (s₂.lower n (s₂.lowlink x)).indexAt n ∧
        g.Reaches n y := by
      intro least
      rw [lowlink_lower_self, least, lowlink]
      refine ⟨y, ?_, (index inY).trans same, less.trans (index scanned.self_mem).ge, path⟩
      simp [SccSearch.lower, stack, inY]
    rcases outcome with ⟨_, high⟩ | ⟨z, inZ, sameZ, pathZ⟩
    · apply keepsLow
      apply min_eq_left
      have := scanned.inv.index_lt n visited
      omega
    · rcases le_total (s₂.lowlink n) (s₂.lowlink x) with le | le
      · exact keepsLow (min_eq_left le)
      · rw [lowlink_lower_self, min_eq_right le]
        refine ⟨z, ?_, sameZ, ?_, .head edge pathZ⟩
        · simp [SccSearch.lower, stack, inZ]
        · change _ ≤ s₂.indexAt n
          rw [index scanned.self_mem]
          omega
  case finished =>
    intro y member
    rw [lowlink_lower_self]
    change s₂.Visited y ∧ (y ∈ s.stack → _ ≤ s₂.indexAt y)
    rcases List.mem_append.mp member with member | last
    · rcases scanned.finished y member with ⟨wasVisited, bound⟩
      refine ⟨searched.keeps.visited wasVisited, fun inOld => ?_⟩
      rw [lowlink, index (scanned.mem_stack inOld)]
      exact (min_le_left _ _).trans (bound inOld)
    · simp only [List.mem_singleton] at last
      subst last
      refine ⟨searched.visited, fun inOld => ?_⟩
      exact (unvisited (scanned.inv.visited y (scanned.mem_stack inOld))).elim

section Finish

variable (scanned : Scanned g gray n s finished new s₁) (inv : Inv g gray s)
  (full : ∀ y, g.Edge n y → y ∈ finished)

omit [DecidableEq NodeType]

include scanned

theorem up_old (inStack : x ∈ s₁.stack) (below : s₁.indexAt x < s₁.indexAt n) :
    ∃ t ∈ gray, s₁.indexAt t ≤ s₁.indexAt x ∧ g.Reaches x t := by
  rcases scanned.inv.up x inStack with ⟨t, inGray, less, path⟩
  rcases List.mem_cons.mp inGray with rfl | inGray
  · omega
  · exact ⟨t, inGray, less, path⟩

include full in
theorem black_full (visited : s₁.Visited x) (notGray : x ∉ gray) (edge : g.Edge x y) :
    s₁.Visited y := by
  by_cases same : x = n
  · subst same
    exact (scanned.finished y (full y edge)).1
  · exact scanned.inv.black x y visited (by simp [same, notGray]) edge

include inv

/-- A part of the stack above the node is no longer being searched. -/
theorem notMem_gray (inNew : x ∈ new) : x ∉ n :: gray := by
  have above := scanned.newer inNew
  intro inGray
  rcases List.mem_cons.mp inGray with rfl | inGray
  · omega
  · have below := scanned.older (inv.onStack x inGray)
    omega

include full

/-- A node whose low link is another one's number stays on the stack. -/
theorem stays (lower : s₁.lowlink n ≠ s₁.indexAt n) : Finished g gray n s s₁ := by
  rcases scanned.low with ⟨y, inY, same, less, path⟩
  have below : s₁.indexAt y < s₁.indexAt n := by omega
  have inOld : y ∈ s.stack := by
    rw [scanned.stack] at inY
    rcases List.mem_append.mp inY with inNew | inRest
    · have := scanned.newer inNew
      omega
    · rcases List.mem_cons.mp inRest with rfl | inOld
      · omega
      · exact inOld
  constructor
  case keeps => exact scanned.keeps
  case visited => exact scanned.inv.visited n scanned.self_mem
  case inv =>
    exact { scanned.inv with
      onStack := fun x inGray => scanned.mem_stack (inv.onStack x inGray)
      black := fun x y => scanned.black_full full
      up := by
        intro x inStack
        rcases scanned.inv.up x inStack with ⟨t, inGray, lessT, pathT⟩
        rcases List.mem_cons.mp inGray with rfl | inGray
        · rcases scanned.up_old inY below with ⟨t', inGray, less', path'⟩
          exact ⟨t', inGray, by omega, pathT.trans (path.trans path')⟩
        · exact ⟨t, inGray, lessT, pathT⟩ }
  case outcome =>
    refine ⟨new ++ [n], by simp [scanned.stack], ?_, Or.inr ⟨y, inOld, same, path⟩⟩
    intro z inNew y inOld edge
    rcases List.mem_append.mp inNew with inNew | last
    · exact scanned.escapes z inNew y inOld edge
    · simp only [List.mem_singleton] at last
      subst last
      exact (scanned.finished y (full y edge)).2 inOld

/-- The nodes at and above a root, and those in components, lead to no others. -/
theorem closed_root (root : s₁.lowlink n = s₁.indexAt n)
    (within : (x = n ∨ x ∈ new) ∨ s₁.Popped x) (edge : g.Edge x y) :
    (y = n ∨ y ∈ new) ∨ s₁.Popped y := by
  rcases within with inside | popped
  · have visited : s₁.Visited y := by
      rcases inside with rfl | inNew
      · exact (scanned.finished y (full y edge)).1
      · apply scanned.inv.black x y _ (scanned.notMem_gray inv inNew) edge
        apply scanned.inv.visited
        rw [scanned.stack]
        simp [inNew]
    by_cases inStack : y ∈ s₁.stack
    · left
      rw [scanned.stack] at inStack
      rcases List.mem_append.mp inStack with inNew | inRest
      · exact Or.inr inNew
      · rcases List.mem_cons.mp inRest with same | inOld
        · exact Or.inl same
        · have below := scanned.older inOld
          have above : s₁.lowlink n ≤ s₁.indexAt y := by
            rcases inside with rfl | inNew
            · exact (scanned.finished y (full y edge)).2 inOld
            · exact scanned.escapes x inNew y inOld edge
          omega
    · exact Or.inr ⟨visited, inStack⟩
  · exact Or.inr (scanned.inv.closed x y popped edge)

/-- The nodes at and above a root are those that it reaches and that reach it. -/
theorem component_root (root : s₁.lowlink n = s₁.indexAt n) :
    x = n ∨ x ∈ new ↔ g.Reaches n x ∧ g.Reaches x n := by
  constructor
  · intro inside
    have inStack : x ∈ s₁.stack := by
      rw [scanned.stack]
      rcases inside with rfl | inNew
      · simp
      · simp [inNew]
    refine ⟨?_, scanned.toward inv inStack⟩
    apply scanned.inv.down n scanned.self_mem x inStack
    rcases inside with rfl | inNew
    · exact le_rfl
    · exact (scanned.newer inNew).le
  · rintro ⟨there, back⟩
    have within : (x = n ∨ x ∈ new) ∨ s₁.Popped x := by
      induction there with
      | refl => exact Or.inl (Or.inl rfl)
      | tail _ edge ih => exact scanned.closed_root inv full root (ih (.head edge back)) edge
    rcases within with inside | popped
    · exact inside
    · have selfPopped : s₁.Popped n := by
        clear there
        induction back using Relation.ReflTransGen.head_induction_on with
        | refl => exact popped
        | head edge _ ih => exact ih (scanned.inv.closed _ _ popped edge)
      exact (selfPopped.2 scanned.self_mem).elim

/-- A root takes the nodes at and above it off the stack. -/
theorem takes [DecidableEq NodeType] {scc : Finset NodeType} (root : s₁.lowlink n = s₁.indexAt n)
    (members : ∀ x, x ∈ scc ↔ x = n ∨ x ∈ new) :
    Finished g gray n s
      { s₁ with components := Function.update s₁.components n (some scc), stack := s.stack } := by
  let s₂ : SccSearch NodeType :=
    { s₁ with components := Function.update s₁.components n (some scc), stack := s.stack }
  have inside : ∀ {x}, x = n ∨ x ∈ new → x ∈ s₁.stack ∧ x ∉ s.stack := by
    rintro x (rfl | inNew)
    · exact ⟨scanned.self_mem, fun inOld => (scanned.older inOld).ne rfl⟩
    · refine ⟨by simp [scanned.stack, inNew], fun inOld => ?_⟩
      have := scanned.newer inNew
      have := scanned.older inOld
      omega
  have popped : ∀ {x}, s₂.Popped x ↔ (x = n ∨ x ∈ new) ∨ s₁.Popped x := by
    intro x
    constructor
    · rintro ⟨visited, notOn⟩
      by_cases inStack : x ∈ s₁.stack
      · rw [scanned.stack] at inStack
        rcases List.mem_append.mp inStack with inNew | inRest
        · exact Or.inl (Or.inr inNew)
        · exact Or.inl (Or.inl ((List.mem_cons.mp inRest).resolve_right notOn))
      · exact Or.inr ⟨visited, inStack⟩
    · rintro (within | isPopped)
      · exact ⟨scanned.inv.visited x (inside within).1, (inside within).2⟩
      · exact ⟨isPopped.1, fun inOld => isPopped.2 (scanned.mem_stack inOld)⟩
  have other : ∀ {root' scc'}, s₁.components root' = some scc' → root' ≠ n := by
    rintro root' scc' found rfl
    have inScc := (scanned.inv.component root' scc' found root').mpr ⟨.refl, .refl⟩
    exact (scanned.inv.popped root' scc' found root' inScc).2 scanned.self_mem
  have apart : ∀ {root' scc'}, s₁.components root' = some scc' → ∀ x ∈ scc', x ∉ scc := by
    intro root' scc' found x inScc' inScc
    apply (scanned.inv.popped root' scc' found x inScc').2
    exact (inside ((members x).mp inScc)).1
  have cases_components : ∀ {root' scc'}, s₂.components root' = some scc' →
      root' = n ∧ scc' = scc ∨ s₁.components root' = some scc' := by
    intro root' scc' found
    by_cases same : root' = n
    · subst same
      simp only [s₂, Function.update_self, Option.some.injEq] at found
      exact Or.inl ⟨rfl, found.symm⟩
    · simp only [s₂, Function.update_of_ne same] at found
      exact Or.inr found
  constructor
  case keeps => exact ⟨scanned.keeps.indices, scanned.keeps.lowlink⟩
  case visited => exact scanned.inv.visited n scanned.self_mem
  case outcome =>
    refine ⟨[], rfl, by simp [Escapes], Or.inl ⟨rfl, ?_⟩⟩
    exact (scanned.number.symm.trans root.symm).le
  case inv =>
    constructor
    case index => exact scanned.inv.index
    case index_lt => exact scanned.inv.index_lt
    case mem_nodes => exact scanned.inv.mem_nodes
    case visited => exact fun x inOld => scanned.inv.visited x (scanned.mem_stack inOld)
    case sorted => exact (List.pairwise_cons.mp scanned.sorted_tail).2
    case onStack => exact inv.onStack
    case placed =>
      intro x isPopped
      rcases popped.mp isPopped with within | before
      · exact ⟨n, scc, by simp, (members x).mpr within⟩
      · rcases scanned.inv.placed x before with ⟨root', scc', found, inScc⟩
        exact ⟨root', scc', by simpa [other found] using found, inScc⟩
    case popped =>
      intro root' scc' found x inScc
      rcases cases_components found with ⟨rfl, rfl⟩ | before
      · exact popped.mpr (Or.inl ((members x).mp inScc))
      · exact popped.mpr (Or.inr (scanned.inv.popped root' scc' before x inScc))
    case component =>
      intro root' scc' found x
      rcases cases_components found with ⟨rfl, rfl⟩ | before
      · exact (members x).trans (scanned.component_root inv full root)
      · exact scanned.inv.component root' scc' before x
    case unique =>
      intro root₁ scc₁ root₂ scc₂ found₁ found₂ x inScc₁ inScc₂
      rcases cases_components found₁ with ⟨rfl, rfl⟩ | before₁
      · rcases cases_components found₂ with ⟨rfl, rfl⟩ | before₂
        · rfl
        · exact (apart before₂ x inScc₂ inScc₁).elim
      · rcases cases_components found₂ with ⟨rfl, rfl⟩ | before₂
        · exact (apart before₁ x inScc₁ inScc₂).elim
        · exact scanned.inv.unique root₁ scc₁ root₂ scc₂ before₁ before₂ x inScc₁ inScc₂
    case closed =>
      intro x y isPopped edge
      exact popped.mpr (scanned.closed_root inv full root (popped.mp isPopped) edge)
    case black => exact fun x y => scanned.black_full full
    case down =>
      intro x inX y inY
      exact scanned.inv.down x (scanned.mem_stack inX) y (scanned.mem_stack inY)
    case up =>
      intro x inOld
      exact scanned.up_old (scanned.mem_stack inOld) (scanned.older inOld)

end Finish

/-- The last step of the search from a node. -/
theorem generate (scanned : Scanned g gray n s finished new s₁) (inv : Inv g gray s)
    (full : ∀ y, g.Edge n y → y ∈ finished) :
    ∃ s₂, s₁.generate n = some s₂ ∧ Finished g gray n s s₂ := by
  unfold SccSearch.generate
  by_cases root : s₁.lowlink n = s₁.indexAt n
  · rw [if_pos root]
    have missing : n ∉ new := fun inNew => (scanned.newer inNew).ne rfl
    have fresh : s₁.components n = none := by
      cases found : s₁.components n with
      | none => rfl
      | some scc =>
          have inScc := (scanned.inv.component n scc found n).mpr ⟨.refl, .refl⟩
          exact ((scanned.inv.popped n scc found n inScc).2 scanned.self_mem).elim
    rcases @popComponent_append _ _ n ∅ new s.stack missing with ⟨scc, popped, members⟩
    rw [scanned.stack, fresh, Option.getD_none, popped]
    exact ⟨_, rfl, scanned.takes inv full root (by simpa using members)⟩
  · rw [if_neg root]
    exact ⟨s₁, rfl, scanned.stays inv full root⟩

end Scanned

/-- One call of the search, which is deep enough while there are nodes without a number. -/
theorem finished_helper {depth : Nat} (inv : Inv g gray s) (small : g.nodes.length ≤ 2 ^ 32)
    (fresh : ¬ s.Visited n) (member : n ∈ g.nodes) (reach : ∀ x ∈ s.stack, g.Reaches x n)
    (enough : g.nodes.length < visitedCount g s + depth) :
    ∃ s', g.tarjanSccHelper depth n s = some s' ∧ Finished g gray n s s' := by
  induction depth generalizing gray n s with
  | zero =>
      have : visitedCount g s ≤ g.nodes.length := List.countP_le_length
      omega
  | succ depth ih =>
      let visit := visitSuccessor (g.tarjanSccHelper depth) n
      have scan : ∃ s₁, (g.successors n).foldlM visit (s.enter n) = some s₁ ∧
          ∃ new, Scanned g gray n s (g.successors n) new s₁ := by
        refine @Loop.foldlM_ends _ _ visit
          (fun finished s₁ => ∃ new, Scanned g gray n s finished new s₁) (g.successors n)
          (s.enter n) ?_ ⟨[], Scanned.start inv small fresh member reach⟩
        rintro finished x rest s₁ split ⟨new, scanned⟩
        have edge : g.Edge n x := by simp [Edge, split]
        simp only [visit, visitSuccessor]
        by_cases unvisited : s₁.indices x = none
        · rw [if_pos unvisited]
          have counted := scanned.inv.index_lt n (scanned.inv.visited n scanned.self_mem)
          rw [scanned.number] at counted
          have searched : ∃ s₂, g.tarjanSccHelper depth x s₁ = some s₂ ∧
              Finished g (n :: gray) x s₁ s₂ := by
            apply ih scanned.inv (by simpa [Visited] using unvisited) (Edge.mem_nodes edge).2
            · exact fun y inStack => (scanned.toward inv inStack).tail edge
            · omega
          rcases searched with ⟨s₂, ran, result⟩
          rw [ran]
          refine ⟨_, rfl, ?_⟩
          exact scanned.lower_searched fresh edge (by simpa [Visited] using unvisited) result
        · rw [if_neg unvisited]
          by_cases inStack : x ∈ s₁.stack
          · rw [if_pos inStack]
            exact ⟨_, rfl, new, scanned.lower_onStack fresh edge inStack⟩
          · rw [if_neg inStack]
            exact ⟨_, rfl, new, scanned.skip ⟨unvisited, inStack⟩⟩
      rcases scan with ⟨s₁, ran, new, scanned⟩
      rcases scanned.generate inv (fun y edge => edge) with ⟨s₂, taken, result⟩
      refine ⟨s₂, ?_, result⟩
      have unfolded : g.tarjanSccHelper (depth + 1) n s =
          ((g.successors n).foldlM visit (s.enter n)).bind fun s => s.generate n := rfl
      rw [unfolded, ran, Option.bind_some, taken]

end SccSearch

/-- The components are the strongly connected ones, each under one of its members. -/
structure SccPartition (g : DirectedGraph NodeType EdgeType) (components : Components NodeType) :
    Prop where
  mem_nodes : ∀ root scc, components root = some scc → ∀ x ∈ scc, x ∈ g.nodes
  placed : ∀ x ∈ g.nodes, ∃ root scc, components root = some scc ∧ x ∈ scc
  component : ∀ root scc, components root = some scc →
    ∀ x, x ∈ scc ↔ g.Reaches root x ∧ g.Reaches x root
  unique : ∀ root scc root' scc', components root = some scc →
    components root' = some scc' → ∀ x ∈ scc, x ∈ scc' → root = root'

omit [DecidableEq NodeType] in
theorem SccPartition.root_mem {g : DirectedGraph NodeType EdgeType}
    {components : Components NodeType} {root : NodeType} {scc : Finset NodeType}
    (partition : SccPartition g components) (found : components root = some scc) : root ∈ scc :=
  (partition.component root scc found root).mpr ⟨.refl, .refl⟩

open SccSearch in
/-- The search of the whole graph. -/
theorem tarjanScc_partition (g : DirectedGraph NodeType EdgeType)
    (small : g.nodes.length ≤ 2 ^ 32) :
    ∃ components, g.tarjanScc = some components ∧ SccPartition g components := by
  let start : SccSearch NodeType := ⟨fun _ => none, 0, fun _ => none, fun _ => 0, []⟩
  have invStart : Inv g [] start := by
    have unvisited : ∀ x, ¬ start.Visited x := fun x => by simp [Visited, start]
    constructor
    all_goals simp [start, Popped, visitedCount, unvisited]
  have search : ∃ s, g.nodes.foldlM g.visitNode start = some s ∧
      Inv g [] s ∧ ∀ x ∈ g.nodes, s.Visited x := by
    refine @Loop.foldlM_ends _ _ g.visitNode
      (fun finished s => Inv g [] s ∧ ∀ x ∈ finished, s.Visited x) g.nodes start
      ?_ ⟨invStart, by simp⟩
    rintro finished node rest s split ⟨inv, visited⟩
    have member : node ∈ g.nodes := by simp [split]
    unfold visitNode
    by_cases fresh : s.indices node = none
    · rw [if_pos fresh]
      have emptyStack : ∀ x ∈ s.stack, g.Reaches x node := by
        intro x inStack
        rcases inv.up x inStack with ⟨t, inGray, _⟩
        simp at inGray
      rcases @finished_helper _ _ _ g s [] node (g.nodes.length + 1) inv small
        (by simpa [Visited] using fresh) member emptyStack (by omega) with ⟨s', ran, result⟩
      refine ⟨s', ran, result.inv, ?_⟩
      intro x inFinished
      rcases List.mem_append.mp inFinished with before | last
      · exact result.keeps.visited (visited x before)
      · simp only [List.mem_singleton] at last
        subst last
        exact result.visited
    · rw [if_neg fresh]
      refine ⟨s, rfl, inv, ?_⟩
      intro x inFinished
      rcases List.mem_append.mp inFinished with before | last
      · exact visited x before
      · simp only [List.mem_singleton] at last
        subst last
        exact fresh
  rcases search with ⟨s, ran, inv, visited⟩
  refine ⟨s.components, ?_, ?_⟩
  · have unfolded : g.tarjanScc =
        (g.nodes.foldlM g.visitNode start).bind fun s => some s.components := rfl
    rw [unfolded, ran, Option.bind_some]
  · constructor
    case component => exact inv.component
    case unique => exact inv.unique
    case mem_nodes =>
      intro root scc found x inScc
      exact inv.mem_nodes x (inv.popped root scc found x inScc).1
    case placed =>
      intro x member
      apply inv.placed x ⟨visited x member, ?_⟩
      intro inStack
      rcases inv.up x inStack with ⟨t, inGray, _⟩
      simp at inGray

/-- The search comes to an end, and sorts the nodes into their strongly connected components. -/
theorem tarjanScc_correct (g : DirectedGraph NodeType EdgeType)
    (small : g.nodes.length ≤ 2 ^ 32) :
    ∃ components, g.tarjanScc = some components ∧
      (∀ root scc, components root = some scc → root ∈ scc ∧ ∀ x ∈ scc, x ∈ g.nodes) ∧
      (∀ x ∈ g.nodes, ∃! root, ∃ scc, components root = some scc ∧ x ∈ scc) ∧
      ∀ x ∈ g.nodes, ∀ y ∈ g.nodes,
        (∃ root scc, components root = some scc ∧ x ∈ scc ∧ y ∈ scc) ↔
          g.Reaches x y ∧ g.Reaches y x := by
  rcases g.tarjanScc_partition small with ⟨components, found, partition⟩
  refine ⟨components, found, ?_, ?_, ?_⟩
  · intro root scc isComponent
    exact ⟨partition.root_mem isComponent, partition.mem_nodes root scc isComponent⟩
  · intro x member
    rcases partition.placed x member with ⟨root, scc, isComponent, inScc⟩
    refine ⟨root, ⟨scc, isComponent, inScc⟩, ?_⟩
    rintro root' ⟨scc', isComponent', inScc'⟩
    exact partition.unique root' scc' root scc isComponent' isComponent x inScc' inScc
  · intro x inX y inY
    constructor
    · rintro ⟨root, scc, isComponent, xIn, yIn⟩
      have pathsX := (partition.component root scc isComponent x).mp xIn
      have pathsY := (partition.component root scc isComponent y).mp yIn
      exact ⟨pathsX.2.trans pathsY.1, pathsY.2.trans pathsX.1⟩
    · rintro ⟨there, back⟩
      rcases partition.placed x inX with ⟨root, scc, isComponent, xIn⟩
      have pathsX := (partition.component root scc isComponent x).mp xIn
      refine ⟨root, scc, isComponent, xIn, ?_⟩
      exact (partition.component root scc isComponent y).mpr
        ⟨pathsX.1.trans there, back.trans pathsX.2⟩

inductive OffRoot where
  | top
  | inner
  | outside
deriving DecidableEq

/-- Two nodes that lead to each other, and a third one that only the second leads to. -/
def offRoot : DirectedGraph OffRoot Unit where
  nodes := [.top, .inner, .outside]
  outgoing
    | .top => [(.inner, ())]
    | .inner => [(.top, ()), (.outside, ())]
    | .outside => []
  incoming
    | .top => [(.inner, ())]
    | .inner => [(.top, ())]
    | .outside => [(.inner, ())]
  nodes_nodup := by decide
  mem_nodes {a b _} _ := by cases a <;> cases b <;> decide
  mem_incoming {a b _} := by cases a <;> cases b <;> simp
  outgoing_nodup a := by cases a <;> decide
  incoming_nodup b := by cases b <;> decide

theorem tarjanScc_offRoot : ∃ components, offRoot.tarjanScc = some components ∧
    ∀ x ∈ offRoot.nodes, ∀ y ∈ offRoot.nodes,
      (∃ root scc, components root = some scc ∧ x ∈ scc ∧ y ∈ scc) ↔
        offRoot.Reaches x y ∧ offRoot.Reaches y x := by
  rcases tarjanScc_correct offRoot (by decide) with ⟨components, found, _, _, together⟩
  exact ⟨components, found, together⟩

/-! ## More nodes than numbers -/

/-- The nodes below `isolated` have no edges, and the last but one leads to the last one. -/
def oneEdge (isolated : Nat) : DirectedGraph Nat Unit where
  nodes := List.range (isolated + 2)
  outgoing := fun a => if a = isolated then [(isolated + 1, ())] else []
  incoming := fun b => if b = isolated + 1 then [(isolated, ())] else []
  nodes_nodup := List.nodup_range
  mem_nodes := by
    intro a b edge member
    split at member
    · next last =>
        obtain rfl := (Prod.mk.inj (List.mem_singleton.mp member)).1
        simp only [List.mem_range]
        omega
    · cases member
  mem_incoming := by
    intro a b edge
    by_cases source : a = isolated <;> by_cases target : b = isolated + 1 <;>
      simp [source, target]
  outgoing_nodup := by
    intro a
    split <;> simp
  incoming_nodup := by
    intro b
    split <;> simp

namespace SccSearch

/-- The search of a node without successors. -/
theorem helper_leaf {g : DirectedGraph NodeType EdgeType} {n : NodeType} {depth : Nat}
    {s : SccSearch NodeType} (leaf : g.successors n = []) :
    g.tarjanSccHelper (depth + 1) n s =
      some { s.enter n with
        components :=
          Function.update s.components n (some (insert n ((s.components n).getD ∅)))
        stack := s.stack } := by
  have unfolded : g.tarjanSccHelper (depth + 1) n s =
      ((g.successors n).foldlM (visitSuccessor (g.tarjanSccHelper depth) n) (s.enter n)).bind
        fun s => s.generate n := rfl
  rw [unfolded, leaf]
  simp [generate, popComponent, enter, indexAt]

/-- The state of the search when so many nodes without edges have been searched. -/
structure Numbered (done : Nat) (s : SccSearch Nat) : Prop where
  index : s.index = done % 2 ^ 32
  fresh : ∀ node, done ≤ node → s.indices node = none
  stack : s.stack = []
  below : ∀ root scc, s.components root = some scc → ∀ node ∈ scc, node < done
  later : ∀ node, done ≤ node → s.components node = none

variable {isolated done : Nat} {s : SccSearch Nat}

theorem Numbered.step (numbered : Numbered done s) (more : done < isolated) :
    ∃ t, (oneEdge isolated).visitNode s done = some t ∧ Numbered (done + 1) t := by
  have leaf : (oneEdge isolated).successors done = [] := by
    simp [DirectedGraph.successors, oneEdge, Nat.ne_of_lt more]
  rw [visitNode, if_pos (numbered.fresh done le_rfl), helper_leaf leaf,
    numbered.later done le_rfl]
  refine ⟨_, rfl, ?_, ?_, numbered.stack, ?_, ?_⟩
  · simp only [enter, numbered.index]
    omega
  · intro node above
    have other : node ≠ done := by omega
    simpa [enter, other] using numbered.fresh node (by omega)
  · intro root scc found node member
    by_cases same : root = done
    · simp only [same, Function.update_self, Option.some.injEq, Option.getD_none] at found
      rw [← found] at member
      simp at member
      omega
    · simp only [Function.update_of_ne same] at found
      exact Nat.lt_succ_of_lt (numbered.below root scc found node member)
  · intro node above
    have other : node ≠ done := by omega
    simpa [enter, other] using numbered.later node (by omega)

theorem Numbered.run (numbered : Numbered 0 s) (fits : done ≤ isolated) :
    ∃ t, (List.range done).foldlM (oneEdge isolated).visitNode s = some t ∧ Numbered done t := by
  induction done with
  | zero => exact ⟨s, rfl, numbered⟩
  | succ done ih =>
      rcases ih (Nat.le_of_succ_le fits) with ⟨t, ran, before⟩
      rcases before.step fits with ⟨t', visited, after⟩
      refine ⟨t', ?_, after⟩
      rw [List.range_succ, List.foldlM_append, ran]
      simpa using visited

/-- The last node gets the number zero, and its neighbour is taken for no root. -/
theorem oneEdge_search (many : isolated + 1 = 2 ^ 32) :
    ∃ components, (oneEdge isolated).tarjanScc = some components ∧
      isolated ∈ (oneEdge isolated).nodes ∧
        ∀ root scc, components root = some scc → isolated ∉ scc := by
  let start : SccSearch Nat := ⟨fun _ => none, 0, fun _ => none, fun _ => 0, []⟩
  have fresh : Numbered 0 start :=
    ⟨rfl, fun _ _ => rfl, rfl, fun _ _ found => by simp [start] at found, fun _ _ => rfl⟩
  rcases fresh.run (le_refl isolated) with ⟨s, ran, numbered⟩
  have length : (oneEdge isolated).nodes.length = isolated + 2 := List.length_range
  have leaf : (oneEdge isolated).successors (isolated + 1) = [] := by
    simp [DirectedGraph.successors, oneEdge]
  have successors : (oneEdge isolated).successors isolated = [isolated + 1] := by
    simp [DirectedGraph.successors, oneEdge]
  have unnumbered : (s.enter isolated).indices (isolated + 1) = none := by
    simpa [enter] using numbered.fresh (isolated + 1) (Nat.le_succ _)
  have first : s.index = isolated := by
    rw [numbered.index]
    omega
  have noComponent : (s.enter isolated).components (isolated + 1) = none :=
    numbered.later (isolated + 1) (Nat.le_succ _)
  let t : SccSearch Nat := ({ (s.enter isolated).enter (isolated + 1) with
    components := Function.update (s.enter isolated).components (isolated + 1)
      (some (insert (isolated + 1) ∅))
    stack := (s.enter isolated).stack }).lower isolated 0
  have visited : visitSuccessor ((oneEdge isolated).tarjanSccHelper (isolated + 2)) isolated
      (s.enter isolated) (isolated + 1) = some t := by
    rw [visitSuccessor, if_pos unnumbered, helper_leaf leaf, noComponent]
    simp [t, enter, first, many]
  have stays : t.generate isolated = some t := by
    rw [generate, if_neg]
    simp [t, lower, enter, indexAt, first]
    omega
  have second : (oneEdge isolated).visitNode s isolated = some t := by
    have unfolded : (oneEdge isolated).tarjanSccHelper (isolated + 2 + 1) isolated s =
        (((oneEdge isolated).successors isolated).foldlM
          (visitSuccessor ((oneEdge isolated).tarjanSccHelper (isolated + 2)) isolated)
          (s.enter isolated)).bind fun s => s.generate isolated := rfl
    rw [visitNode, if_pos (numbered.fresh isolated le_rfl), length, unfolded, successors]
    simp [visited, stays]
  have third : (oneEdge isolated).visitNode t (isolated + 1) = some t := by
    rw [visitNode, if_neg]
    simp [t, lower, enter]
  refine ⟨t.components, ?_, by simp [oneEdge], fun root scc found member => ?_⟩
  · have unfolded : (oneEdge isolated).tarjanScc =
        ((oneEdge isolated).nodes.foldlM (oneEdge isolated).visitNode start).bind
          fun s => some s.components := rfl
    have nodes : (oneEdge isolated).nodes = List.range isolated ++ [isolated, isolated + 1] := by
      simp [oneEdge, List.range_succ]
    rw [unfolded, nodes, List.foldlM_append, ran]
    simp [second, third]
  · by_cases last : root = isolated + 1
    · simp only [t, lower, last, Function.update_self, Option.some.injEq] at found
      simp [← found] at member
    · simp only [t, lower, Function.update_of_ne last] at found
      exact Nat.lt_irrefl isolated (numbered.below root scc found isolated member)

end SccSearch

/-- A node can be left without a component when there are more nodes than numbers. -/
theorem oneEdge_unplaced : ∃ components, (oneEdge (2 ^ 32 - 1)).tarjanScc = some components ∧
    2 ^ 32 - 1 ∈ (oneEdge (2 ^ 32 - 1)).nodes ∧
      ∀ root scc, components root = some scc → 2 ^ 32 - 1 ∉ scc :=
  SccSearch.oneEdge_search (by omega)

end DirectedGraph

end Alaska
