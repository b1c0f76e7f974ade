import Alaska.Lib.Run
import Mathlib.Algebra.BigOperators.Group.Finset.Basic
import Mathlib.Algebra.Order.BigOperators.Group.Finset
import Mathlib.Data.Finset.Union
import Mathlib.Tactic.Ring

/-!
# Liveness by a worklist

A fact is live at a node that generates it, and at a node that does not kill it and has an
edge to one where it is live (`Live`). The worklist keeps for every node the facts that were
found live before and after it, and visits the nodes whose facts may be out of date. It may
visit them in any order: every run ends, and ends with exactly the live facts.
-/

namespace Liveness

open Lts

universe u v

/-- The graph with what its nodes generate and kill. -/
structure System (Node : Type u) (Fact : Type v) where
  nodes : Finset Node
  succ : Node → List Node
  pred : Node → List Node
  gen : Node → Finset Fact
  kill : Node → Finset Fact

/-- What was found so far, and the nodes to visit. -/
structure State (Node : Type u) (Fact : Type v) where
  into : Node → Finset Fact
  out : Node → Finset Fact
  todo : Finset Node

namespace System

variable {Node : Type u} {Fact : Type v}

/-- The edges stay among the nodes, and every edge is known at its end. -/
structure Closed (y : System Node Fact) : Prop where
  succ : ∀ n ∈ y.nodes, ∀ m ∈ y.succ n, m ∈ y.nodes
  pred : ∀ n ∈ y.nodes, ∀ m ∈ y.pred n, m ∈ y.nodes
  mem_pred : ∀ n ∈ y.nodes, ∀ m ∈ y.succ n, n ∈ y.pred m

/-- A path along edges leads to a node that generates the fact, and no node before kills it. -/
inductive Live (y : System Node Fact) (fact : Fact) : Node → Prop where
  | gen {n : Node} (isGenerated : fact ∈ y.gen n) : Live y fact n
  | edge {n m : Node} (next : m ∈ y.succ n) (isLive : Live y fact m)
      (notKilled : fact ∉ y.kill n) : Live y fact n

variable [DecidableEq Node] [DecidableEq Fact] (y : System Node Fact)

/-- The facts before a node, from those after it. -/
def transfer (n : Node) (out : Finset Fact) : Finset Fact := y.gen n ∪ (out \ y.kill n)

/-- The facts after a node, from those before its successors. -/
def join (n : Node) (into : Node → Finset Fact) : Finset Fact := (y.succ n).toFinset.biUnion into

/-- One visit: the node and those before it are visited again when a set changed. -/
def visit (n : Node) (s : State Node Fact) : State Node Fact :=
  let into := Function.update s.into n (y.transfer n (s.out n))
  let out := Function.update s.out n (y.join n into)
  { into := into
    out := out
    todo :=
      if out n ≠ s.out n ∨ into n ≠ s.into n then
        insert n (s.todo.erase n ∪ (y.pred n).toFinset)
      else
        s.todo.erase n }

/-- Any node of the worklist may be visited next. -/
def next (s : State Node Fact) (n : Node) : Option (State Node Fact) :=
  if n ∈ s.todo then some (y.visit n s) else none

/-- Nothing was found yet, and every node is to be visited. -/
def start : State Node Fact := ⟨fun _ => ∅, fun _ => ∅, y.nodes⟩

variable {y} {s t : State Node Fact} {n m : Node} {fact : Fact}

omit [DecidableEq Node] in
theorem mem_transfer {out : Finset Fact} :
    fact ∈ y.transfer n out ↔ fact ∈ y.gen n ∨ fact ∈ out ∧ fact ∉ y.kill n := by
  simp [transfer]

theorem mem_join {into : Node → Finset Fact} :
    fact ∈ y.join n into ↔ ∃ m ∈ y.succ n, fact ∈ into m := by
  simp [join]

omit [DecidableEq Node] in
theorem transfer_mono {out out' : Finset Fact} (subset : out ⊆ out') :
    y.transfer n out ⊆ y.transfer n out' := by
  intro fact member
  rcases mem_transfer.mp member with generated | ⟨after, notKilled⟩
  · exact mem_transfer.mpr (Or.inl generated)
  · exact mem_transfer.mpr (Or.inr ⟨subset after, notKilled⟩)

theorem join_mono {into into' : Node → Finset Fact} (subset : ∀ m, into m ⊆ into' m) :
    y.join n into ⊆ y.join n into' := by
  intro fact member
  rcases mem_join.mp member with ⟨m, edge, before⟩
  exact mem_join.mpr ⟨m, edge, subset m before⟩

/-! ## The invariant -/

/--
The sets only hold live facts and only grow, and those of a node that is not to be visited
are what they would be after a visit.
-/
structure Invariant (y : System Node Fact) (s : State Node Fact) : Prop where
  todo : s.todo ⊆ y.nodes
  into_grows : ∀ n, s.into n ⊆ y.transfer n (s.out n)
  out_grows : ∀ n, s.out n ⊆ y.join n s.into
  sound : ∀ n, ∀ fact ∈ s.into n, y.Live fact n
  settled : ∀ n ∈ y.nodes, n ∉ s.todo →
    s.into n = y.transfer n (s.out n) ∧ s.out n = y.join n s.into

theorem start_invariant (y : System Node Fact) : y.Invariant y.start where
  todo := Finset.Subset.refl _
  into_grows := fun _ => Finset.empty_subset _
  out_grows := fun _ => Finset.empty_subset _
  sound := by simp [start]
  settled := fun n isNode unvisited => absurd isNode unvisited

/-- What a visit does to the sets. -/
theorem visit_grows (invariant : y.Invariant s) (n : Node) :
    (∀ m, s.into m ⊆ (y.visit n s).into m) ∧ (∀ m, s.out m ⊆ (y.visit n s).out m) ∧
      (y.visit n s).into n = y.transfer n (s.out n) ∧
      (y.visit n s).out n = y.join n (y.visit n s).into ∧
      ∀ m, m ≠ n → (y.visit n s).into m = s.into m ∧ (y.visit n s).out m = s.out m := by
  have into : ∀ m, s.into m ⊆ (y.visit n s).into m := by
    intro m
    by_cases equal : m = n
    · subst equal
      simp only [visit, Function.update_self]
      exact invariant.into_grows m
    · simp only [visit, Function.update_of_ne equal, Finset.Subset.refl]
  refine ⟨into, fun m => ?_, by simp [visit], by simp [visit], fun m ne => by simp [visit, ne]⟩
  by_cases equal : m = n
  · subst equal
    have joined : (y.visit m s).out m = y.join m (y.visit m s).into := by simp [visit]
    rw [joined]
    exact (invariant.out_grows m).trans (join_mono into)
  · simp only [visit, Function.update_of_ne equal, Finset.Subset.refl]

/-- A visit that changes nothing takes the node from the worklist. -/
theorem visit_todo (n : Node) (s : State Node Fact) :
    ((y.visit n s).into n = s.into n ∧ (y.visit n s).out n = s.out n ∧
        (y.visit n s).todo = s.todo.erase n) ∨
      (((y.visit n s).into n ≠ s.into n ∨ (y.visit n s).out n ≠ s.out n) ∧
        (y.visit n s).todo = insert n (s.todo.erase n ∪ (y.pred n).toFinset)) := by
  by_cases same : (y.visit n s).out n ≠ s.out n ∨ (y.visit n s).into n ≠ s.into n
  · exact Or.inr ⟨same.symm, if_pos same⟩
  · have todo : (y.visit n s).todo = s.todo.erase n := if_neg same
    simp only [not_or, not_not] at same
    exact Or.inl ⟨same.2, same.1, todo⟩

theorem visit_invariant (closed : y.Closed) (invariant : y.Invariant s) (member : n ∈ s.todo) :
    y.Invariant (y.visit n s) := by
  have isNode := invariant.todo member
  rcases visit_grows invariant n with ⟨into, out, into_n, out_n, others⟩
  have todo := y.visit_todo n s
  refine ⟨?_, fun m => ?_, fun m => ?_, fun m fact found => ?_, fun m isNode' unvisited => ?_⟩
  · rcases todo with ⟨_, _, todo⟩ | ⟨_, todo⟩
    · rw [todo]
      exact (Finset.erase_subset _ _).trans invariant.todo
    · rw [todo]
      intro m inTodo
      simp only [Finset.mem_insert, Finset.mem_union, List.mem_toFinset] at inTodo
      rcases inTodo with rfl | old | before
      · exact isNode
      · exact invariant.todo (Finset.mem_of_mem_erase old)
      · exact closed.pred n isNode m before
  · by_cases equal : m = n
    · subst equal
      rw [into_n]
      exact transfer_mono (out m)
    · rw [(others m equal).1]
      exact (invariant.into_grows m).trans (transfer_mono (out m))
  · by_cases equal : m = n
    · subst equal
      rw [out_n]
    · rw [(others m equal).2]
      exact (invariant.out_grows m).trans (join_mono into)
  · by_cases equal : m = n
    · subst equal
      rw [into_n, mem_transfer] at found
      rcases found with generated | ⟨after, notKilled⟩
      · exact .gen generated
      · rcases mem_join.mp (invariant.out_grows m after) with ⟨next, edge, before⟩
        exact .edge edge (invariant.sound next fact before) notKilled
    · rw [(others m equal).1] at found
      exact invariant.sound m fact found
  · rcases todo with ⟨sameInto, sameOut, todo⟩ | ⟨_, todo⟩
    · -- nothing changed, so all that was settled still is
      have unchanged : (y.visit n s).into = s.into ∧ (y.visit n s).out = s.out := by
        constructor
        · funext other
          by_cases equal : other = n
          · rw [equal, sameInto]
          · exact (others other equal).1
        · funext other
          by_cases equal : other = n
          · rw [equal, sameOut]
          · exact (others other equal).2
      rw [unchanged.1, unchanged.2]
      by_cases equal : m = n
      · subst equal
        exact ⟨sameInto.symm.trans into_n, by rw [← sameOut, out_n, unchanged.1]⟩
      · exact invariant.settled m isNode' fun old =>
          unvisited (todo ▸ Finset.mem_erase.mpr ⟨equal, old⟩)
    · -- a node that is still settled has no edge to the one that changed
      rw [todo] at unvisited
      simp only [Finset.mem_insert, Finset.mem_union, List.mem_toFinset, not_or] at unvisited
      rcases unvisited with ⟨ne, old, before⟩
      have notTodo : m ∉ s.todo := fun inTodo => old (Finset.mem_erase.mpr ⟨ne, inTodo⟩)
      rcases invariant.settled m isNode' notTodo with ⟨intoEq, outEq⟩
      rw [(others m ne).1, (others m ne).2]
      refine ⟨intoEq, outEq.trans ?_⟩
      apply Finset.biUnion_congr rfl
      intro next edge
      have apart : next ≠ n := by
        rintro rfl
        exact before (closed.mem_pred m isNode' next (List.mem_toFinset.mp edge))
      exact (others next apart).1.symm

theorem run_invariant (closed : y.Closed) {visits : List Node} (invariant : y.Invariant s)
    (run : Run (ofFunction y.next) s visits t) : y.Invariant t := by
  refine run.invariant (fun s => y.Invariant s) (fun s n t holds step => ?_) invariant
  simp only [ofFunction, next, Option.ite_none_right_eq_some, Option.some.injEq] at step
  rcases step with ⟨member, rfl⟩
  exact visit_invariant closed holds member

/-! ## What a finished run has found -/

/-- A run that leaves nothing to visit has found exactly the live facts. -/
theorem Invariant.exact (closed : y.Closed) (invariant : y.Invariant s) (done : s.todo = ∅) :
    ∀ n ∈ y.nodes, (∀ fact, fact ∈ s.into n ↔ y.Live fact n) ∧
      ∀ fact, fact ∈ s.out n ↔ ∃ m ∈ y.succ n, y.Live fact m := by
  have settled : ∀ n ∈ y.nodes, s.into n = y.transfer n (s.out n) ∧ s.out n = y.join n s.into :=
    fun n isNode => invariant.settled n isNode (by simp [done])
  have complete : ∀ fact n, y.Live fact n → n ∈ y.nodes → fact ∈ s.into n := by
    intro fact n isLive
    induction isLive with
    | @gen n generated =>
        intro isNode
        rw [(settled n isNode).1]
        exact mem_transfer.mpr (Or.inl generated)
    | @edge n m edge _ notKilled ih =>
        intro isNode
        rw [(settled n isNode).1, (settled n isNode).2]
        have before := ih (closed.succ n isNode m edge)
        exact mem_transfer.mpr (Or.inr ⟨mem_join.mpr ⟨m, edge, before⟩, notKilled⟩)
  intro n isNode
  refine ⟨fun fact => ⟨invariant.sound n fact, fun isLive => complete fact n isLive isNode⟩, ?_⟩
  intro fact
  rw [(settled n isNode).2, mem_join]
  constructor
  · rintro ⟨m, edge, before⟩
    exact ⟨m, edge, invariant.sound m fact before⟩
  · rintro ⟨m, edge, isLive⟩
    exact ⟨m, edge, complete fact m isLive (closed.succ n isNode m edge)⟩

/-! ## Every run ends -/

/-- The facts that some node generates. -/
def facts (y : System Node Fact) : Finset Fact := y.nodes.biUnion y.gen

/-- The number of facts found so far. -/
def found (y : System Node Fact) (s : State Node Fact) : Nat :=
  ∑ n ∈ y.nodes, ((s.into n).card + (s.out n).card)

/-- The facts that can still be found. -/
def missing (y : System Node Fact) (s : State Node Fact) : Nat :=
  2 * y.nodes.card * y.facts.card - y.found s

/-- The number of visits that can still be made. -/
def rank (y : System Node Fact) (s : State Node Fact) : Nat :=
  y.missing s * (y.nodes.card + 1) + s.todo.card

omit [DecidableEq Node] in
theorem mem_facts (closed : y.Closed) (isLive : y.Live fact n) (isNode : n ∈ y.nodes) :
    fact ∈ y.facts := by
  induction isLive with
  | @gen n generated => exact Finset.mem_biUnion.mpr ⟨n, isNode, generated⟩
  | @edge n m edge _ _ ih => exact ih (closed.succ n isNode m edge)

theorem found_le (closed : y.Closed) (invariant : y.Invariant s) :
    y.found s ≤ 2 * y.nodes.card * y.facts.card := by
  have into : ∀ n ∈ y.nodes, (s.into n).card ≤ y.facts.card := fun n isNode =>
    Finset.card_le_card fun fact member => mem_facts closed (invariant.sound n fact member) isNode
  have out : ∀ n ∈ y.nodes, (s.out n).card ≤ y.facts.card := by
    intro n isNode
    refine Finset.card_le_card fun fact member => ?_
    rcases mem_join.mp (invariant.out_grows n member) with ⟨m, edge, before⟩
    exact mem_facts closed (invariant.sound m fact before) (closed.succ n isNode m edge)
  have each : ∀ n ∈ y.nodes, (s.into n).card + (s.out n).card ≤ 2 * y.facts.card := by
    intro n isNode
    have := into n isNode
    have := out n isNode
    omega
  have total := Finset.sum_le_card_nsmul y.nodes _ _ each
  rw [nsmul_eq_mul, Nat.cast_id] at total
  calc y.found s ≤ y.nodes.card * (2 * y.facts.card) := total
    _ = 2 * y.nodes.card * y.facts.card := by ring

/-- A visit finds a fact, or it takes a node from the worklist. -/
theorem rank_visit (closed : y.Closed) (invariant : y.Invariant s) (member : n ∈ s.todo) :
    y.rank (y.visit n s) < y.rank s := by
  have isNode := invariant.todo member
  have after := visit_invariant closed invariant member
  rcases visit_grows invariant n with ⟨into, out, _, _, others⟩
  have grows : ∀ m ∈ y.nodes, (s.into m).card + (s.out m).card ≤
      ((y.visit n s).into m).card + ((y.visit n s).out m).card := fun m _ =>
    Nat.add_le_add (Finset.card_le_card (into m)) (Finset.card_le_card (out m))
  rcases y.visit_todo n s with ⟨sameInto, sameOut, todo⟩ | ⟨changed, _⟩
  · have same : y.found (y.visit n s) = y.found s := by
      refine Finset.sum_congr rfl fun m _ => ?_
      by_cases equal : m = n
      · rw [equal, sameInto, sameOut]
      · rw [(others m equal).1, (others m equal).2]
    have fewer := Finset.card_erase_lt_of_mem member
    simp only [rank, missing, same, todo]
    omega
  · have more : y.found s < y.found (y.visit n s) := by
      refine Finset.sum_lt_sum grows ⟨n, isNode, ?_⟩
      rcases changed with ne | ne
      · have less := Finset.card_lt_card (Finset.ssubset_iff_subset_ne.mpr ⟨into n, ne.symm⟩)
        have le := Finset.card_le_card (out n)
        omega
      · have less := Finset.card_lt_card (Finset.ssubset_iff_subset_ne.mpr ⟨out n, ne.symm⟩)
        have le := Finset.card_le_card (into n)
        omega
    have bound := found_le closed after
    have size := Finset.card_le_card after.todo
    have drops : y.missing (y.visit n s) + 1 ≤ y.missing s := by
      simp only [missing]
      omega
    calc y.rank (y.visit n s) < (y.missing (y.visit n s) + 1) * (y.nodes.card + 1) := by
          simp only [rank, Nat.succ_mul]
          omega
      _ ≤ y.missing s * (y.nodes.card + 1) := Nat.mul_le_mul_right _ drops
      _ ≤ y.rank s := Nat.le_add_right _ _

/-- The number of visits of a run is bounded, whatever their order is. -/
theorem length_le_rank (closed : y.Closed) {visits : List Node} (invariant : y.Invariant s)
    (run : Run (ofFunction y.next) s visits t) : visits.length ≤ y.rank s := by
  induction run with
  | nil => exact Nat.zero_le _
  | cons head _ ih =>
      simp only [ofFunction, next, Option.ite_none_right_eq_some, Option.some.injEq] at head
      rcases head with ⟨member, rfl⟩
      have rest := ih (visit_invariant closed invariant member)
      have drops := rank_visit closed invariant member
      simp only [List.length_cons]
      omega

/-- Every run can be continued to one that leaves nothing to visit. -/
theorem exists_done (closed : y.Closed) (invariant : y.Invariant s) :
    ∃ visits t, Run (ofFunction y.next) s visits t ∧ t.todo = ∅ := by
  induction bound : y.rank s using Nat.strong_induction_on generalizing s with
  | _ rank ih =>
      rcases s.todo.eq_empty_or_nonempty with done | ⟨n, member⟩
      · exact ⟨[], s, .nil s, done⟩
      · have drops := rank_visit closed invariant member
        have after := visit_invariant closed invariant member
        rcases ih _ (bound ▸ drops) after rfl with ⟨visits, t, run, done⟩
        exact ⟨n :: visits, t, .cons (if_pos member) run, done⟩

end System

end Liveness
