import Mathlib.Data.List.Cycle
import Mathlib.Data.Finset.Card
import Mathlib.Data.List.Chain

/-!
# Paths, cycles and dominance

In a directed graph with an entry a vertex dominates another when every path to the other
passes it. A cycle has a back edge, one to a vertex that dominates its start, exactly when
one of its vertices dominates all the others. The paths that only follow some of the edges
are bounded exactly when these edges form no cycle.
-/

namespace Dominance

universe u

variable {V : Type u}

/-- A path from the entry, with the vertices it has passed, the last one first. -/
inductive Path (r : V → V → Prop) (entry : V) : List V → V → Prop where
  | entry : Path r entry [entry] entry
  | step {visited : List V} {a b : V} (path : Path r entry visited a) (edge : r a b) :
      Path r entry (b :: visited) b

def Reached (r : V → V → Prop) (entry b : V) : Prop := ∃ visited, Path r entry visited b

/-- Every path to `b` passes `a`. -/
def Dominates (r : V → V → Prop) (entry a b : V) : Prop :=
  ∀ visited, Path r entry visited b → a ∈ visited

/-- An edge between reached vertices that is no back edge. -/
def Forward (r : V → V → Prop) (entry a b : V) : Prop :=
  Reached r entry a ∧ r a b ∧ ¬ Dominates r entry b a

variable {r skips : V → V → Prop} {entry a b d v : V} {visited path l m earlier : List V}
  {c : Cycle V}

theorem Path.mem (path : Path r entry visited b) : b ∈ visited := by
  cases path <;> exact List.mem_cons_self

/-- What dominates a vertex dominates what is before it. -/
theorem Dominates.pred (dominates : Dominates r entry v b) (edge : r a b) (ne : v ≠ b) :
    Dominates r entry v a := by
  intro visited path
  rcases List.mem_cons.mp (dominates _ (path.step edge)) with equal | passed
  · exact absurd equal ne
  · exact passed

/-- A path passes each of its vertices on a path to it. -/
theorem Path.of_append (path : Path r entry visited a) (split : visited = l ++ b :: earlier) :
    Path r entry (b :: earlier) b := by
  induction path generalizing l with
  | entry =>
      cases l with
      | nil =>
          obtain ⟨rfl, rfl⟩ := List.cons.inj split
          exact .entry
      | cons x l => simp at split
  | @step visited a c path edge ih =>
      cases l with
      | nil =>
          obtain ⟨rfl, rfl⟩ := List.cons.inj split
          exact path.step edge
      | cons x l => exact ih (List.cons.inj split).2

/-- A vertex that is reached is reached without a detour. -/
theorem exists_nodup_path (reached : Reached r entry b) :
    ∃ visited, Path r entry visited b ∧ visited.Nodup := by
  rcases reached with ⟨visited, path⟩
  induction path with
  | entry => exact ⟨_, .entry, List.nodup_singleton _⟩
  | @step visited a b path edge ih =>
      rcases ih with ⟨short, path, nodup⟩
      by_cases passed : b ∈ short
      · rcases List.append_of_mem passed with ⟨l, earlier, rfl⟩
        exact ⟨_, path.of_append rfl, (List.nodup_append.mp nodup).2.1⟩
      · exact ⟨_, path.step edge, List.nodup_cons.mpr ⟨passed, nodup⟩⟩

/-- A path without a detour has no back edge. -/
theorem Path.forward (path : Path r entry visited b) (nodup : visited.Nodup) :
    visited.IsChain fun y x => Forward r entry x y := by
  induction path with
  | entry => exact .singleton _
  | @step visited a b path edge ih =>
      rcases List.nodup_cons.mp nodup with ⟨fresh, nodup⟩
      have forward : Forward r entry a b := ⟨⟨_, path⟩, edge, fun back => fresh (back _ path)⟩
      cases path with
      | entry => exact .cons_cons forward (ih nodup)
      | step _ _ => exact .cons_cons forward (ih nodup)

theorem Path.head? (path : Path r entry visited b) : visited.head? = some b := by
  cases path <;> rfl

/-- From a vertex that dominates another a path without a back edge leads to that. -/
theorem exists_forward_path (reached : Reached r entry b) (dominates : Dominates r entry a b) :
    ∃ m, (a :: m).Nodup ∧ (a :: m).IsChain (Forward r entry) ∧ (a :: m).getLast? = some b ∧
      ∀ x ∈ a :: m, Reached r entry x := by
  rcases exists_nodup_path reached with ⟨visited, path, nodup⟩
  rcases List.append_of_mem (dominates visited path) with ⟨l, earlier, rfl⟩
  have whole : l ++ a :: earlier = (l ++ [a]) ++ earlier := by simp
  have turned : a :: l.reverse = (l ++ [a]).reverse := by simp
  have chain := path.forward nodup
  have last := path.head?
  rw [whole] at nodup chain last
  refine ⟨l.reverse, ?_, ?_, ?_, fun x member => ?_⟩
  · rw [turned, List.nodup_reverse]
    exact (List.nodup_append.mp nodup).1
  · rw [turned, List.isChain_reverse]
    exact chain.left_of_append
  · rw [turned, List.getLast?_reverse]
    rwa [List.head?_append_of_ne_nil _ (by simp)] at last
  · rw [turned, List.mem_reverse] at member
    rcases List.append_of_mem (List.mem_append_left earlier member) with ⟨first, second, split⟩
    exact ⟨_, path.of_append (whole.trans split)⟩

/-! ## Cycles -/

theorem exists_cons_of_mem (member : v ∈ c) : ∃ l : List V, c = (v :: l : List V) := by
  induction c using Cycle.induction_on with
  | nil => exact absurd member (Cycle.notMem_nil v)
  | cons a l _ =>
      rcases List.append_of_mem (Cycle.mem_coe_iff.mp member) with ⟨first, second, split⟩
      refine ⟨second ++ first, ?_⟩
      rw [split, ← List.cons_append, Cycle.coe_eq_coe]
      exact List.isRotated_append

/-- Every vertex of a cycle has an edge from one of the cycle. -/
theorem exists_edge_to (chain : c.Chain skips) (member : v ∈ c) : ∃ w ∈ c, skips w v := by
  rcases exists_cons_of_mem member with ⟨l, rfl⟩
  rw [Cycle.chain_coe_cons, ← List.cons_append] at chain
  refine ⟨(v :: l).getLast (List.cons_ne_nil _ _), List.getLast_mem _, ?_⟩
  have edges := (List.isChain_append.mp chain).2.2
  exact edges _ (List.getLast?_eq_getLast_of_ne_nil _) v rfl

/-- Every vertex of a cycle has an edge to one of the cycle. -/
theorem exists_edge_from (chain : c.Chain skips) (member : v ∈ c) : ∃ w ∈ c, skips v w := by
  rcases exists_cons_of_mem member with ⟨l, rfl⟩
  rw [Cycle.chain_coe_cons] at chain
  cases l with
  | nil => exact ⟨v, List.mem_cons_self, (List.isChain_cons_cons.mp chain).1⟩
  | cons w l =>
      exact ⟨w, List.mem_cons_of_mem _ List.mem_cons_self, (List.isChain_cons_cons.mp chain).1⟩

/-- What dominates the end of a path and is not on it dominates the whole path. -/
theorem dominates_of_isChain {last : V} (chain : (l ++ [last]).IsChain r)
    (apart : v ∉ l ++ [last]) (dominates : Dominates r entry v last) :
    ∀ x ∈ l ++ [last], Dominates r entry v x := by
  induction l with
  | nil =>
      intro x member
      obtain rfl := List.mem_singleton.mp member
      exact dominates
  | cons a l ih =>
      rw [List.cons_append] at chain apart ⊢
      have rest := ih chain.tail (fun member => apart (List.mem_cons_of_mem _ member))
      rw [List.forall_mem_cons]
      refine ⟨?_, rest⟩
      have ne : l ++ [last] ≠ [] := by simp
      obtain ⟨b, m, split⟩ := List.exists_cons_of_ne_nil ne
      rw [split] at chain rest apart
      refine (rest b List.mem_cons_self).pred (List.isChain_cons_cons.mp chain).1 ?_
      rintro rfl
      exact apart (List.mem_cons_of_mem _ List.mem_cons_self)

/-- The vertex that a back edge of a cycle leads to dominates the cycle. -/
theorem dominates_cycle (nodup : (v :: m).Nodup) (chain : (v :: m).IsChain r)
    (ends : v :: m = l ++ [a]) (dominates : Dominates r entry v a) :
    ∀ x ∈ v :: m, Dominates r entry v x := by
  rw [List.forall_mem_cons]
  refine ⟨fun visited path => path.mem, ?_⟩
  cases l with
  | nil =>
      obtain rfl : m = [] := (List.cons.inj ends).2
      simp
  | cons w l =>
      obtain ⟨rfl, rfl⟩ := List.cons.inj ends
      exact dominates_of_isChain chain.tail (List.nodup_cons.mp nodup).1 dominates

/-- Where a list is a chain of one relation and not of another. -/
theorem exists_split_of_not_isChain {other : V → V → Prop} (chain : l.IsChain r)
    (not : ¬ l.IsChain other) :
    ∃ first a b second, l = first ++ a :: b :: second ∧ r a b ∧ ¬ other a b := by
  induction chain with
  | nil => exact absurd .nil not
  | singleton a => exact absurd (.singleton a) not
  | @cons_cons a b l edge chain ih =>
      by_cases rest : (b :: l).IsChain other
      · exact ⟨[], a, b, l, rfl, edge, fun holds => not (.cons_cons holds rest)⟩
      · rcases ih rest with ⟨first, c, d, second, split, found⟩
        exact ⟨a :: first, c, d, second, by rw [split]; rfl, found⟩

/-- A cycle from the end of one of its edges on, so that it ends with the start of the edge. -/
theorem rotate_cycle {x : V} {first second : List V}
    (split : x :: (l ++ [x]) = first ++ a :: d :: second) :
    ∃ m l', ((x :: l : List V) : Cycle V) = (d :: m : List V) ∧ d :: m = l' ++ [a] := by
  rw [← List.cons_append] at split
  rcases List.eq_nil_or_concat' second with rfl | ⟨second, y, rfl⟩
  · rw [show first ++ [a, d] = (first ++ [a]) ++ [d] by simp] at split
    obtain ⟨front, last⟩ := List.append_inj' split rfl
    obtain rfl := (List.cons.inj last).1
    exact ⟨l, first, rfl, front⟩
  · rw [show first ++ a :: d :: (second ++ [y]) = (first ++ a :: d :: second) ++ [y] by simp]
      at split
    obtain ⟨front, _⟩ := List.append_inj' split rfl
    refine ⟨second ++ (first ++ [a]), d :: second ++ first, ?_, by simp⟩
    rw [front, Cycle.coe_eq_coe, ← List.cons_append,
      show first ++ a :: d :: second = (first ++ [a]) ++ d :: second by simp]
    exact List.isRotated_append

/-- A cycle has a vertex that dominates it exactly when it has a back edge. -/
theorem exists_dominator_iff (nodup : c.Nodup) (chain : c.Chain r) (nonempty : c ≠ Cycle.nil)
    (reached : ∀ x ∈ c, Reached r entry x) :
    (∃ d ∈ c, ∀ x ∈ c, Dominates r entry d x) ↔ ¬ c.Chain (Forward r entry) := by
  constructor
  · rintro ⟨d, member, dominates⟩ forward
    rcases exists_edge_to forward member with ⟨w, inside, edge⟩
    exact edge.2.2 (dominates w inside)
  · intro back
    induction c using Cycle.induction_on with
    | nil => exact absurd rfl nonempty
    | cons x l _ =>
        have inCycle : ∀ y ∈ x :: (l ++ [x]), Reached r entry y := by
          intro y member
          apply reached
          rw [Cycle.mem_coe_iff]
          simp only [List.mem_cons, List.mem_append, List.not_mem_nil, or_false] at member ⊢
          tauto
        rcases exists_split_of_not_isChain ((Cycle.chain_coe_cons ..).mp chain) back with
          ⟨first, a, d, second, split, edge, isBack⟩
        have dominates : Dominates r entry d a := by
          by_contra dominates
          refine isBack ⟨inCycle a ?_, edge, dominates⟩
          rw [split]
          simp
        rcases rotate_cycle split with ⟨m, l', same, ends⟩
        rw [same] at nodup chain ⊢
        rw [Cycle.chain_coe_cons, ← List.cons_append] at chain
        refine ⟨d, List.mem_cons_self, ?_⟩
        exact dominates_cycle (Cycle.nodup_coe_iff.mp nodup) chain.left_of_append ends dominates

/-! ## Bounded paths -/

/-- A path that passes a vertex twice contains a cycle. -/
theorem exists_cycle (chain : path.IsChain skips) (twice : ¬ path.Nodup) :
    ∃ c : Cycle V, c ≠ Cycle.nil ∧ c.Nodup ∧ c.Chain skips ∧ ∀ x ∈ c, x ∈ path := by
  induction path with
  | nil => exact absurd List.nodup_nil twice
  | cons a l ih =>
      by_cases nodup : l.Nodup
      · have member : a ∈ l := by
          by_contra fresh
          exact twice (List.nodup_cons.mpr ⟨fresh, nodup⟩)
        rcases List.append_of_mem member with ⟨first, second, rfl⟩
        rw [List.nodup_append] at nodup
        have whole : a :: (first ++ a :: second) = (a :: (first ++ [a])) ++ second := by simp
        refine ⟨(a :: first : List V), by simp, ?_, ?_, ?_⟩
        · rw [Cycle.nodup_coe_iff, List.nodup_cons]
          exact ⟨fun again => nodup.2.2 a again a List.mem_cons_self rfl, nodup.1⟩
        · rw [Cycle.chain_coe_cons]
          rw [whole] at chain
          exact chain.left_of_append
        · intro x inCycle
          simp only [Cycle.mem_coe_iff, List.mem_cons, List.mem_append] at inCycle ⊢
          tauto
      · rcases ih chain.tail nodup with ⟨c, nonempty, nodup, isCycle, inside⟩
        exact ⟨c, nonempty, nodup, isCycle, fun x member =>
          List.mem_cons_of_mem _ (inside x member)⟩

/-- A cycle can be followed for any number of steps. -/
theorem exists_long_path (chain : c.Chain skips) (member : v ∈ c) (n : Nat) :
    ∃ path : List V, path.length = n ∧ (v :: path).IsChain skips ∧ ∀ x ∈ path, x ∈ c := by
  induction n generalizing v with
  | zero => exact ⟨[], rfl, .singleton v, by simp⟩
  | succ n ih =>
      rcases exists_edge_from chain member with ⟨w, inside, edge⟩
      rcases ih inside with ⟨path, length, isPath, within⟩
      refine ⟨w :: path, by simp [length], .cons_cons edge isPath, ?_⟩
      exact List.forall_mem_cons.mpr ⟨inside, within⟩

/-- The paths along some edges are bounded exactly when these have no cycle. -/
theorem bounded_iff [DecidableEq V] (vertices : Finset V)
    (finite : ∀ x, Reached r entry x → x ∈ vertices) :
    (∀ path : List V, path.IsChain skips → (∀ x ∈ path, Reached r entry x) →
        path.length ≤ vertices.card) ↔
      ∀ c : Cycle V, c ≠ Cycle.nil → c.Nodup → (∀ x ∈ c, Reached r entry x) →
        ¬ c.Chain skips := by
  constructor
  · intro bounded c nonempty _ reached chain
    induction c using Cycle.induction_on with
    | nil => exact nonempty rfl
    | cons a l _ =>
        rcases exists_long_path chain List.mem_cons_self vertices.card with
          ⟨path, length, isPath, within⟩
        have le := bounded (a :: path) isPath
          (List.forall_mem_cons.mpr ⟨reached a List.mem_cons_self, fun x member =>
            reached x (within x member)⟩)
        simp only [List.length_cons, length] at le
        omega
  · intro acyclic path chain reached
    by_contra long
    have twice : ¬ path.Nodup := by
      intro nodup
      have inside : path.toFinset ⊆ vertices := fun x member =>
        finite x (reached x (List.mem_toFinset.mp member))
      have le := Finset.card_le_card inside
      rw [List.toFinset_card_of_nodup nodup] at le
      exact long le
    rcases exists_cycle chain twice with ⟨c, nonempty, nodup, isCycle, inside⟩
    exact acyclic c nonempty nodup (fun x member => reached x (inside x member)) isCycle

end Dominance
