import Alaska.Lib.Dominance
import Alaska.Compiler.Cfg
import Alaska.Compiler.SimpleFunction
import Mathlib.Data.List.Destutter
import Mathlib.Data.String.Basic

/-!
# The placement of safepoint polls

The pass polls on the back edges of loops, so that running code soon meets a poll, and in the
bodies of parallel regions also before the first call. The dominator tree and the loops are
those of the compiler's analyses. Every edge is taken for one that can be split.
-/

namespace Alaska

open Dominance

/-- `Loop`, as far as the pass asks it. -/
structure PlaceSafepointsPass.Loop where
  header : Nat
  latches : List Nat

/-- An edge between blocks. -/
def Cfg.Edge {Inst : Type} (f : Cfg Inst) (u v : Nat) : Prop := v ∈ f.successors u

/--
`DominatorTree` and `LoopInfo` of a function whose blocks are numbered from its entry on:
the latches of the loops are the blocks with an edge to a block that dominates them.
-/
structure Analyses {Inst : Type} (f : Cfg Inst) where
  dominates : Nat → Nat → Bool
  loops : List PlaceSafepointsPass.Loop
  dominates_iff : ∀ a b, Reached f.Edge 0 b → (dominates a b = true ↔ Dominates f.Edge 0 a b)
  latch : ∀ loop ∈ loops, ∀ u ∈ loop.latches,
    Reached f.Edge 0 u ∧ f.Edge u loop.header ∧ Dominates f.Edge 0 loop.header u
  exists_loop : ∀ u h, Reached f.Edge 0 u → f.Edge u h → Dominates f.Edge 0 h u →
    ∃ loop ∈ loops, loop.header = h ∧ u ∈ loop.latches

namespace PlaceSafepointsPass

/--
`PollLocations` after it was sorted by the names of the blocks; the sort may leave blocks with
the same name, such as those that have none, in any order.
-/
structure PollOrder {Inst : Type} {f : Cfg Inst} (analyses : Analyses f) where
  name : Nat → String
  sorted : List Nat
  perm : sorted.Perm (analyses.loops.flatMap Loop.latches)
  byName : sorted.Pairwise fun a b => ¬ name b < name a

variable {Inst : Type} {f : Cfg Inst} {analyses : Analyses f} (order : PollOrder analyses)

/-- `PollLocations` after `std::unique`, which drops equal neighbours. -/
def pollLocations : List Nat := order.sorted.destutter (· ≠ ·)

/-- The edges of a block that no poll has been put on lead to these blocks. -/
def unsplit (f : Cfg Inst) (polls : List (Nat × Nat)) (latch i : Nat) : Option Nat :=
  if (latch, i) ∈ polls then none else (f.successors latch)[i]?

/-- `Headers`, the successors of a latch that dominate it. -/
def headers (analyses : Analyses f) (polls : List (Nat × Nat)) (latch : Nat) : List Nat :=
  (((List.range (f.successors latch).length).filterMap (unsplit f polls latch)).filter fun succ =>
    analyses.dominates succ latch).dedup

/-- `SplitEdge`, on the first edge to the header. -/
def splitEdge (f : Cfg Inst) (latch : Nat) (polls : List (Nat × Nat)) (header : Nat) :
    List (Nat × Nat) :=
  match (List.range (f.successors latch).length).find? fun i =>
      unsplit f polls latch i = some header with
  | none => polls
  | some i => polls ++ [(latch, i)]

/-- The body of the loop over the poll locations. -/
def pollLatch (analyses : Analyses f) (polls : List (Nat × Nat)) (latch : Nat) :
    List (Nat × Nat) :=
  (headers analyses polls latch).foldl (splitEdge f latch) polls

/-- The edges that are split for a poll, by the block and the number of the edge. -/
def pollsNeeded : List (Nat × Nat) := (pollLocations order).foldl (pollLatch analyses) []

/-- Control can go from `u` to `v` along an edge without a poll. -/
def Skips (u v : Nat) : Prop :=
  ∃ i, (f.successors u)[i]? = some v ∧ (u, i) ∉ pollsNeeded order

variable {order} {u v h i : Nat}

/-! ### Which edges are split -/

/-- The occurrences of an element are numbered by how many come before them. -/
theorem exists_occurrence {l : List Nat} {number : Nat} (lt : number < l.count v) :
    ∃ i, l[i]? = some v ∧ (l.take i).count v = number := by
  induction l generalizing number with
  | nil => simp at lt
  | cons a l ih =>
      by_cases first : a = v
      · subst first
        cases number with
        | zero => exact ⟨0, rfl, rfl⟩
        | succ number =>
            rw [List.count_cons_self] at lt
            rcases ih (Nat.lt_of_succ_lt_succ lt) with ⟨i, isThere, count⟩
            exact ⟨i + 1, isThere, by rw [List.take_succ_cons, List.count_cons_self, count]⟩
      · rw [List.count_cons_of_ne first] at lt
        rcases ih lt with ⟨i, isThere, count⟩
        exact ⟨i + 1, isThere, by rw [List.take_succ_cons, List.count_cons_of_ne first, count]⟩

/-- An occurrence comes before another just if there are fewer before it. -/
theorem count_take_lt {l : List Nat} {i j : Nat} (lt : i < j) (isThere : l[i]? = some v) :
    (l.take i).count v < (l.take j).count v := by
  have inside : i < l.length := (List.getElem?_eq_some_iff.mp isThere).1
  have split : l.take j = l.take i ++ (l.drop i).take (j - i) := by
    rw [← List.take_add, Nat.add_sub_cancel' (Nat.le_of_lt lt)]
  have member : v ∈ (l.drop i).take (j - i) := by
    refine List.mem_of_getElem? (i := 0) ?_
    rw [List.getElem?_take_of_lt (by omega), List.getElem?_drop, Nat.add_zero, isThere]
  rw [split, List.count_append]
  have positive := List.count_pos_iff.mpr member
  omega

theorem count_take_lt_count {l : List Nat} (isThere : l[i]? = some v) :
    (l.take i).count v < l.count v := by
  have inside : i < l.length := (List.getElem?_eq_some_iff.mp isThere).1
  have lt := count_take_lt inside isThere
  rwa [List.take_length] at lt

/-- Of the edges back to a header, so many of the first ones are split. -/
def FirstEdges (analyses : Analyses f) (polls : List (Nat × Nat)) (visits : Nat → Nat → Nat) :
    Prop :=
  ∀ u i, (u, i) ∈ polls ↔ ∃ h, (f.successors u)[i]? = some h ∧ analyses.dominates h u = true ∧
    ((f.successors u).take i).count h < visits u h

variable {polls : List (Nat × Nat)} {visits visits' : Nat → Nat → Nat}

theorem unsplit_eq_some : unsplit f polls u i = some v ↔
    (f.successors u)[i]? = some v ∧ (u, i) ∉ polls := by
  rw [unsplit]
  split
  · next split => simp [split]
  · next whole => simp [whole]

/-- Whether an edge back to a header is split depends on how many come before it. -/
theorem FirstEdges.mem_iff (first : FirstEdges analyses polls visits)
    (dominates : analyses.dominates h u = true) (isEdge : (f.successors u)[i]? = some h) :
    (u, i) ∈ polls ↔ ((f.successors u).take i).count h < visits u h := by
  rw [first u i]
  constructor
  · rintro ⟨x, isEdge', _, lt⟩
    rw [isEdge, Option.some.injEq] at isEdge'
    exact isEdge' ▸ lt
  · exact fun lt => ⟨h, isEdge, dominates, lt⟩

/-- As many edges to the header come before the first whole one as are split. -/
theorem FirstEdges.count_eq (first : FirstEdges analyses polls visits)
    (dominates : analyses.dominates h u = true) (isWhole : unsplit f polls u i = some h)
    (before : ∀ j < i, unsplit f polls u j ≠ some h) :
    ((f.successors u).take i).count h = visits u h := by
  rcases unsplit_eq_some.mp isWhole with ⟨isEdge, whole⟩
  have ge : visits u h ≤ ((f.successors u).take i).count h :=
    Nat.not_lt.mp fun lt => whole ((first.mem_iff dominates isEdge).mpr lt)
  by_contra ne
  have lt : visits u h < ((f.successors u).take i).count h := by omega
  rcases exists_occurrence lt with ⟨j, isThere, count⟩
  rw [List.getElem?_take] at isThere
  split at isThere
  · next j_lt =>
      rw [List.take_take, Nat.min_eq_left (Nat.le_of_lt j_lt)] at count
      have whole' : (u, j) ∉ polls := fun split => by
        have := (first.mem_iff dominates isThere).mp split
        omega
      exact before j j_lt (unsplit_eq_some.mpr ⟨isThere, whole'⟩)
  · cases isThere

/-- When no edge to the header is whole, all of them are split. -/
theorem FirstEdges.lt_visits (first : FirstEdges analyses polls visits)
    (dominates : analyses.dominates h u = true) (isEdge : (f.successors u)[i]? = some h)
    (none : ∀ j, unsplit f polls u j ≠ some h) :
    ((f.successors u).take i).count h < visits u h := by
  refine (first.mem_iff dominates isEdge).mp ?_
  by_contra whole
  exact none i (unsplit_eq_some.mpr ⟨isEdge, whole⟩)

/-- One more edge to the header is split, if there is one. -/
theorem FirstEdges.splitEdge (first : FirstEdges analyses polls visits)
    (dominates : analyses.dominates h u = true)
    (more : ∀ w x, visits' w x = if w = u ∧ x = h then visits w x + 1 else visits w x) :
    FirstEdges analyses (splitEdge f u polls h) visits' := by
  intro w j
  rw [PlaceSafepointsPass.splitEdge]
  split
  · next missing =>
      rw [List.find?_range_eq_none] at missing
      have none : ∀ i, unsplit f polls u i ≠ some h := by
        intro i isWhole
        have inside := (List.getElem?_eq_some_iff.mp (unsplit_eq_some.mp isWhole).1).1
        simpa [isWhole] using missing i inside
      rw [first w j]
      refine exists_congr fun x => and_congr_right fun isEdge => and_congr_right fun _ => ?_
      rw [more]
      split
      · next same =>
          obtain ⟨rfl, rfl⟩ := same
          have lt := first.lt_visits dominates isEdge none
          omega
      · exact Iff.rfl
  · next i found =>
      rw [List.find?_range_eq_some] at found
      rcases found with ⟨isWhole, _, before⟩
      have isWhole := of_decide_eq_true isWhole
      have isEdge := (unsplit_eq_some.mp isWhole).1
      have count_eq := first.count_eq dominates isWhole fun j lt => by simpa using before j lt
      rw [List.mem_append, List.mem_singleton, first w j, Prod.mk.injEq]
      constructor
      · rintro (⟨x, isEdge', dominates', lt⟩ | ⟨rfl, rfl⟩)
        · refine ⟨x, isEdge', dominates', ?_⟩
          rw [more]
          split
          · exact Nat.lt_succ_of_lt lt
          · exact lt
        · refine ⟨h, isEdge, dominates, ?_⟩
          rw [more, if_pos ⟨rfl, rfl⟩]
          omega
      · rintro ⟨x, isEdge', dominates', lt⟩
        rw [more] at lt
        split at lt
        · next same =>
            obtain ⟨rfl, rfl⟩ := same
            rcases Nat.lt_trichotomy i j with less | equal | greater
            · have := count_take_lt less isEdge
              omega
            · exact Or.inr ⟨rfl, equal.symm⟩
            · have := count_take_lt greater isEdge'
              exact Or.inl ⟨x, isEdge', dominates', by omega⟩
        · exact Or.inl ⟨x, isEdge', dominates', lt⟩

theorem mem_headers : h ∈ headers analyses polls u ↔
    analyses.dominates h u = true ∧ ∃ i, (f.successors u)[i]? = some h ∧ (u, i) ∉ polls := by
  simp only [headers, List.mem_dedup, List.mem_filter, List.mem_filterMap, List.mem_range,
    unsplit_eq_some]
  constructor
  · rintro ⟨⟨i, _, isEdge⟩, dominates⟩
    exact ⟨dominates, i, isEdge⟩
  · rintro ⟨dominates, i, isEdge⟩
    exact ⟨⟨i, (List.getElem?_eq_some_iff.mp isEdge.1).1, isEdge⟩, dominates⟩

/-- The loop over the headers of a latch. -/
theorem FirstEdges.foldl (first : FirstEdges analyses polls visits) {headers : List Nat}
    (nodup : headers.Nodup) (dominates : ∀ h ∈ headers, analyses.dominates h u = true) :
    FirstEdges analyses (headers.foldl (PlaceSafepointsPass.splitEdge f u) polls) fun w x =>
      if w = u ∧ x ∈ headers then visits w x + 1 else visits w x := by
  induction headers generalizing polls visits with
  | nil => simpa using first
  | cons h headers ih =>
      rw [List.nodup_cons] at nodup
      have step := first.splitEdge (dominates h List.mem_cons_self) fun _ _ => rfl
      have rest := ih step nodup.2 fun x member => dominates x (List.mem_cons_of_mem _ member)
      rw [List.foldl_cons]
      convert rest using 3 with w x
      by_cases latch : w = u
      · by_cases same : x = h
        · subst same
          simp [latch, nodup.1]
        · simp [latch, same]
      · simp [latch]

/-- A visit of a latch splits one more edge to each of its headers. -/
theorem FirstEdges.pollLatch (first : FirstEdges analyses polls visits) :
    FirstEdges analyses (pollLatch analyses polls u) fun w x =>
      if w = u then visits w x + 1 else visits w x := by
  have dominating : ∀ h ∈ headers analyses polls u, analyses.dominates h u = true :=
    fun h member => (mem_headers.mp member).1
  have folded := first.foldl (List.nodup_dedup _) dominating
  intro w j
  rw [PlaceSafepointsPass.pollLatch, headers, folded w j]
  refine exists_congr fun x => and_congr_right fun isEdge => and_congr_right fun dominates => ?_
  by_cases latch : w = u
  · subst latch
    by_cases member : x ∈ headers analyses polls w
    · rw [headers] at member
      simp [member]
    · -- all the edges to this header are split already
      have lt := first.lt_visits dominates isEdge fun i isWhole =>
        member (mem_headers.mpr ⟨dominates, i, unsplit_eq_some.mp isWhole⟩)
      rw [headers] at member
      simp only [member, and_false, if_false, if_true]
      omega
  · simp [latch]

/-- The edges that are split, after so many visits of each latch. -/
theorem firstEdges_pollsNeeded :
    FirstEdges analyses (pollsNeeded order) fun u _ => (pollLocations order).count u := by
  have all : ∀ (latches : List Nat) (polls : List (Nat × Nat)) (visits : Nat → Nat → Nat),
      FirstEdges analyses polls visits → FirstEdges analyses
        (latches.foldl (PlaceSafepointsPass.pollLatch analyses) polls)
        fun u h => visits u h + latches.count u := by
    intro latches
    induction latches with
    | nil => simp
    | cons latch latches ih =>
        intro polls visits first
        have rest := ih _ _ (first.pollLatch (u := latch))
        rw [List.foldl_cons]
        convert rest using 3 with u h
        by_cases same : u = latch
        · subst same
          simp [List.count_cons_self, Nat.add_assoc, Nat.add_comm 1]
        · simp [same, List.count_cons_of_ne (Ne.symm same)]
  have none : FirstEdges analyses [] fun _ _ => 0 := fun u i => by simp
  simpa [pollsNeeded] using all (pollLocations order) [] _ none

/-- An edge is skipped when it is no back edge, or one more than the visits of its latch. -/
theorem skips_iff (reached : Reached f.Edge 0 u) :
    Skips order u v ↔ f.Edge u v ∧ (¬ Dominates f.Edge 0 v u ∨
      (pollLocations order).count u < (f.successors u).count v) := by
  have polled : ∀ i, (f.successors u)[i]? = some v → ((u, i) ∈ pollsNeeded order ↔
      Dominates f.Edge 0 v u ∧
        ((f.successors u).take i).count v < (pollLocations order).count u) := by
    intro i isEdge
    rw [firstEdges_pollsNeeded u i, ← analyses.dominates_iff v u reached]
    constructor
    · rintro ⟨h, isEdge', dominates, lt⟩
      rw [isEdge, Option.some.injEq] at isEdge'
      subst isEdge'
      exact ⟨dominates, lt⟩
    · exact fun ⟨dominates, lt⟩ => ⟨v, isEdge, dominates, lt⟩
  constructor
  · rintro ⟨i, isEdge, unpolled⟩
    refine ⟨List.mem_of_getElem? isEdge, ?_⟩
    by_cases back : Dominates f.Edge 0 v u
    · rw [polled i isEdge, not_and, Nat.not_lt] at unpolled
      exact Or.inr (Nat.lt_of_le_of_lt (unpolled back) (count_take_lt_count isEdge))
    · exact Or.inl back
  · rintro ⟨edge, forward | more⟩
    · rcases List.mem_iff_getElem?.mp edge with ⟨i, isEdge⟩
      exact ⟨i, isEdge, fun isPolled => forward ((polled i isEdge).mp isPolled).1⟩
    · rcases exists_occurrence more with ⟨i, isEdge, count⟩
      refine ⟨i, isEdge, fun isPolled => ?_⟩
      have lt := ((polled i isEdge).mp isPolled).2
      omega

/-- With different names equal latches are neighbours, and each is visited once. -/
theorem count_pollLocations (named : ∀ a b, order.name a = order.name b → a = b) (u : Nat) :
    (pollLocations order).count u ≤ 1 := by
  have antisymm : Std.Antisymm fun a b => ¬ order.name b < order.name a :=
    ⟨fun a b le ge => named a b (le_antisymm (not_lt.mp le) (not_lt.mp ge))⟩
  rw [pollLocations, order.byName.destutter_eq_dedup]
  exact List.nodup_iff_count_le_one.mp (List.nodup_dedup _) u

/-- The blocks may all be without a name. -/
instance : Nonempty (PollOrder analyses) :=
  ⟨⟨fun _ => "", _, List.Perm.refl _, List.pairwise_of_forall fun _ _ => lt_irrefl _⟩⟩

/-- Every function has such analyses. -/
theorem nonempty_analyses (f : Cfg Inst) : Nonempty (Analyses f) := by
  classical
  let isLatch : Nat → Nat → Prop := fun h u =>
    Reached f.Edge 0 u ∧ f.Edge u h ∧ Dominates f.Edge 0 h u
  let blocks := List.range f.blocks.length
  refine ⟨⟨fun a b => decide (Dominates f.Edge 0 a b),
    blocks.map fun h => ⟨h, blocks.filter fun u => decide (isLatch h u)⟩, ?_, ?_, ?_⟩⟩
  · exact fun a b _ => decide_eq_true_iff
  · intro loop isLoop u member
    rcases List.mem_map.mp isLoop with ⟨h, _, rfl⟩
    exact decide_eq_true_iff.mp (List.mem_filter.mp member).2
  · intro u h reached edge dominates
    have inside : u < f.blocks.length := by
      by_contra outside
      have noBlock : f.blocks[u]? = none := List.getElem?_eq_none (Nat.not_lt.mp outside)
      simp [Cfg.Edge, Cfg.successors, noBlock] at edge
    have target : h < f.blocks.length := f.successors_lt edge
    refine ⟨_, List.mem_map_of_mem (List.mem_range.mpr target), rfl, ?_⟩
    rw [List.mem_filter]
    exact ⟨List.mem_range.mpr inside, decide_eq_true_iff.mpr ⟨reached, edge, dominates⟩⟩

theorem lt_of_reached (reached : Reached f.Edge 0 u) : u < f.blocks.length := by
  rcases reached with ⟨visited, path⟩
  cases path with
  | entry => exact List.length_pos_of_ne_nil f.nonempty
  | step _ edge => exact f.successors_lt edge

/-! ## Between two polls -/

/--
Every path without a poll visits at most as many blocks as the function has exactly when every
cycle has a block that dominates it, and no back edge is there more often than its latch is in
the list of poll locations; that is once when the blocks have different names.
-/
theorem polls_bound_iff (order : PollOrder analyses) :
    ((∀ path : List Nat, path.IsChain (Skips order) → (∀ u ∈ path, Reached f.Edge 0 u) →
        path.length ≤ f.blocks.length) ↔
      (∀ c : Cycle Nat, c ≠ Cycle.nil → c.Nodup → c.Chain f.Edge →
        (∀ u ∈ c, Reached f.Edge 0 u) → ∃ h ∈ c, ∀ u ∈ c, Dominates f.Edge 0 h u) ∧
      ∀ u h, Reached f.Edge 0 u → f.Edge u h → Dominates f.Edge 0 h u →
        (f.successors u).count h ≤ (pollLocations order).count u) ∧
    ((∀ a b, order.name a = order.name b → a = b) → ∀ u, (pollLocations order).count u ≤ 1) := by
  refine ⟨?_, count_pollLocations⟩
  have inside : ∀ u, Reached f.Edge 0 u → u ∈ Finset.range f.blocks.length := fun u reached =>
    Finset.mem_range.mpr (lt_of_reached reached)
  have bound := @bounded_iff _ f.Edge (Skips order) 0 _ (Finset.range f.blocks.length) inside
  rw [Finset.card_range] at bound
  rw [bound]
  have forward : ∀ {u v}, Forward f.Edge 0 u v → Skips order u v := fun edge =>
    (skips_iff edge.1).mpr ⟨edge.2.1, Or.inl edge.2.2⟩
  constructor
  · intro acyclic
    refine ⟨fun c nonempty nodup chain reached => ?_, fun u h reached edge dominates => ?_⟩
    · rw [exists_dominator_iff nodup chain nonempty reached]
      intro allForward
      exact acyclic c nonempty nodup reached (allForward.imp fun _ _ => forward)
    · by_contra more
      -- an edge back to the header that is not split closes a cycle without a poll
      rcases exists_forward_path reached dominates with ⟨m, nodup, chain, last, inside⟩
      refine acyclic (h :: m : List Nat) (by simp) (Cycle.nodup_coe_iff.mpr nodup) inside ?_
      rw [Cycle.chain_coe_cons, ← List.cons_append, List.isChain_append]
      refine ⟨chain.imp fun _ _ => forward, .singleton h, fun x isLast y isFirst => ?_⟩
      obtain rfl := Option.some.inj (last.symm.trans isLast)
      obtain rfl := Option.some.inj isFirst
      exact (skips_iff reached).mpr ⟨edge, Or.inr (Nat.not_le.mp more)⟩
  · rintro ⟨dominated, split⟩ c nonempty nodup reached skips
    have edges : c.Chain f.Edge := skips.imp fun _ _ ⟨_, isEdge, _⟩ => List.mem_of_getElem? isEdge
    rcases dominated c nonempty nodup edges reached with ⟨h, member, dominates⟩
    rcases exists_edge_to skips member with ⟨u, inside, skip⟩
    rcases (skips_iff (reached u inside)).mp skip with ⟨edge, forward | more⟩
    · exact forward (dominates u inside)
    · have enough := split u h (reached u inside) edge (dominates u inside)
      omega

/-! ## The poll at the entry -/

section Entry

variable (f : Cfg Instruction)

/-- Is the call an intrinsic that cannot run for long? -/
def doesNotRequireEntrySafepointBefore (site : CallSite) : Bool :=
  site.isIntrinsic && !site.calls fun name =>
    startswith name "llvm.experimental.gc.statepoint" ||
      name == "llvm.experimental.patchpoint.void" || name == "llvm.experimental.patchpoint.i64"

/-- Does the search stop at the instruction? An intrinsic is called by no invoke. -/
def stopsAt (p : Point) : Bool :=
  match f.inst p with
  | some (.call site) => !doesNotRequireEntrySafepointBefore site
  | some (.invoke _ _ _) => true
  | _ => false

def getUniqueSuccessor (b : Nat) : Option Nat :=
  match (f.successors b).dedup with
  | [target] => some target
  | _ => none

def getUniquePredecessor (b : Nat) : Option Nat :=
  match (f.predecessors b).dedup with
  | [source] => some source
  | _ => none

/-- `NextInstruction`, where `HasNextInstruction` holds. -/
def nextInstruction (p : Point) : Option Point :=
  if f.isTerminator p then
    (getUniqueSuccessor f p.1).bind fun nextBB =>
      (getUniquePredecessor f nextBB).map fun _ => (nextBB, 0)
  else
    some (p.1, p.2 + 1)

/-- The loop of `findLocationForEntrySafepoint`, with a bound on its steps. -/
def findLocationFrom : Nat → Point → Option Point
  | 0, _ => none
  | fuel + 1, cursor =>
      match nextInstruction f cursor with
      | none => some cursor
      | some next => if stopsAt f cursor then some cursor else findLocationFrom fuel next

/-- The instruction before which the entry is polled. -/
def findLocationForEntrySafepoint : Option Point :=
  findLocationFrom f f.points.card Cfg.entry

/-- An edge between points. -/
def PointEdge (p q : Point) : Prop := q ∈ f.succ Terminator.successors p

variable {f} {p q cursor next : Point} {earlier : List Point}

/--
The points that the search has left behind: control cannot leave them but to the cursor, and
the cursor came to each of them along its only edge.
-/
structure Straight (f : Cfg Instruction) (earlier : List Point) (cursor : Point) : Prop where
  fromEntry : Cfg.entry ∈ cursor :: earlier
  inside : ∀ p ∈ cursor :: earlier, ∃ block, f.At p block
  leads : ∀ p ∈ earlier, ∀ q, PointEdge f p q → q ∈ cursor :: earlier
  comes : ∀ p ∈ cursor :: earlier, p = Cfg.entry ∨ ∃ q ∈ earlier, PointEdge f q p
  nodup : (cursor :: earlier).Nodup
  passed : ∀ p ∈ earlier, stopsAt f p = false

/-- A path has come by the cursor, or it has not left the points behind it. -/
theorem Straight.path (straight : Straight f earlier cursor) {visited : List Point}
    (path : Path (PointEdge f) Cfg.entry visited q) : cursor ∈ visited ∨ q ∈ earlier := by
  induction path with
  | entry =>
      rcases List.mem_cons.mp straight.fromEntry with same | behind
      · exact Or.inl (same ▸ List.mem_cons_self)
      · exact Or.inr behind
  | @step visited p q _ edge ih =>
      rcases ih with passed | behind
      · exact Or.inl (List.mem_cons_of_mem _ passed)
      · rcases List.mem_cons.mp (straight.leads p behind q edge) with rfl | behind'
        · exact Or.inl List.mem_cons_self
        · exact Or.inr behind'

theorem getUniqueSuccessor_eq_some {b target : Nat}
    (isUnique : getUniqueSuccessor f b = some target) :
    ∀ other, other ∈ f.successors b ↔ other = target := by
  intro other
  unfold getUniqueSuccessor at isUnique
  split at isUnique
  · next only =>
      obtain rfl := Option.some.inj isUnique
      rw [← List.mem_dedup, only, List.mem_singleton]
  · cases isUnique

theorem getUniquePredecessor_eq_some {b source : Nat}
    (isUnique : getUniquePredecessor f b = some source) :
    ∀ other, other ∈ f.predecessors b ↔ other = source := by
  intro other
  unfold getUniquePredecessor at isUnique
  split at isUnique
  · next only =>
      obtain rfl := Option.some.inj isUnique
      rw [← List.mem_dedup, only, List.mem_singleton]
  · cases isUnique

/-- The search goes along the only edge from the cursor, which is the only one to the next. -/
theorem edge_of_nextInstruction {block : Block Instruction} (isAt : f.At p block)
    (isNext : nextInstruction f p = some next) (noEdge : ∀ b, 0 ∉ f.successors b) :
    (∀ q, PointEdge f p q ↔ q = next) ∧ (∀ q, PointEdge f q next → q = p) ∧
      next ≠ Cfg.entry := by
  have isBlock := isAt.isBlock
  unfold nextInstruction at isNext
  cases isTerminator : f.isTerminator p with
  | false =>
      rw [isTerminator, if_neg (by simp), Option.some.injEq] at isNext
      subst isNext
      have lt : p.2 < block.body.length := by
        refine Nat.lt_of_le_of_ne isAt.position fun last => ?_
        simp [Cfg.isTerminator, isBlock, last] at isTerminator
      refine ⟨fun q => ?_, fun q edge => Cfg.eq_of_mem_succ edge, fun same => ?_⟩
      rotate_left
      · exact Nat.succ_ne_zero p.2 (congrArg Prod.snd same)
      simp [PointEdge, Cfg.succ, isBlock, lt]
  | true =>
      rw [isTerminator, if_pos rfl, Option.bind_eq_some_iff] at isNext
      rcases isNext with ⟨nextBB, isTarget, hasSource⟩
      rcases Option.map_eq_some_iff.mp hasSource with ⟨source, isSource, rfl⟩
      have last : p.2 = block.body.length := by
        simpa [Cfg.isTerminator, isBlock] using isTerminator
      have targets := getUniqueSuccessor_eq_some isTarget
      have sources := getUniquePredecessor_eq_some isSource
      have member : nextBB ∈ f.successors p.1 := (targets nextBB).mpr rfl
      have from_p : p.1 = source :=
        (sources p.1).mp (Cfg.mem_predecessors_of_mem_successors member)
      have inBlock : ∀ b, b ∈ block.terminator.successors ↔ b = nextBB := by
        simpa [Cfg.successors, isBlock] using targets
      refine ⟨fun q => ?_, fun q edge => ?_, fun same => ?_⟩
      · simp [PointEdge, Cfg.succ, isBlock, last, inBlock, eq_comm]
      · rcases Cfg.mem_succ.mp edge with ⟨other, isOther, ⟨_, same⟩ | ⟨ends, b, isEdge, same⟩⟩
        · cases same
        · obtain rfl : b = nextBB := (Prod.mk.inj same).1.symm
          have isOnly := Cfg.mem_predecessors.mpr ⟨other, isOther, isEdge⟩
          have sameBlock : q.1 = p.1 := ((sources q.1).mp isOnly).trans from_p.symm
          rw [sameBlock, isBlock] at isOther
          obtain rfl := Option.some.inj isOther
          exact Prod.ext sameBlock (ends.trans last.symm)
      · obtain rfl : nextBB = 0 := (Prod.mk.inj same).1
        exact noEdge p.1 member

theorem Straight.advance (straight : Straight f earlier cursor)
    (isNext : nextInstruction f cursor = some next) (goes : stopsAt f cursor = false)
    (noEdge : ∀ b, 0 ∉ f.successors b) : Straight f (cursor :: earlier) next := by
  rcases straight.inside cursor List.mem_cons_self with ⟨block, isAt⟩
  rcases edge_of_nextInstruction isAt isNext noEdge with ⟨out, into, notEntry⟩
  have edge : PointEdge f cursor next := (out next).mpr rfl
  refine ⟨List.mem_cons_of_mem _ straight.fromEntry, ?_, ?_, ?_, ?_, ?_⟩
  · refine List.forall_mem_cons.mpr ⟨?_, straight.inside⟩
    exact Cfg.exists_at_of_mem_succ (fun _ => List.Subset.refl _) edge
  · refine List.forall_mem_cons.mpr ⟨fun q edge => ?_, fun p behind q edge => ?_⟩
    · rw [(out q).mp edge]
      exact List.mem_cons_self
    · exact List.mem_cons_of_mem _ (straight.leads p behind q edge)
  · refine List.forall_mem_cons.mpr ⟨Or.inr ⟨cursor, List.mem_cons_self, edge⟩, ?_⟩
    intro p member
    rcases straight.comes p member with isEntry | ⟨q, behind, edge⟩
    · exact Or.inl isEntry
    · exact Or.inr ⟨q, List.mem_cons_of_mem _ behind, edge⟩
  · refine List.nodup_cons.mpr ⟨fun again => ?_, straight.nodup⟩
    -- the search would have come here from the cursor before
    rcases straight.comes next again with isEntry | ⟨q, behind, edge⟩
    · exact notEntry isEntry
    · exact (List.nodup_cons.mp straight.nodup).1 (into q edge ▸ behind)
  · exact List.forall_mem_cons.mpr ⟨goes, straight.passed⟩

theorem Straight.length_le (straight : Straight f earlier cursor) :
    earlier.length + 1 ≤ f.points.card := by
  have inside : (cursor :: earlier).toFinset ⊆ f.points := fun p member =>
    Cfg.mem_points.mpr (straight.inside p (List.mem_toFinset.mp member))
  have le := Finset.card_le_card inside
  rwa [List.toFinset_card_of_nodup straight.nodup] at le

/-- The search ends, and at a point that every path to a call that it stops at passes. -/
theorem Straight.findLocation (noEdge : ∀ b, 0 ∉ f.successors b) {fuel : Nat}
    (straight : Straight f earlier cursor) (enough : f.points.card ≤ fuel + earlier.length) :
    ∃ location, findLocationFrom f fuel cursor = some location ∧
      ∀ q, stopsAt f q = true → Dominates (PointEdge f) Cfg.entry location q := by
  induction fuel generalizing earlier cursor with
  | zero =>
      have := straight.length_le
      omega
  | succ fuel ih =>
      have found : ∀ q, stopsAt f q = true → Dominates (PointEdge f) Cfg.entry cursor q := by
        intro q stops visited path
        rcases straight.path path with passed | behind
        · exact passed
        · rw [straight.passed q behind] at stops
          cases stops
      rw [findLocationFrom]
      cases isNext : nextInstruction f cursor with
      | none => exact ⟨cursor, rfl, found⟩
      | some next =>
          cases goes : stopsAt f cursor with
          | true => exact ⟨cursor, rfl, found⟩
          | false =>
              have advanced := straight.advance isNext goes noEdge
              exact ih advanced (by rw [List.length_cons]; omega)

/--
The search for the poll at the entry ends, and every path from the entry to a call that may
run for long passes the poll first, when no edge leads back to the entry block.
-/
theorem entry_poll_dominates (f : Cfg Instruction) (noEdge : ∀ b, 0 ∉ f.successors b) :
    ∃ location, findLocationForEntrySafepoint f = some location ∧
      ∀ q, stopsAt f q = true → Dominates (PointEdge f) Cfg.entry location q := by
  rcases f.exists_entry with ⟨block, isAt⟩
  have straight : Straight f [] Cfg.entry :=
    ⟨List.mem_cons_self, by simpa using ⟨block, isAt⟩, by simp, by simp, by simp, by simp⟩
  exact straight.findLocation noEdge (Nat.le_refl _)

/-- A parallel region whose work is a call in a loop; its first call is an intrinsic. -/
def outlined : Cfg Instruction where
  blocks :=
    [⟨[.call ⟨.function "llvm.memset.p0.i64", false, true⟩], .terminator [1], .br [1]⟩,
      ⟨[.other], .terminator [2], .br [2]⟩,
      ⟨[.call ⟨.function "work", false, true⟩], .terminator [2, 3], .br [2, 3]⟩,
      ⟨[], .other, .other []⟩]
  nonempty := by decide
  closed := by decide

theorem entry_poll_dominates_outlined :
    findLocationForEntrySafepoint outlined = some (1, 1) ∧
      Dominates (PointEdge outlined) Cfg.entry (1, 1) (2, 0) := by
  have noEdge : ∀ b, 0 ∉ outlined.successors b := by
    intro b
    match b with
    | 0 | 1 | 2 | 3 => decide
    | b + 4 => simp [Cfg.successors, outlined]
  have computed : findLocationForEntrySafepoint outlined = some (1, 1) := by decide
  rcases entry_poll_dominates outlined noEdge with ⟨location, found, dominates⟩
  obtain rfl : location = (1, 1) := Option.some.inj (found.symm.trans computed)
  exact ⟨computed, dominates (2, 0) (by decide)⟩

end Entry

end PlaceSafepointsPass

end Alaska
