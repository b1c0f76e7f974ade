import Mathlib.Data.Finset.Option
import Mathlib.Data.Finset.Union
import Mathlib.Data.Fintype.EquivFin
import Mathlib.Data.Nat.Find

/-!
# First-fit colouring

The vertices of a graph are coloured one after the other, each with the least colour that
none of its neighbours has. In whatever order that is done, neighbours get different colours
and the colours stay below the number of vertices.
-/

namespace FirstFit

universe u

variable {Vertex : Type u} [DecidableEq Vertex]

/-- The least number that is not used. -/
def firstFree (used : Finset Nat) : Nat := Nat.find (Infinite.exists_notMem_finset used)

/-- The colours of the vertices. -/
def used (colours : Vertex → Option Nat) (vertices : Finset Vertex) : Finset Nat :=
  vertices.biUnion fun v => (colours v).toFinset

/-- Colours one vertex. -/
def place (neighbours : Vertex → Finset Vertex) (colours : Vertex → Option Nat) (v : Vertex) :
    Vertex → Option Nat :=
  Function.update colours v (some (firstFree (used colours (neighbours v))))

/-- Colours the vertices of a list. -/
def colour (neighbours : Vertex → Finset Vertex) (order : List Vertex) : Vertex → Option Nat :=
  order.foldl (place neighbours) fun _ => none

theorem firstFree_notMem (used : Finset Nat) : firstFree used ∉ used :=
  Nat.find_spec (Infinite.exists_notMem_finset used)

/-- All smaller numbers are used, so there are at least as many. -/
theorem firstFree_le_card (used : Finset Nat) : firstFree used ≤ used.card := by
  have smaller : Finset.range (firstFree used) ⊆ used := by
    intro n lt
    by_contra unused
    exact Nat.find_min (Infinite.exists_notMem_finset used) (Finset.mem_range.mp lt) unused
  simpa using Finset.card_le_card smaller

omit [DecidableEq Vertex] in
theorem mem_used {colours : Vertex → Option Nat} {vertices : Finset Vertex} {n : Nat} :
    n ∈ used colours vertices ↔ ∃ v ∈ vertices, colours v = some n := by
  simp [used]

/-- What holds when the vertices of `done` have been coloured. -/
structure Coloured (neighbours : Vertex → Finset Vertex) (done : List Vertex)
    (colours : Vertex → Option Nat) : Prop where
  some_iff : ∀ v, (colours v).isSome ↔ v ∈ done
  lt : ∀ v n, colours v = some n → n < done.length
  proper : ∀ u v n, u ∈ neighbours v → u ≠ v → colours u = some n → colours v ≠ some n

variable {neighbours : Vertex → Finset Vertex} {colours : Vertex → Option Nat}
  {order done : List Vertex} {v : Vertex}

omit [DecidableEq Vertex] in
/-- There are no more colours than coloured vertices. -/
theorem Coloured.used_card_le (coloured : Coloured neighbours done colours)
    (vertices : Finset Vertex) : (used colours vertices).card ≤ done.length := by
  have bounded : used colours vertices ⊆ Finset.range done.length := by
    intro n member
    rcases mem_used.mp member with ⟨v, _, isColour⟩
    exact Finset.mem_range.mpr (coloured.lt v n isColour)
  simpa using Finset.card_le_card bounded

theorem Coloured.place (symmetric : ∀ u ∈ done, v ∈ neighbours u → u ∈ neighbours v)
    (coloured : Coloured neighbours done colours) (fresh : v ∉ done) :
    Coloured neighbours (done ++ [v]) (place neighbours colours v) := by
  have free := firstFree_notMem (used colours (neighbours v))
  have bound := (firstFree_le_card _).trans (coloured.used_card_le (neighbours v))
  refine ⟨fun u => ?_, fun u n isColour => ?_, fun u w n adjacent ne first second => ?_⟩
  · by_cases equal : u = v
    · simp [FirstFit.place, equal]
    · simp [FirstFit.place, equal, coloured.some_iff]
  · rw [List.length_append, List.length_singleton]
    by_cases equal : u = v
    · simp only [FirstFit.place, equal, Function.update_self, Option.some.injEq] at isColour
      omega
    · simp only [FirstFit.place, Function.update_of_ne equal] at isColour
      exact Nat.lt_succ_of_lt (coloured.lt u n isColour)
  · -- an edge between the new vertex and an older one, either way, or between older ones
    simp only [FirstFit.place, Function.update_apply] at first second
    split at first
    · next equal =>
        subst equal
        rw [if_neg (Ne.symm ne)] at second
        obtain rfl := Option.some.inj first
        have isDone := (coloured.some_iff w).mp (by rw [second]; rfl)
        exact free (mem_used.mpr ⟨w, symmetric w isDone adjacent, second⟩)
    · split at second
      · next equal =>
          subst equal
          obtain rfl := Option.some.inj second
          exact free (mem_used.mpr ⟨u, adjacent, first⟩)
      · exact coloured.proper u w n adjacent ne first second

theorem Coloured.foldl
    (symmetric : ∀ u ∈ done ++ order, ∀ v ∈ done ++ order, v ∈ neighbours u → u ∈ neighbours v)
    (coloured : Coloured neighbours done colours) (nodup : (done ++ order).Nodup) :
    Coloured neighbours (done ++ order) (order.foldl (FirstFit.place neighbours) colours) := by
  induction order generalizing done colours with
  | nil => simpa using coloured
  | cons v order ih =>
      have fresh : v ∉ done := by
        intro member
        exact (List.nodup_append.mp nodup).2.2 v member v (List.mem_cons_self ..) rfl
      have next := coloured.place (v := v)
        (fun u isDone => symmetric u (by simp [isDone]) v (by simp)) fresh
      rw [List.append_cons] at nodup symmetric ⊢
      exact ih symmetric next nodup

theorem colour_coloured
    (symmetric : ∀ u ∈ order, ∀ v ∈ order, v ∈ neighbours u → u ∈ neighbours v)
    (nodup : order.Nodup) : Coloured neighbours order (colour neighbours order) := by
  have start : Coloured neighbours [] fun _ => none :=
    ⟨by simp, by simp, by simp⟩
  exact start.foldl symmetric nodup

end FirstFit
