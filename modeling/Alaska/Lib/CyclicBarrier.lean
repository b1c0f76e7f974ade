import Mathlib.Data.List.Nodup
import Mathlib.Data.List.Count
import Mathlib.Logic.Function.Basic

/-!
# Cyclic barriers

A barrier for a fixed list of parties that is used again and again. A party arrives, is
parked until all parties have arrived, and passes once the generation it arrived in is over.
-/

universe u

structure CyclicBarrier (Party : Type u) where
  /-- The generation that a party has arrived in and not passed yet. -/
  waiting : Party → Option Nat
  generation : Nat
  arrived : Nat

namespace CyclicBarrier

variable {Party : Type u}

def empty : CyclicBarrier Party := ⟨fun _ => none, 0, 0⟩

/-- A party waits for others of its generation. -/
def Parked (b : CyclicBarrier Party) (p : Party) : Prop := b.waiting p = some b.generation

instance (b : CyclicBarrier Party) (p : Party) : Decidable (b.Parked p) :=
  inferInstanceAs (Decidable (b.waiting p = some b.generation))

section Operations

variable [DecidableEq Party]

/-- The last party to arrive ends the generation. -/
def arrive (parties : List Party) (b : CyclicBarrier Party) (p : Party) : CyclicBarrier Party :=
  let waiting := Function.update b.waiting p (some b.generation)
  if b.arrived + 1 = parties.length then ⟨waiting, b.generation + 1, 0⟩
  else ⟨waiting, b.generation, b.arrived + 1⟩

/-- A party goes on; parked parties cannot. -/
def pass (b : CyclicBarrier Party) (p : Party) : CyclicBarrier Party :=
  { b with waiting := Function.update b.waiting p none }

end Operations

/-- The barrier counts its parked parties, and not all are parked. -/
structure Counts (parties : List Party) (b : CyclicBarrier Party) : Prop where
  arrived : b.arrived = parties.countP fun p => decide (b.Parked p)
  lt : b.arrived < parties.length
  past : ∀ p g, b.waiting p = some g → g ≤ b.generation

variable {parties : List Party} {b : CyclicBarrier Party} {p q : Party}

@[simp]
theorem parked_empty : ¬ (empty : CyclicBarrier Party).Parked p := by
  simp [Parked, empty]

theorem counts_empty (nonempty : parties ≠ []) : Counts parties (empty : CyclicBarrier Party) where
  arrived := by simp [empty, Parked]
  lt := List.length_pos_iff.mpr nonempty
  past := by simp [empty]

variable [DecidableEq Party]

@[simp]
theorem parked_pass_self : ¬ (b.pass p).Parked p := by
  simp [Parked, pass]

theorem parked_pass_of_ne (ne : q ≠ p) : (b.pass p).Parked q ↔ b.Parked q := by
  simp [Parked, pass, ne]

/-- A count that gains one element. -/
theorem countP_gain {before after : Party → Bool} (nodup : parties.Nodup) (member : p ∈ parties)
    (new : before p = false) (now : after p = true)
    (same : ∀ q, q ≠ p → after q = before q) :
    parties.countP after = parties.countP before + 1 := by
  have split := List.perm_cons_erase member
  have rest : (parties.erase p).countP after = (parties.erase p).countP before := by
    apply List.countP_congr
    intro q isRest
    have ne : q ≠ p := by
      rintro rfl
      exact nodup.not_mem_erase isRest
    rw [same q ne]
  rw [split.countP_eq, split.countP_eq, List.countP_cons_of_pos now,
    List.countP_cons_of_neg (by simp [new]), rest]

/-- All parties but one are parked when they are as many. -/
theorem others_parked (member : p ∈ parties) (free : ¬ b.Parked p)
    (counts : Counts parties b) (last : b.arrived + 1 = parties.length) :
    ∀ q ∈ parties, q ≠ p → b.Parked q := by
  have split := List.perm_cons_erase member
  have total := counts.arrived
  rw [split.countP_eq, List.countP_cons_of_neg (by simp [free])] at total
  have length := List.length_erase_add_one member
  have full : (parties.erase p).countP (fun q => decide (b.Parked q)) =
      (parties.erase p).length := by
    omega
  intro q isParty ne
  have rest : q ∈ parties.erase p := (List.mem_erase_of_ne ne).mpr isParty
  simpa using List.countP_eq_length.mp full q rest

/-- Passing keeps the counts. -/
theorem Counts.pass (counts : Counts parties b) (free : ¬ b.Parked p) :
    Counts parties (b.pass p) where
  arrived := by
    rw [show (b.pass p).arrived = b.arrived from rfl, counts.arrived]
    apply List.countP_congr
    intro q _
    by_cases equal : q = p
    · subst q
      simp [free]
    · simp [parked_pass_of_ne equal]
  lt := counts.lt
  past := by
    intro q g waits
    by_cases equal : q = p
    · simp [CyclicBarrier.pass, equal] at waits
    · exact counts.past q g (by simpa [CyclicBarrier.pass, equal] using waits)

/--
The arrival of a party either ends the generation, when all others are parked, and leaves
nobody parked, or parks the party.
-/
theorem Counts.arrive (counts : Counts parties b) (nodup : parties.Nodup) (member : p ∈ parties)
    (free : b.waiting p = none) :
    Counts parties (b.arrive parties p) ∧
      ((∀ q ∈ parties, q ≠ p → b.Parked q) ∧ (∀ q, ¬ (b.arrive parties p).Parked q) ∨
        (b.arrive parties p).Parked p ∧
          ∀ q, q ≠ p → ((b.arrive parties p).Parked q ↔ b.Parked q)) := by
  have unparked : ¬ b.Parked p := by simp [Parked, free]
  by_cases last : b.arrived + 1 = parties.length
  · have others := others_parked member unparked counts last
    have past : ∀ q g, (b.arrive parties p).waiting q = some g → g ≤ b.generation := by
      intro q g waits
      rw [CyclicBarrier.arrive, if_pos last] at waits
      by_cases equal : q = p
      · have : b.generation = g := by simpa [equal] using waits
        omega
      · exact counts.past q g (by simpa [equal] using waits)
    have ended : (b.arrive parties p).generation = b.generation + 1 := by
      rw [CyclicBarrier.arrive, if_pos last]
    have released : ∀ q, ¬ (b.arrive parties p).Parked q := by
      intro q parked
      have := past q _ parked
      omega
    refine ⟨⟨?_, ?_, ?_⟩, .inl ⟨others, released⟩⟩
    · rw [show (b.arrive parties p).arrived = 0 by rw [CyclicBarrier.arrive, if_pos last]]
      exact (List.countP_eq_zero.mpr fun q _ => by simpa using released q).symm
    · rw [show (b.arrive parties p).arrived = 0 by rw [CyclicBarrier.arrive, if_pos last]]
      omega
    · exact fun q g waits => Nat.le_trans (past q g waits) (by omega)
  · have self : (b.arrive parties p).Parked p := by
      rw [CyclicBarrier.arrive, if_neg last]
      simp [Parked]
    have same : ∀ q, q ≠ p → ((b.arrive parties p).Parked q ↔ b.Parked q) := by
      intro q ne
      rw [CyclicBarrier.arrive, if_neg last]
      simp [Parked, ne]
    refine ⟨⟨?_, ?_, ?_⟩, .inr ⟨self, same⟩⟩
    · rw [show (b.arrive parties p).arrived = b.arrived + 1 by
        rw [CyclicBarrier.arrive, if_neg last], counts.arrived]
      refine (countP_gain nodup member ?_ ?_ ?_).symm
      · simpa using unparked
      · simpa using self
      · intro q ne
        simp [same q ne]
    · rw [show (b.arrive parties p).arrived = b.arrived + 1 by
        rw [CyclicBarrier.arrive, if_neg last]]
      have := counts.lt
      omega
    · intro q g waits
      rw [CyclicBarrier.arrive, if_neg last] at waits ⊢
      by_cases equal : q = p
      · have : b.generation = g := by simpa [equal] using waits
        simp only
        omega
      · exact counts.past q g (by simpa [equal] using waits)

end CyclicBarrier
