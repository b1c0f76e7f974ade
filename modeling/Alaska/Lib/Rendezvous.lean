import Alaska.Lib.CyclicBarrier

/-!
# Meeting twice at a barrier

Parties that wait for each other twice: they meet, are inside together, and part. Whatever
the interleaving, one party is inside only when all are. A party without others does not
wait.
-/

universe u

/-- Where a party is: outside, waiting to enter, inside, or waiting to leave. -/
inductive Rendezvous.Phase where
  | outside
  | meeting
  | inside
  | parting
  deriving DecidableEq

structure Rendezvous (Party : Type u) where
  phase : Party → Rendezvous.Phase
  barrier : CyclicBarrier Party

namespace Rendezvous

variable {Party : Type u}

/-- A party is between the release of the first wait and that of the second. -/
def Inside (r : Rendezvous Party) (p : Party) : Prop :=
  r.phase p = .inside ∨ r.phase p = .meeting ∧ ¬ r.barrier.Parked p ∨
    r.phase p = .parting ∧ r.barrier.Parked p

structure Invariant (parties : List Party) (r : Rendezvous Party) : Prop where
  counts : r.barrier.Counts parties
  waits : ∀ p, r.barrier.waiting p = none ↔ r.phase p = .outside ∨ r.phase p = .inside
  agree : ∀ p q, r.Inside p → r.Inside q

variable {parties : List Party} {r r' : Rendezvous Party} {p q : Party}

theorem invariant_start (nonempty : parties ≠ []) :
    Invariant parties ⟨fun _ : Party => .outside, .empty⟩ where
  counts := CyclicBarrier.counts_empty nonempty
  waits := by simp [CyclicBarrier.empty]
  agree := by simp [Inside]

/-- A parked party is in one of the two waits. -/
theorem Invariant.parked (invariant : Invariant parties r) (parked : r.barrier.Parked p) :
    r.phase p = .meeting ∨ r.phase p = .parting := by
  have waits := invariant.waits p
  rw [CyclicBarrier.Parked] at parked
  simp only [parked, reduceCtorEq, false_iff, not_or] at waits
  cases phase : r.phase p with
  | outside => exact absurd phase waits.1
  | inside => exact absurd phase waits.2
  | meeting => exact .inl rfl
  | parting => exact .inr rfl

/-- When the other parties are parked around a party that is outside, they all meet. -/
theorem Invariant.all_meeting (invariant : Invariant parties r) (isOutside : r.phase p = .outside)
    (parked : r.barrier.Parked q) : r.phase q = .meeting := by
  rcases invariant.parked parked with meets | parts
  · exact meets
  · have inside := invariant.agree q p (.inr (.inr ⟨parts, parked⟩))
    simp [Inside, isOutside] at inside

/-- When the other parties are parked around a party that is inside, they all part. -/
theorem Invariant.all_parting (invariant : Invariant parties r) (isInside : r.phase p = .inside)
    (parked : r.barrier.Parked q) : r.phase q = .parting := by
  rcases invariant.parked parked with meets | parts
  · have inside := invariant.agree p q (.inl isInside)
    simp [Inside, meets, parked] at inside
  · exact parts

variable [DecidableEq Party]

inductive Step (parties : List Party) : Rendezvous Party → Rendezvous Party → Prop where
  | meet {r : Rendezvous Party} {p : Party} (isOutside : r.phase p = .outside) :
      Step parties r ⟨Function.update r.phase p .meeting, r.barrier.arrive parties p⟩
  | enter {r : Rendezvous Party} {p : Party} (meets : r.phase p = .meeting)
      (released : ¬ r.barrier.Parked p) :
      Step parties r ⟨Function.update r.phase p .inside, r.barrier.pass p⟩
  | part {r : Rendezvous Party} {p : Party} (isInside : r.phase p = .inside) :
      Step parties r ⟨Function.update r.phase p .parting, r.barrier.arrive parties p⟩
  | exit {r : Rendezvous Party} {p : Party} (parts : r.phase p = .parting)
      (released : ¬ r.barrier.Parked p) :
      Step parties r ⟨Function.update r.phase p .outside, r.barrier.pass p⟩
  | enterAlone {r : Rendezvous Party} {p : Party} (isOutside : r.phase p = .outside)
      (alone : ∀ q, q = p) :
      Step parties r ⟨Function.update r.phase p .inside, r.barrier⟩
  | exitAlone {r : Rendezvous Party} {p : Party} (isInside : r.phase p = .inside)
      (alone : ∀ q, q = p) :
      Step parties r ⟨Function.update r.phase p .outside, r.barrier⟩

/-- The waiting parties after an arrival. -/
theorem Invariant.waits_arrive (invariant : Invariant parties r) {phase : Phase}
    (waiting : phase = .meeting ∨ phase = .parting) (q : Party) :
    (r.barrier.arrive parties p).waiting q = none ↔
      Function.update r.phase p phase q = .outside ∨ Function.update r.phase p phase q = .inside := by
  have same : (r.barrier.arrive parties p).waiting =
      Function.update r.barrier.waiting p (some r.barrier.generation) := by
    unfold CyclicBarrier.arrive
    split <;> rfl
  rw [same]
  by_cases equal : q = p
  · subst q
    rcases waiting with rfl | rfl <;> simp
  · simpa [equal] using invariant.waits q

/-- The waiting parties after one has passed. -/
theorem Invariant.waits_pass (invariant : Invariant parties r) {phase : Phase}
    (goes : phase = .outside ∨ phase = .inside) (q : Party) :
    (r.barrier.pass p).waiting q = none ↔
      Function.update r.phase p phase q = .outside ∨ Function.update r.phase p phase q = .inside := by
  by_cases equal : q = p
  · subst q
    simpa [CyclicBarrier.pass] using goes
  · simpa [CyclicBarrier.pass, equal] using invariant.waits q

theorem Invariant.step (invariant : Invariant parties r) (nodup : parties.Nodup)
    (complete : ∀ p, p ∈ parties) (step : Step parties r r') : Invariant parties r' := by
  cases step with
  | @meet p isOutside =>
      have free := (invariant.waits p).mpr (.inl isOutside)
      rcases invariant.counts.arrive nodup (complete p) free with ⟨counts, arrival⟩
      refine ⟨counts, invariant.waits_arrive (.inl rfl), fun q other => ?_⟩
      rcases arrival with ⟨others, released⟩ | ⟨parked, same⟩
      · -- the last party releases all, and all of them meet
        intro _
        right; left
        refine ⟨?_, released other⟩
        by_cases equal : other = p
        · simp [equal]
        · simpa [equal] using invariant.all_meeting isOutside (others other (complete other) equal)
      · intro inside
        have was : r.Inside p := by
          by_cases equal : q = p
          · subst q
            simp [Inside, parked] at inside
          · exact invariant.agree q p (by simpa [Inside, equal, same q equal] using inside)
        simp [Inside, isOutside] at was
  | @enter p meets released =>
      refine ⟨invariant.counts.pass released, invariant.waits_pass (.inr rfl), ?_⟩
      intro q other _
      have was := invariant.agree p other (.inr (.inl ⟨meets, released⟩))
      by_cases equal : other = p
      · simp [Inside, equal]
      · simpa [Inside, equal, CyclicBarrier.parked_pass_of_ne equal] using was
  | @part p isInside =>
      have free := (invariant.waits p).mpr (.inr isInside)
      rcases invariant.counts.arrive nodup (complete p) free with ⟨counts, arrival⟩
      refine ⟨counts, invariant.waits_arrive (.inr rfl), fun q other inside => ?_⟩
      rcases arrival with ⟨others, released⟩ | ⟨parked, same⟩
      · -- the last party releases all, and all of them part
        have parts : Function.update r.phase p .parting q = .parting := by
          by_cases equal : q = p
          · simp [equal]
          · simpa [equal] using invariant.all_parting isInside (others q (complete q) equal)
        simp [Inside, parts, released q] at inside
      · have was := invariant.agree p other (.inl isInside)
        by_cases equal : other = p
        · subst other
          simp [Inside, parked]
        · simpa [Inside, equal, same other equal] using was
  | @exit p parts released =>
      refine ⟨invariant.counts.pass released, invariant.waits_pass (.inl rfl), ?_⟩
      intro q other inside
      have was : r.Inside p := by
        by_cases equal : q = p
        · simp [Inside, equal] at inside
        · refine invariant.agree q p ?_
          simpa [Inside, equal, CyclicBarrier.parked_pass_of_ne equal] using inside
      simp [Inside, parts, released] at was
  | @enterAlone p isOutside alone =>
      refine ⟨invariant.counts, fun q => ?_, fun q other inside => ?_⟩
      · have := invariant.waits p
        simpa [alone q, isOutside] using this
      · obtain rfl : q = other := (alone q).trans (alone other).symm
        exact inside
  | @exitAlone p isInside alone =>
      refine ⟨invariant.counts, fun q => ?_, fun q other inside => ?_⟩
      · have := invariant.waits p
        simpa [alone q, isInside] using this
      · obtain rfl : q = other := (alone q).trans (alone other).symm
        exact inside

end Rendezvous
