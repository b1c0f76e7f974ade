import Mathlib.Logic.Function.Basic
import Mathlib.Data.List.Perm.Basic
import Mathlib.Data.List.Nodup

/-!
# Who owns which block

A known block is with the client, listed once, or held by exactly one
agent that is moving it. The lemmas are the ways in which a block changes hands.
-/

universe u v

variable {Block : Type u} {Agent : Type v}

/-- Every known block has one owner, and nothing else is owned. -/
structure OwnedOnce (known client : Block → Bool) (holds : Agent → Option Block)
    (listed : List Block) : Prop where
  nodup : listed.Nodup
  onList : ∀ block ∈ listed,
    known block = true ∧ client block = false ∧ ∀ who, holds who ≠ some block
  held : ∀ who block, holds who = some block →
    known block = true ∧ client block = false ∧ ∀ other, holds other = some block → other = who
  released : ∀ block, client block = true → known block = true
  kept : ∀ block, known block = true →
    client block = true ∨ block ∈ listed ∨ ∃ who, holds who = some block

namespace OwnedOnce

variable {known client : Block → Bool} {holds : Agent → Option Block}
  {listed listed' : List Block} {block : Block} {who : Agent}

theorem all_client : OwnedOnce known known (fun _ : Agent => none) [] where
  nodup := List.nodup_nil
  onList _ member := absurd member List.not_mem_nil
  held _ _ held := nomatch held
  released _ owned := owned
  kept _ isKnown := .inl isKnown

theorem perm (once : OwnedOnce known client holds listed) (same : listed'.Perm listed) :
    OwnedOnce known client holds listed' where
  nodup := same.nodup_iff.mpr once.nodup
  onList block member := once.onList block (same.mem_iff.mp member)
  held := once.held
  released := once.released
  kept block isKnown := by
    simpa only [same.mem_iff] using once.kept block isKnown

/-- An idle agent takes a block of the client. -/
theorem take [DecidableEq Block] [DecidableEq Agent]
    (once : OwnedOnce known client holds listed) (owned : client block = true)
    (idle : holds who = none) :
    OwnedOnce known (Function.update client block false)
      (Function.update holds who (some block)) listed := by
  have unlisted : block ∉ listed := fun member => by
    simp [(once.onList block member).2.1] at owned
  have unheld : ∀ other, holds other ≠ some block := fun other held => by
    simp [(once.held other block held).2.1] at owned
  refine ⟨once.nodup, ?_, ?_, ?_, ?_⟩
  · intro other member
    rcases once.onList other member with ⟨isKnown, notOwned, notHeld⟩
    have different : other ≠ block := by
      rintro rfl
      exact unlisted member
    refine ⟨isKnown, ?_, fun agent => ?_⟩
    · simpa [different] using notOwned
    · by_cases same : agent = who
      · subst agent
        simpa using different.symm
      · simpa [same] using notHeld agent
  · intro agent other held
    by_cases same : agent = who
    · subst agent
      obtain rfl : block = other := by simpa using held
      refine ⟨once.released block owned, by simp, fun agent held => ?_⟩
      by_contra different
      exact unheld agent (by simpa [different] using held)
    · have before : holds agent = some other := by simpa [same] using held
      rcases once.held agent other before with ⟨isKnown, notOwned, alone⟩
      have different : other ≠ block := by
        rintro rfl
        exact unheld agent before
      refine ⟨isKnown, by simpa [different] using notOwned, fun third third_held => ?_⟩
      by_cases third_same : third = who
      · subst third
        simp [different.symm] at third_held
      · exact alone third (by simpa [third_same] using third_held)
  · intro other owned
    by_cases same : other = block
    · subst other
      simp at owned
    · exact once.released other (by simpa [same] using owned)
  · intro other isKnown
    by_cases same : other = block
    · subst other
      exact .inr (.inr ⟨who, by simp⟩)
    · rcases once.kept other isKnown with owned | member | ⟨agent, held⟩
      · exact .inl (by simpa [same] using owned)
      · exact .inr (.inl member)
      · have different : agent ≠ who := by
          rintro rfl
          simp [idle] at held
        exact .inr (.inr ⟨agent, by simpa [different] using held⟩)

/-- An agent lists the block that it holds. -/
theorem put [DecidableEq Agent] (once : OwnedOnce known client holds listed) (isHeld : holds who = some block)
    (same : listed'.Perm (block :: listed)) :
    OwnedOnce known client (Function.update holds who none) listed' := by
  rcases once.held who block isHeld with ⟨isKnown, notOwned, alone⟩
  have unlisted : block ∉ listed := fun member =>
    (once.onList block member).2.2 who isHeld
  refine OwnedOnce.perm ⟨List.nodup_cons.mpr ⟨unlisted, once.nodup⟩, ?_, ?_,
    once.released, ?_⟩ same
  · intro other member
    rcases List.mem_cons.mp member with rfl | member
    · refine ⟨isKnown, notOwned, fun agent held => ?_⟩
      by_cases same : agent = who
      · simp [same] at held
      · exact same (alone agent (by simpa [same] using held))
    · rcases once.onList other member with ⟨isKnown, notOwned, notHeld⟩
      refine ⟨isKnown, notOwned, fun agent => ?_⟩
      by_cases same : agent = who
      · simp [same]
      · simpa [same] using notHeld agent
  · intro agent other held
    by_cases same : agent = who
    · simp [same] at held
    · rcases once.held agent other (by simpa [same] using held) with
        ⟨isKnown, notOwned, alone⟩
      refine ⟨isKnown, notOwned, fun third third_held => ?_⟩
      by_cases third_same : third = who
      · simp [third_same] at third_held
      · exact alone third (by simpa [third_same] using third_held)
  · intro other isKnown
    rcases once.kept other isKnown with owned | member | ⟨agent, held⟩
    · exact .inl owned
    · exact .inr (.inl (List.mem_cons_of_mem _ member))
    · by_cases same : agent = who
      · subst agent
        obtain rfl : block = other := Option.some.inj (isHeld.symm.trans held)
        exact .inr (.inl List.mem_cons_self)
      · exact .inr (.inr ⟨agent, by simpa [same] using held⟩)

/-- A listed block goes back to the client. -/
theorem give [DecidableEq Block] (once : OwnedOnce known client holds (block :: listed)) :
    OwnedOnce known (Function.update client block true) holds listed := by
  rcases once.onList block List.mem_cons_self with ⟨isKnown, notOwned, notHeld⟩
  rcases List.nodup_cons.mp once.nodup with ⟨unlisted, nodup⟩
  refine ⟨nodup, ?_, ?_, ?_, ?_⟩
  · intro other member
    rcases once.onList other (List.mem_cons_of_mem _ member) with
      ⟨isKnown, notOwned, notHeld⟩
    have different : other ≠ block := by
      rintro rfl
      exact unlisted member
    exact ⟨isKnown, by simpa [different] using notOwned, notHeld⟩
  · intro agent other held
    rcases once.held agent other held with ⟨isKnown, notOwned, alone⟩
    have different : other ≠ block := by
      rintro rfl
      exact notHeld agent held
    exact ⟨isKnown, by simpa [different] using notOwned, alone⟩
  · intro other owned
    by_cases same : other = block
    · subst other
      exact isKnown
    · exact once.released other (by simpa [same] using owned)
  · intro other isKnown
    by_cases same : other = block
    · subst other
      exact .inl (by simp)
    · rcases once.kept other isKnown with owned | member | held
      · exact .inl (by simpa [same] using owned)
      · exact .inr (.inl ((List.mem_cons.mp member).resolve_left same))
      · exact .inr (.inr held)

end OwnedOnce
