import Mathlib.Logic.Function.Basic
import Mathlib.Data.List.Nodup

/-!
# Chains of blocks

A linked list given by a function `next` and a null value: `Chain next null head blocks`
says that following `next` from `head` visits `blocks` and then ends. The lemmas say how a
chain behaves under the updates of an intrusive list.
-/

universe u

variable {α : Type u}

/-- The blocks reached from `head` are `blocks`, and the last one ends the list. -/
def Chain (next : α → α) (null : α) : α → List α → Prop
  | head, [] => head = null
  | head, block :: rest => head = block ∧ block ≠ null ∧ Chain next null (next block) rest

namespace Chain

variable {next next' : α → α} {null head block : α} {blocks blocks' rest : List α}

theorem nil_iff : Chain next null head [] ↔ head = null :=
  Iff.rfl

/-- A nonempty chain starts with its head. -/
theorem eq_cons (chain : Chain next null head blocks) (nonnull : head ≠ null) :
    ∃ rest, blocks = head :: rest ∧ Chain next null (next head) rest := by
  cases blocks with
  | nil => exact absurd chain nonnull
  | cons block rest =>
      rcases chain with ⟨rfl, _, tail⟩
      exact ⟨rest, rfl, tail⟩

theorem eq_nil (chain : Chain next null null blocks) : blocks = [] := by
  cases blocks with
  | nil => rfl
  | cons block rest => exact absurd chain.1.symm chain.2.1

/-- Only the links of the blocks matter. -/
theorem congr (chain : Chain next null head blocks)
    (same : ∀ block ∈ blocks, next' block = next block) : Chain next' null head blocks := by
  induction blocks generalizing head with
  | nil => exact chain
  | cons block rest ih =>
      rcases chain with ⟨equal, nonnull, tail⟩
      refine ⟨equal, nonnull, ?_⟩
      rw [same block List.mem_cons_self]
      exact ih tail fun other member => same other (List.mem_cons_of_mem _ member)

/-- A link of a block outside of the chain may change. -/
theorem update [DecidableEq α] (chain : Chain next null head blocks) (outside : block ∉ blocks)
    (link : α) : Chain (Function.update next block link) null head blocks := by
  refine chain.congr fun other member => Function.update_of_ne ?_ _ _
  rintro rfl
  exact outside member

end Chain
