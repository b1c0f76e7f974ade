import Alaska.Runtime.BarrierPins
import Alaska.Runtime.Translate

/-!
# Translation between barriers

The fast path of the translation loads through the raw word of the mapping and adds the
offset to it, so a handle translates to its object only while the pinned bit is clear; with
the bit set, the word is no address of a user program, and the load faults. The threads run
again before all of them have un-pinned their pin sets, and go on running while others have
joined the next barrier.
-/

namespace Alaska

open Lts

namespace BarrierState

variable {Thread : Type} [DecidableEq Thread] {c : BarrierConfig Thread}
  {s s' : BarrierState Thread} {label : BarrierLabel Thread} {mappings : Mappings} {t : Thread}
  {readable : Nat → Bool} {m offset : Nat}

/-- What is pinned has been pinned by a thread that has yet to un-pin it. -/
def PinnedMarked (c : BarrierConfig Thread) (s : BarrierState Thread) : Prop :=
  ∀ m, (s.mappings m).isPinned = true → ∃ t p, s.Marks t p ∧ Records c s.mappings p m

omit [DecidableEq Thread] in
theorem PinnedMarked.marking (pinned : PinnedMarked c s) (marking : Marking c s label s') :
    PinnedMarked c s' := by
  intro m isPinned
  cases marking with
  | keep mappings marks holds =>
      rw [mappings] at isPinned ⊢
      rcases pinned m isPinned with ⟨t, p, marked, records⟩
      exact ⟨t, p, marks t p marked, records⟩
  | pin t p mappings marks marked holds =>
      unfold Records
      rw [mappings] at isPinned ⊢
      simp only [isFree_recordHandle]
      rcases recordHandle_apply c s.mappings p true m with ⟨records, _⟩ | ⟨_, same⟩
      · exact ⟨t, p, marked, records⟩
      · rw [same] at isPinned
        rcases pinned m isPinned with ⟨u, p', marked', records⟩
        exact ⟨u, p', marks u p' marked', records⟩
  | unpin t leads p rest pc mappings marks holds =>
      unfold Records
      rw [mappings] at isPinned ⊢
      simp only [isFree_recordHandle]
      rcases recordHandle_apply c s.mappings p false m with ⟨_, same⟩ | ⟨other, same⟩
      · rw [same, Mapping.isPinned_setPinned] at isPinned
        cases isPinned
      · rw [same] at isPinned
        rcases pinned m isPinned with ⟨u, p', marked, records⟩
        refine ⟨u, p', marks u p' marked ?_, records⟩
        rintro rfl
        exact other records
  | move m' pointer live movable small mappings marks holds =>
      unfold Records
      rw [mappings] at isPinned ⊢
      by_cases equal : m = m'
      · subst m'
        rw [Function.update_self, Mapping.isPinned_setPointer small] at isPinned
        cases isPinned
      · rw [Function.update_of_ne equal] at isPinned ⊢
        rcases pinned m isPinned with ⟨u, p, marked, records⟩
        exact ⟨u, p, marks u p marked, records⟩

theorem pinnedMarked_of_run (nonempty : c.threads ≠ [])
    (unpinned : ∀ m, (mappings m).isPinned = false) {labels : List (BarrierLabel Thread)}
    (run : Run (ofFunction (step c)) (start mappings) labels s) : PinnedMarked c s := by
  have invariant : PinInvariant c s ∧ PinnedMarked c s := by
    refine run.invariant (fun s => PinInvariant c s ∧ PinnedMarked c s) ?_
      ⟨pinInvariant_start nonempty, fun m isPinned => ?_⟩
    · rintro s label s' ⟨invariant, pinned⟩ taken
      have turn := step_turn taken
      exact ⟨invariant.turn turn, pinned.marking (turn.marking invariant.view invariant.pins)⟩
    · rw [show (start mappings : BarrierState Thread).mappings m = mappings m from rfl,
        unpinned m] at isPinned
      cases isPinned
  exact invariant.2

/--
A running thread translates a live handle to its object while no thread is between pinning
and un-pinning the mapping.
-/
theorem alaskaTranslate_of_unmarked (unpinned : ∀ m, (mappings m).isPinned = false)
    {labels : List (BarrierLabel Thread)}
    (run : Run (ofFunction (step c)) (start mappings) labels s)
    (inTable : Mapping.InTable m) (live : (s.mappings m).isFree = false)
    (present : (s.mappings m).swap = false) (small : offset < 2 ^ 21)
    (mapped : readable (s.mappings m).getPointer = true)
    (unmarked : ∀ u p, s.Marks u p → ¬ Records c s.mappings p m) :
    ∀ t, s.pc t = .running →
      Mapping.alaskaTranslate readable s.mappings (Mapping.toHandle m offset) =
        some ((s.mappings m).getPointer + offset) := by
  intro t _
  have nonempty : c.threads ≠ [] := List.ne_nil_of_mem (c.complete t)
  have isUnpinned : (s.mappings m).pinned = false := by
    by_contra isPinned
    rcases pinnedMarked_of_run nonempty unpinned run m (by simpa [Mapping.isPinned] using isPinned)
      with ⟨u, p, marked, records⟩
    exact unmarked u p marked records
  exact (Mapping.alaskaTranslate_eq_iff inTable small).mpr
    ⟨Mapping.getPointerFast_eq_iff.mpr ⟨isUnpinned, live, present⟩, mapped⟩

/-- The slow thread has a handle in its pin set; the fast one has none and runs before it. -/
def earlyRunner : List (BarrierLabel (Fin 3)) :=
  untilCallback [] [2 ^ 63] ++ untilUnlocked ++ List.replicate 6 (.advance fast)

theorem inTable_firstMapping : Mapping.InTable (2 ^ 42) :=
  ⟨by decide, by decide, by decide⟩

theorem allRunning_allowed :
    (replay (step oneMapping) (start fun _ => .ofPtr 4096)
      (earlyRunner ++ List.replicate 7 (.advance slow))).isSome = true := by
  decide +kernel

/-- When the slow thread has un-pinned the handle, the fast one may translate it. -/
theorem alaskaTranslate_allRunning :
    let s := (replay (step oneMapping) (start fun _ => .ofPtr 4096)
      (earlyRunner ++ List.replicate 7 (.advance slow))).get allRunning_allowed
    s.pc fast = .running ∧
      Mapping.alaskaTranslate Mapping.lowerHalf s.mappings (Mapping.toHandle (2 ^ 42) 8) =
        some ((s.mappings (2 ^ 42)).getPointer + 8) := by
  intro s
  have runs : s.pc fast = .running := by decide +kernel
  have stages : ∀ u, (s.pc u).pinStage = .none := by decide +kernel
  refine ⟨runs, alaskaTranslate_of_unmarked (fun _ => by decide)
    (run_of_replay (Option.some_get allRunning_allowed).symm) inTable_firstMapping
    (by decide +kernel) (by decide +kernel) (by decide) (by decide +kernel)
    (fun u p marked => ?_) fast runs⟩
  rw [Marks, stages u] at marked
  exact marked.elim

theorem earlyRunner_allowed :
    (replay (step oneMapping) (start fun _ => .ofPtr 4096) earlyRunner).isSome = true := by
  decide +kernel

/-- The raw word of the pinned mapping is no address, so the load through it faults. -/
theorem alaskaTranslate_earlyRunner :
    Mapping.alaskaTranslate Mapping.lowerHalf
      ((replay (step oneMapping) (start fun _ => .ofPtr 4096) earlyRunner).get
        earlyRunner_allowed).mappings (Mapping.toHandle (2 ^ 42) 0) = none := by
  decide +kernel

/-- The fast thread translates the handle before the slow one has un-pinned it. -/
theorem not_alaskaTranslate_earlyRunner :
    ¬ ∀ labels s, Run (ofFunction (step oneMapping)) (start fun _ => .ofPtr 4096) labels s →
      ∀ t m, s.pc t = .running → Mapping.InTable m → (s.mappings m).isFree = false →
        (s.mappings m).swap = false → Mapping.lowerHalf (s.mappings m).getPointer = true →
          ∀ offset, offset < 2 ^ 21 →
            Mapping.alaskaTranslate Mapping.lowerHalf s.mappings (Mapping.toHandle m offset) =
              some ((s.mappings m).getPointer + offset) := by
  intro claim
  have translated := claim earlyRunner _
    (run_of_replay (Option.some_get earlyRunner_allowed).symm) fast (2 ^ 42) (by decide +kernel)
    inTable_firstMapping (by decide +kernel) (by decide +kernel) (by decide +kernel) 0 (by decide)
  rw [alaskaTranslate_earlyRunner] at translated
  cases translated

end BarrierState

end Alaska
