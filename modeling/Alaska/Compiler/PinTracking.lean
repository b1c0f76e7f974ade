import Alaska.Lib.FirstFit
import Alaska.Compiler.Cfg
import Alaska.Compiler.SimpleFunction

/-!
# Pin tracking

`extractTranslations` finds the translations of a function again, with the blocks in which
they are live, and the pass stores the handles of those that are live at a statepoint in the
cells of an array, where the stack map of the statepoint finds them. Translations that are
live in one block get different cells.
-/

namespace Alaska

open Lts Liveness

/-- The instructions that the pass tells apart. -/
inductive PinInst where
  | translate (handle : Nat)
  | release (handle : Nat)
  | other (inst : Instruction)
  deriving DecidableEq

/-- A call of `translate` with the releases of its handle. -/
structure Translation where
  translation : Point
  handle : Nat
  releases : List Point
  deriving DecidableEq

namespace PinTracking

variable (f : Cfg PinInst)

def releasesOf (handle : Nat) : List Point :=
  f.instructions.filter fun p => f.inst p == some (.release handle)

/-- The translations that `extractTranslations` returns. -/
def translations : List Translation :=
  f.instructions.filterMap fun p =>
    match f.inst p with
    | some (.translate handle) => some ⟨p, handle, releasesOf f handle⟩
    | _ => none

/-- `KILL`, by the calls of the translations. -/
def kill (b : Nat) : Finset Point :=
  (((translations f).filter fun tr => tr.translation.1 == b).map Translation.translation).toFinset

/-- `GEN`. -/
def gen (b : Nat) : Finset Point :=
  (((translations f).filter fun tr => tr.releases.any fun rel => rel.1 == b).map
    Translation.translation).toFinset

/-- The analysis of the blocks, where `IN` is `GEN` and `OUT` without `KILL`. -/
def dataflow : System Nat Point where
  nodes := Finset.range f.blocks.length
  succ := f.successors
  pred := f.predecessors
  gen := fun b => gen f b \ kill f b
  kill := kill f

/-- The calls that the pass collects. -/
def statepointCalls : List Point :=
  f.instructions.filter fun p =>
    match f.inst p with
    | some (.other inst) => PinTrackingPass.collects inst
    | _ => false

/--
`IN` and `OUT` after the worklist, which may be emptied in any order, and the releases of each
translation in the order of their addresses, which may be any.
-/
structure Extracted where
  state : State Nat Point
  visits : List Nat
  run : Run (ofFunction (dataflow f).next) (dataflow f).start visits state
  done : state.todo = ∅
  releaseOrder : Translation → List Point
  release_perm : ∀ tr, (releaseOrder tr).Perm tr.releases

variable {f}

namespace Extracted

variable (x : Extracted f)

def liveBlocks (tr : Translation) : Finset Nat :=
  insert tr.translation.1 ((tr.releases.map Prod.fst).toFinset ∪
    (Finset.range f.blocks.length).filter fun b => tr.translation ∈ x.state.into b)

/-- `Translation::isLive`; the first release in the block of the instruction decides. -/
def isLive (tr : Translation) (inst : Point) : Bool :=
  if inst.1 ∈ x.liveBlocks tr then
    if inst = tr.translation then
      true
    else if inst.1 = tr.translation.1 ∧ ¬ tr.translation.2 < inst.2 then
      false
    else
      match (x.releaseOrder tr).find? fun rel => inst.1 == rel.1 with
      | some rel => inst == rel || decide (inst.2 < rel.2)
      | none => true
  else
    false

/-- The translations that are live at a statepoint. -/
def mustTrack : List Translation :=
  (translations f).filter fun tr => (statepointCalls f).any (x.isLive tr)

/--
The translation and the tracked ones that are live in a block where it is. The loop inserts
each pair both ways, which is what the condition already says.
-/
def interference (first : Translation) : Finset Translation :=
  (x.mustTrack.filter fun second =>
    decide (second = first ∨ ∃ b1 ∈ x.liveBlocks first, b1 ∈ x.liveBlocks second)).toFinset

end Extracted

variable (f) in
/-- The tracked translations in the order of their addresses, which may be any. -/
structure Pinned extends Extracted f where
  order : List Translation
  perm : order.Perm toExtracted.mustTrack

namespace Pinned

variable (x : Pinned f)

/-- `pin_cell_ids`. -/
def pinCellIds : Translation → Option Nat := FirstFit.colour x.interference x.order

/-- The store before the translation at a point, if it is tracked. -/
def store (p : Point) (localPinSet : Nat → Option Nat) : Nat → Option Nat :=
  match x.mustTrack.find? fun tr => tr.translation == p with
  | none => localPinSet
  | some tr =>
      match x.pinCellIds tr with
      | none => localPinSet
      | some cell => Function.update localPinSet cell (some tr.handle)

end Pinned

/-- Where control is, and the cells; one that was never stored to has no handle. -/
structure Frame where
  point : Point
  localPinSet : Nat → Option Nat

/-- The instruction is executed, and control goes to `q`. -/
def Pinned.next (x : Pinned f) (s : Frame) (q : Point) : Option Frame :=
  if (f.succ Terminator.successors s.point).contains q then
    some ⟨q, x.store s.point s.localPinSet⟩
  else
    none

def start : Frame := ⟨Cfg.entry, fun _ => none⟩

/-! ## What is live -/

/-- A release of the translation is reached before its call is executed again. -/
inductive Live (f : Cfg PinInst) (tr : Translation) : Point → Prop where
  | release {p : Point} (isRelease : p ∈ tr.releases) : Live f tr p
  | step {p q : Point} (next : q ∈ f.succ Terminator.successors p) (isLive : Live f tr q)
      (passes : p ≠ tr.translation) : Live f tr p

inductive Reached (f : Cfg PinInst) : Point → Prop where
  | entry : Reached f Cfg.entry
  | step {p q : Point} (before : Reached f p) (next : q ∈ f.succ Terminator.successors p) :
      Reached f q

/-- The point is reached without an execution of the call of the translation. -/
inductive Untranslated (f : Cfg PinInst) (tr : Translation) : Point → Prop where
  | entry : Untranslated f tr Cfg.entry
  | step {p q : Point} (before : Untranslated f tr p) (passes : p ≠ tr.translation)
      (next : q ∈ f.succ Terminator.successors p) : Untranslated f tr q

/--
A translation dominates the releases of its handle, and after one of them there is none
before it is made again.
-/
structure WellPlaced (f : Cfg PinInst) : Prop where
  dominates : ∀ tr ∈ translations f, ∀ rel ∈ tr.releases, ¬ Untranslated f tr rel
  released_once : ∀ tr ∈ translations f, ∀ rel ∈ tr.releases, Reached f rel →
    ∀ next ∈ f.succ Terminator.successors rel, ¬ Live f tr next

variable {tr other : Translation} {p q rel : Point} {b i j : Nat} {handle : Nat}

/-! ## The translations of a function -/

theorem mem_translations : tr ∈ translations f ↔ f.inst tr.translation = some (.translate tr.handle) ∧
    tr.releases = releasesOf f tr.handle ∧ tr.translation ∈ f.instructions := by
  simp only [translations, List.mem_filterMap]
  constructor
  · rintro ⟨p, isPoint, found⟩
    split at found
    · next handle isTranslate =>
        obtain rfl := Option.some.inj found
        exact ⟨isTranslate, rfl, isPoint⟩
    · cases found
  · rintro ⟨isTranslate, releases, isPoint⟩
    refine ⟨tr.translation, isPoint, ?_⟩
    rw [isTranslate]
    exact congrArg some (congrArg (Translation.mk _ _) releases.symm)

/-- A translation is known by its call. -/
theorem translations_injective (first : tr ∈ translations f) (second : other ∈ translations f)
    (same : tr.translation = other.translation) : tr = other := by
  rcases mem_translations.mp first with ⟨inst, releases, _⟩
  rcases mem_translations.mp second with ⟨inst', releases', _⟩
  rw [same, inst'] at inst
  obtain ⟨call, handle, rels⟩ := tr
  obtain ⟨call', handle', rels'⟩ := other
  simp only [Option.some.injEq, PinInst.translate.injEq] at inst same releases releases'
  subst inst same releases releases'
  rfl

theorem translations_nodup (f : Cfg PinInst) : (translations f).Nodup := by
  refine f.instructions_nodup.filterMap fun p q tr first second => ?_
  have point : ∀ {p : Point}, tr ∈ (match f.inst p with
      | some (.translate handle) => some ⟨p, handle, releasesOf f handle⟩
      | _ => none : Option Translation) → tr.translation = p := by
    intro p found
    split at found
    · next handle _ =>
        obtain rfl := Option.some.inj found
        rfl
    · cases found
  exact (point first).symm.trans (point second)

theorem mem_kill : tr.translation ∈ kill f b → b = tr.translation.1 := by
  simp only [kill, List.mem_toFinset, List.mem_map, List.mem_filter, beq_iff_eq]
  rintro ⟨other, ⟨_, rfl⟩, same⟩
  rw [same]

theorem mem_gen (member : tr ∈ translations f) (isRelease : rel ∈ tr.releases) :
    tr.translation ∈ gen f rel.1 := by
  simp only [gen, List.mem_toFinset, List.mem_map, List.mem_filter, List.any_eq_true, beq_iff_eq]
  exact ⟨tr, ⟨member, rel, isRelease, rfl⟩, rfl⟩

theorem dataflow_closed (f : Cfg PinInst) : (dataflow f).Closed where
  succ := fun _ _ _ edge => Finset.mem_range.mpr (f.successors_lt edge)
  pred := by
    intro b _ other edge
    rcases Cfg.mem_predecessors.mp edge with ⟨block, isBlock, _⟩
    exact Finset.mem_range.mpr (List.getElem?_eq_some_iff.mp isBlock).1
  mem_pred := fun _ _ _ edge => Cfg.mem_predecessors_of_mem_successors edge

theorem Extracted.exact (x : Extracted f) (isBlock : b < f.blocks.length) {fact : Point} :
    fact ∈ x.state.into b ↔ (dataflow f).Live fact b := by
  have closed := dataflow_closed f
  have invariant := System.run_invariant closed (System.start_invariant _) x.run
  exact (invariant.exact closed x.done b (Finset.mem_range.mpr isBlock)).1 fact

/-! ## Paths inside a block -/

theorem Reached.of_le (reached : Reached f (b, i)) (le : j ≤ i) : Reached f (b, j) := by
  induction i with
  | zero => rwa [Nat.le_zero.mp le]
  | succ i ih =>
      rcases Nat.le_succ_iff.mp le with le | rfl
      · cases reached with
        | step before next => exact ih (Cfg.eq_of_mem_succ next ▸ before) le
      · exact reached

theorem Untranslated.of_le (untranslated : Untranslated f tr (b, i)) (le : j ≤ i) :
    Untranslated f tr (b, j) := by
  induction i with
  | zero => rwa [Nat.le_zero.mp le]
  | succ i ih =>
      rcases Nat.le_succ_iff.mp le with le | rfl
      · cases untranslated with
        | step before _ next => exact ih (Cfg.eq_of_mem_succ next ▸ before) le
      · exact untranslated

/-- What is live at a point of a block is so before it, back to its call. -/
theorem Live.of_le (reached : Reached f (b, i)) (isLive : Live f tr (b, i)) (le : j ≤ i)
    (after : b = tr.translation.1 → tr.translation.2 < j) :
    Live f tr (b, j) := by
  induction i with
  | zero => rwa [Nat.le_zero.mp le]
  | succ i ih =>
      rcases Nat.le_succ_iff.mp le with le | rfl
      · cases reached with
        | step before next =>
            obtain rfl := Cfg.eq_of_mem_succ next
            refine ih before (.step next isLive ?_) le
            intro same
            have := after (congrArg Prod.fst same)
            have := congrArg Prod.snd same
            omega
      · exact isLive

theorem Reached.exists_at (reached : Reached f p) : ∃ block, f.At p block := by
  cases reached with
  | entry => exact f.exists_entry
  | step _ next => exact Cfg.exists_at_of_mem_succ (fun _ => List.Subset.refl _) next

/-- On the way to a point the call is not executed, or it is executed a first time. -/
theorem Reached.untranslated (reached : Reached f p) (tr : Translation) :
    Untranslated f tr p ∨ Untranslated f tr tr.translation := by
  induction reached with
  | entry => exact Or.inl .entry
  | @step p q _ next ih =>
      rcases ih with here | first
      · by_cases passes : p = tr.translation
        · exact Or.inr (passes ▸ here)
        · exact Or.inl (.step here passes next)
      · exact Or.inr first

namespace WellPlaced

variable (placed : WellPlaced f)
include placed

/-- What was not translated yet is not live. -/
theorem not_live (member : tr ∈ translations f) (untranslated : Untranslated f tr p) :
    ¬ Live f tr p := by
  intro isLive
  induction isLive with
  | release isRelease => exact placed.dominates tr member _ isRelease untranslated
  | step next _ passes ih => exact ih (.step untranslated passes next)

/-- A translation is not live in its block before its call. -/
theorem not_live_of_le (member : tr ∈ translations f) (reached : Reached f (tr.translation.1, i))
    (le : i ≤ tr.translation.2) : ¬ Live f tr (tr.translation.1, i) := by
  rcases reached.untranslated tr with here | first
  · exact placed.not_live member here
  · exact placed.not_live member (first.of_le le)

/-- Outside the block of its call, the analysis finds where a translation is live. -/
theorem live_dataflow (member : tr ∈ translations f) (reached : Reached f p)
    (isLive : Live f tr p) (apart : p.1 ≠ tr.translation.1) :
    (dataflow f).Live tr.translation p.1 := by
  have notKilled : ∀ {b : Nat}, b ≠ tr.translation.1 → tr.translation ∉ kill f b := by
    intro b ne killed
    exact ne (mem_kill killed)
  induction isLive with
  | @release p isRelease =>
      exact .gen (Finset.mem_sdiff.mpr ⟨mem_gen member isRelease, notKilled apart⟩)
  | @step p q next isLive _ ih =>
      have reached' := reached.step next
      rcases Cfg.successors_of_mem_succ next with rfl | ⟨b, edge, rfl⟩
      · exact ih reached' apart
      · have apart' : b ≠ tr.translation.1 := by
          rintro rfl
          exact placed.not_live_of_le member reached' (Nat.zero_le _) isLive
        exact .edge edge (ih reached' apart') (notKilled apart)

theorem mem_liveBlocks (x : Extracted f) (member : tr ∈ translations f) (reached : Reached f p)
    (isLive : Live f tr p) : p.1 ∈ x.liveBlocks tr := by
  by_cases same : p.1 = tr.translation.1
  · exact Finset.mem_insert.mpr (Or.inl same)
  · rcases reached.exists_at with ⟨block, isAt⟩
    have isBlock : p.1 < f.blocks.length := (List.getElem?_eq_some_iff.mp isAt.isBlock).1
    have found := (x.exact isBlock).mpr (placed.live_dataflow member reached isLive same)
    simp [Extracted.liveBlocks, isBlock, found]

/-- A translation is not live in the block of a release after it. -/
theorem not_live_after_release (member : tr ∈ translations f) (isRelease : rel ∈ tr.releases)
    (same : p.1 = rel.1) (lt : rel.2 < p.2) (reached : Reached f p) : ¬ Live f tr p := by
  intro isLive
  obtain ⟨b, i⟩ := p
  obtain ⟨b', k⟩ := rel
  obtain rfl : b = b' := same
  have released := reached.of_le (Nat.le_of_lt lt)
  have behind : b = tr.translation.1 → tr.translation.2 < k + 1 := by
    rintro rfl
    by_contra before
    exact placed.not_live_of_le member released (by omega) (.release isRelease)
  have isLive' := isLive.of_le reached (Nat.succ_le_of_lt lt) behind
  cases reached.of_le (Nat.succ_le_of_lt lt) with
  | step _ next =>
      obtain rfl := Cfg.eq_of_mem_succ next
      exact placed.released_once tr member _ isRelease released _ next isLive'

/-- Where a translation is live `isLive` says so. -/
theorem isLive_of_live (x : Extracted f) (member : tr ∈ translations f) (reached : Reached f p)
    (isLive : Live f tr p) : x.isLive tr p = true := by
  have inBlock := placed.mem_liveBlocks x member reached isLive
  have behind : p.1 = tr.translation.1 → tr.translation.2 < p.2 := by
    intro same
    by_contra before
    obtain ⟨b, i⟩ := p
    obtain rfl : b = tr.translation.1 := same
    exact placed.not_live_of_le member reached (Nat.not_lt.mp before) isLive
  simp only [Extracted.isLive, inBlock, if_true]
  split
  · rfl
  · rw [if_neg fun ⟨same, notBefore⟩ => notBefore (behind same)]
    split
    · next rel found =>
        have isRelease := (x.release_perm tr).mem_iff.mp (List.mem_of_find?_eq_some found)
        have same : p.1 = rel.1 := by simpa using List.find?_some found
        by_contra ended
        simp only [Bool.or_eq_true, beq_iff_eq, decide_eq_true_eq, not_or, Nat.not_lt] at ended
        have lt : rel.2 < p.2 := by
          exact Nat.lt_of_le_of_ne ended.2 fun equal => ended.1 (Prod.ext same equal.symm)
        exact placed.not_live_after_release member isRelease same lt reached isLive
    · rfl

end WellPlaced

/-! ## The cells -/

namespace Pinned

variable (x : Pinned f) {s t : Frame} {path : List Point} {cell : Nat}

theorem mem_order : tr ∈ x.order ↔ tr ∈ x.mustTrack := x.perm.mem_iff

theorem mem_interference : other ∈ x.interference tr ↔ other ∈ x.mustTrack ∧
    (other = tr ∨ ∃ b ∈ x.liveBlocks tr, b ∈ x.liveBlocks other) := by
  simp [Extracted.interference]

theorem coloured : FirstFit.Coloured x.interference x.order x.pinCellIds := by
  refine FirstFit.colour_coloured ?_ (x.perm.nodup_iff.mpr ((translations_nodup f).filter _))
  intro first isFirst second _ adjacent
  refine x.mem_interference.mpr ⟨x.mem_order.mp isFirst, ?_⟩
  rcases (x.mem_interference.mp adjacent).2 with rfl | ⟨b, here, here'⟩
  · exact Or.inl rfl
  · exact Or.inr ⟨b, here', here⟩

/-- A tracked translation has a cell of the array that the stack map describes. -/
theorem exists_cell (member : tr ∈ x.mustTrack) :
    ∃ cell < x.mustTrack.length, x.pinCellIds tr = some cell := by
  have isSome := (x.coloured.some_iff tr).mpr (x.mem_order.mpr member)
  rcases Option.isSome_iff_exists.mp isSome with ⟨cell, isCell⟩
  exact ⟨cell, x.perm.length_eq ▸ x.coloured.lt tr cell isCell, isCell⟩

/-- Tracked translations that are live in one block have different cells. -/
theorem cell_ne (member : tr ∈ x.mustTrack) (ne : other ≠ tr)
    (here : b ∈ x.liveBlocks tr) (here' : b ∈ x.liveBlocks other)
    (isCell : x.pinCellIds tr = some cell) : x.pinCellIds other ≠ some cell := by
  have adjacent : tr ∈ x.interference other :=
    x.mem_interference.mpr ⟨member, Or.inr ⟨b, here', here⟩⟩
  exact x.coloured.proper tr other cell adjacent ne.symm isCell

/-- The store before a translation leaves the other cells as they are. -/
theorem store_eq (member : tr ∈ x.mustTrack) (isCell : x.pinCellIds tr = some cell)
    (others : ∀ other ∈ x.mustTrack, other.translation = p → other ≠ tr →
      x.pinCellIds other ≠ some cell) (localPinSet : Nat → Option Nat) :
    x.store p localPinSet cell =
      if p = tr.translation then some tr.handle else localPinSet cell := by
  unfold store
  cases found : x.mustTrack.find? fun tr => tr.translation == p with
  | none =>
      rw [if_neg]
      rintro rfl
      simpa using List.find?_eq_none.mp found tr member
  | some other =>
      have isMember := List.mem_of_find?_eq_some found
      have same : other.translation = p := by simpa using List.find?_some found
      rcases x.exists_cell isMember with ⟨cell', _, isCell'⟩
      simp only [isCell']
      by_cases equal : p = tr.translation
      · obtain rfl := translations_injective (List.mem_of_mem_filter isMember)
          (List.mem_of_mem_filter member) (same.trans equal)
        obtain rfl := Option.some.inj (isCell'.symm.trans isCell)
        rw [if_pos equal, Function.update_self]
      · have apart : other ≠ tr := by
          rintro rfl
          exact equal same.symm
        have ne : cell ≠ cell' := by
          rintro rfl
          exact others other isMember same apart isCell'
        rw [if_neg equal, Function.update_of_ne ne]

theorem next_eq (step : x.next s q = some t) :
    q ∈ f.succ Terminator.successors s.point ∧ t = ⟨q, x.store s.point s.localPinSet⟩ := by
  simp only [next, Option.ite_none_right_eq_some, Option.some.injEq,
    List.contains_iff_mem] at step
  exact ⟨step.1, step.2.symm⟩

/-- In every run the cell of a tracked translation has its handle where it is live. -/
theorem cell_of_run (placed : WellPlaced f) (run : Run (ofFunction x.next) start path s)
    (member : tr ∈ x.mustTrack) (isCell : x.pinCellIds tr = some cell) :
    Reached f s.point ∧ (Live f tr s.point → s.localPinSet cell = some tr.handle) := by
  have isTranslation := List.mem_of_mem_filter member
  refine run.invariant
    (fun s => Reached f s.point ∧ (Live f tr s.point → s.localPinSet cell = some tr.handle))
    ?_ ⟨.entry, fun isLive => absurd isLive (placed.not_live isTranslation .entry)⟩
  rintro s q t ⟨reached, holds⟩ step
  rcases x.next_eq step with ⟨next, rfl⟩
  refine ⟨reached.step next, fun isLive => ?_⟩
  change x.store s.point s.localPinSet cell = some tr.handle
  by_cases made : s.point = tr.translation
  · rw [x.store_eq member isCell ?_, if_pos made]
    intro other isOther same ne
    exact absurd (translations_injective (List.mem_of_mem_filter isOther) isTranslation
      (same.trans made)) ne
  · -- the translation is live at this point too, in a block where the stored one is
    have before : Live f tr s.point := .step next isLive made
    rw [x.store_eq member isCell ?_, if_neg made]
    · exact holds before
    · intro other _ same ne
      have here := placed.mem_liveBlocks x.toExtracted isTranslation reached before
      exact x.cell_ne member ne here (same ▸ Finset.mem_insert_self _ _) isCell

theorem reached_of_run (run : Run (ofFunction x.next) start path s) : Reached f s.point := by
  refine run.invariant (fun s => Reached f s.point) (fun s q t reached step => ?_) .entry
  rcases x.next_eq step with ⟨next, rfl⟩
  exact reached.step next

theorem mem_mustTrack (placed : WellPlaced f) (reached : Reached f p)
    (isCall : p ∈ statepointCalls f) (member : tr ∈ translations f) (isLive : Live f tr p) :
    tr ∈ x.mustTrack :=
  List.mem_filter.mpr ⟨member, List.any_eq_true.mpr
    ⟨p, isCall, placed.isLive_of_live x.toExtracted member reached isLive⟩⟩

/-- Translations that are live together have different cells. -/
theorem cell_ne_of_live (placed : WellPlaced f) (reached : Reached f p)
    (tracked : tr ∈ x.mustTrack) (isLive : Live f tr p) (isOther : other ∈ translations f)
    (ne : other ≠ tr) (isLive' : Live f other p) (isCell : x.pinCellIds tr = some cell) :
    x.pinCellIds other ≠ some cell := by
  have here := placed.mem_liveBlocks x.toExtracted (List.mem_of_mem_filter tracked) reached isLive
  have here' := placed.mem_liveBlocks x.toExtracted isOther reached isLive'
  exact x.cell_ne tracked ne here here' isCell

/--
A translation that is live at a collected statepoint is tracked, and in every run it finds
its handle there in its cell, which is one of those in the stack map and that of no other
translation live there.
-/
theorem pinSet_sound (placed : WellPlaced f) (run : Run (ofFunction x.next) start path s)
    (isCall : s.point ∈ statepointCalls f) (member : tr ∈ translations f)
    (isLive : Live f tr s.point) :
    tr ∈ x.mustTrack ∧ ∃ cell < x.mustTrack.length, x.pinCellIds tr = some cell ∧
      s.localPinSet cell = some tr.handle ∧
      ∀ other ∈ translations f, other ≠ tr → Live f other s.point →
        x.pinCellIds other ≠ some cell := by
  have reached := x.reached_of_run run
  have tracked := x.mem_mustTrack placed reached isCall member isLive
  rcases x.exists_cell tracked with ⟨cell, lt, isCell⟩
  refine ⟨tracked, cell, lt, isCell, (x.cell_of_run placed run tracked isCell).2 isLive, ?_⟩
  exact fun other isOther ne isLive' => x.cell_ne_of_live placed reached tracked isLive isOther ne
    isLive' isCell

/--
Every cell is inside the array that the stack map describes, and at a collected statepoint all
the translations that are live are tracked, have cells of their own and find their handles there.
-/
theorem cells_hold_live (placed : WellPlaced f) :
    (∀ tr cell, x.pinCellIds tr = some cell → cell < x.mustTrack.length) ∧
      ∀ path s, Run (ofFunction x.next) start path s → s.point ∈ statepointCalls f →
        ∀ tr ∈ translations f, Live f tr s.point → tr ∈ x.mustTrack ∧
          ∃ cell, x.pinCellIds tr = some cell ∧ s.localPinSet cell = some tr.handle ∧
            ∀ other ∈ translations f, other ≠ tr → Live f other s.point →
              x.pinCellIds other ≠ some cell := by
  refine ⟨fun tr cell isCell => x.perm.length_eq ▸ x.coloured.lt tr cell isCell, ?_⟩
  intro path s run isCall tr member isLive
  have reached := x.reached_of_run run
  have tracked := x.mem_mustTrack placed reached isCall member isLive
  rcases x.exists_cell tracked with ⟨cell, _, isCell⟩
  refine ⟨tracked, cell, isCell, (x.cell_of_run placed run tracked isCell).2 isLive, ?_⟩
  exact fun other isOther ne isLive' => x.cell_ne_of_live placed reached tracked isLive isOther ne
    isLive' isCell

/-- A loop that translates a handle, calls a function and releases the handle. -/
def callLoop : Cfg PinInst where
  blocks :=
    [⟨[], .other (.terminator [1]), .br [1]⟩,
      ⟨[.translate 7, .other (.call ⟨.function "f", false, true⟩), .release 7],
        .other (.terminator [1, 2]), .br [1, 2]⟩,
      ⟨[], .other .other, .other []⟩]
  nonempty := by decide
  closed := by decide

theorem callLoop_wellPlaced : WellPlaced callLoop := by
  have only : ∀ tr ∈ translations callLoop, tr = ⟨(1, 0), 7, [(1, 2)]⟩ := by decide
  constructor
  · rintro tr member rel isRelease untranslated
    obtain rfl := only tr member
    obtain rfl := List.mem_singleton.mp isRelease
    cases untranslated with
    | step before _ next =>
        obtain rfl := Cfg.eq_of_mem_succ next
        cases before with
        | step _ passes next =>
            obtain rfl := Cfg.eq_of_mem_succ next
            exact passes rfl
  · rintro tr member rel isRelease _ next edge isLive
    obtain rfl := only tr member
    obtain rfl := List.mem_singleton.mp isRelease
    have back : next = (1, 3) := by
      have : next ∈ [((1, 3) : Point)] := edge
      simpa using this
    subst back
    cases isLive with
    | release isRelease => exact absurd isRelease (by decide)
    | @step _ q edge isLive _ =>
        have target : q ∈ [((1, 0) : Point), (2, 0)] := edge
        simp only [List.mem_cons, List.not_mem_nil, or_false] at target
        rcases target with rfl | rfl
        · cases isLive with
          | release isRelease => exact absurd isRelease (by decide)
          | step _ _ passes => exact passes rfl
        · cases isLive with
          | release isRelease => exact absurd isRelease (by decide)
          | step edge _ _ => exact absurd edge List.not_mem_nil

/-- A run of the loop to its call, where the translation is live. -/
theorem exists_callLoop : ∃ (x : Pinned callLoop) (s : Frame),
    Run (ofFunction x.next) start [(1, 0), (1, 1)] s ∧ s.point ∈ statepointCalls callLoop ∧
      Live callLoop ⟨(1, 0), 7, [(1, 2)]⟩ s.point := by
  have invariant := System.start_invariant (dataflow callLoop)
  rcases System.exists_done (dataflow_closed _) invariant with ⟨visits, state, run, done⟩
  let x : Pinned callLoop :=
    ⟨⟨state, visits, run, done, _, fun _ => List.Perm.refl _⟩, _, List.Perm.refl _⟩
  have path : Run (ofFunction x.next) start [(1, 0), (1, 1)] _ :=
    .cons (if_pos (show (callLoop.succ _ (0, 0)).contains (1, 0) by decide)) <|
      .cons (if_pos (show (callLoop.succ _ (1, 0)).contains (1, 1) by decide)) (.nil _)
  have isLive : Live callLoop ⟨(1, 0), 7, [(1, 2)]⟩ (1, 1) :=
    .step (q := (1, 2)) (by decide) (.release (by decide)) (by decide)
  exact ⟨x, _, path, show (1, 1) ∈ statepointCalls callLoop by decide, isLive⟩

theorem pinSet_sound_callLoop : ∃ (x : Pinned callLoop) (s : Frame),
    Run (ofFunction x.next) start [(1, 0), (1, 1)] s ∧ ∃ cell < x.mustTrack.length,
      s.localPinSet cell = some 7 := by
  rcases exists_callLoop with ⟨x, s, path, isCall, isLive⟩
  rcases x.pinSet_sound callLoop_wellPlaced path isCall (by decide) isLive with
    ⟨_, cell, lt, _, holds, _⟩
  exact ⟨x, s, path, cell, lt, holds⟩

theorem cells_hold_live_callLoop : ∃ (x : Pinned callLoop) (s : Frame),
    Run (ofFunction x.next) start [(1, 0), (1, 1)] s ∧ ∃ cell, s.localPinSet cell = some 7 := by
  rcases exists_callLoop with ⟨x, s, path, isCall, isLive⟩
  have tracked := (x.cells_hold_live callLoop_wellPlaced).2 _ s path isCall _ (by decide) isLive
  rcases tracked with ⟨_, cell, _, holds, _⟩
  exact ⟨x, s, path, cell, holds⟩

end Pinned

end PinTracking

end Alaska
