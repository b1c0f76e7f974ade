import Alaska.Runtime.BarrierProtocol

/-!
# Pinned handles

The pinned bit of a mapping is one bit for all threads, while a handle may be in several pin
sets. A thread marks a handle from the time it pins it to the time it un-pins it, and this
ends at the thread's own pace: it may still have to un-pin what it pinned for one barrier when
another thread has pinned the same handle for the next.
-/

namespace Alaska

open Lts

/-- How far a thread is with its pin set. -/
inductive PinStage where
  | none
  | pinning (rest : List Nat)
  | pinned
  | unpinning (rest : List Nat)
  deriving DecidableEq

namespace PinStage

/-- The thread has pinned the handle and has yet to un-pin it. -/
def Marks (pinSet : List Nat) (p : Nat) : PinStage → Prop
  | none => False
  | pinning rest => p ∈ pinSet ∧ p ∉ rest
  | pinned => p ∈ pinSet
  | unpinning rest => p ∈ rest

/-- The thread has pinned the handle for a barrier that it has not left. -/
def Holds (pinSet : List Nat) (p : Nat) : PinStage → Prop
  | unpinning _ => False
  | stage => stage.Marks pinSet p

end PinStage

namespace ThreadPc

variable {Thread : Type}

def pinStage : ThreadPc Thread → PinStage
  | .handler (.pinning rest) => .pinning rest
  | .leader (.pinning rest) => .pinning rest
  | .handler .joining => .pinned
  | .leader .joining => .pinned
  | .handler .joined => .pinned
  | .leader .joined => .pinned
  | .handler .leaving => .pinned
  | .leader .callback => .pinned
  | .leader (.unpatching _) => .pinned
  | .leader .leaving => .pinned
  | .handler .left => .pinned
  | .leader .left => .pinned
  | .handler (.unpinning rest) => .unpinning rest
  | .leader (.unpinning rest) => .unpinning rest
  | _ => .none

variable {points : Nat} {pc pc' : ThreadPc Thread} {leads : Bool} {rest pinSet : List Nat} {p : Nat}

@[simp]
theorem pinStage_collecting : (collecting leads : ThreadPc Thread).pinStage = .none := by
  cases leads <;> rfl

@[simp]
theorem pinStage_pinning : (pinning leads rest : ThreadPc Thread).pinStage = .pinning rest := by
  cases leads <;> rfl

@[simp]
theorem pinStage_joining : (joining leads : ThreadPc Thread).pinStage = .pinned := by
  cases leads <;> rfl

@[simp]
theorem pinStage_joined : (joined leads : ThreadPc Thread).pinStage = .pinned := by
  cases leads <;> rfl

@[simp]
theorem pinStage_leaving : (leaving leads : ThreadPc Thread).pinStage = .pinned := by
  cases leads <;> rfl

@[simp]
theorem pinStage_left : (left leads : ThreadPc Thread).pinStage = .pinned := by
  cases leads <;> rfl

@[simp]
theorem pinStage_unpinning :
    (unpinning leads rest : ThreadPc Thread).pinStage = .unpinning rest := by
  cases leads <;> rfl

theorem Entered.pinStage_eq (goes : Entered leads pc) : pc.pinStage = .pinned := by
  cases goes <;> rfl

/-- A change of position alone is no change of what is marked. -/
theorem Quiet.marks_iff (goes : Quiet points pc pc') :
    pc'.pinStage.Marks pinSet p ↔ pc.pinStage.Marks pinSet p := by
  cases goes with
  | pinned leads => simp [PinStage.Marks]
  | unpinnedHandler => simp [pinStage, PinStage.Marks]
  | unpinnedLeader => simp [pinStage, PinStage.Marks]
  | _ => rfl

theorem Quiet.holds_iff (goes : Quiet points pc pc') :
    pc'.pinStage.Holds pinSet p ↔ pc.pinStage.Holds pinSet p := by
  cases goes with
  | pinned leads => simp [PinStage.Holds, PinStage.Marks]
  | unpinnedHandler => simp [pinStage, PinStage.Holds, PinStage.Marks]
  | unpinnedLeader => simp [pinStage, PinStage.Holds, PinStage.Marks]
  | _ => rfl

theorem Quiet.ne_pinning (goes : Quiet points pc pc') (rest : List Nat) :
    pc'.pinStage ≠ .pinning rest := by
  cases goes with
  | pinned leads => simp
  | _ => nofun

theorem Quiet.ne_parting (goes : Quiet points pc pc') : pc.phase ≠ .parting := by
  cases goes with
  | pinned leads => simp
  | _ => nofun

end ThreadPc

namespace BarrierState

variable {Thread : Type}

/-- The second wait has let the thread go, and the thread has not noticed. -/
def LetGo (s : BarrierState Thread) (t : Thread) : Prop :=
  (s.pc t).phase = .parting ∧ ¬ s.barrier.Parked t

def Marks (s : BarrierState Thread) (t : Thread) (p : Nat) : Prop :=
  (s.pc t).pinStage.Marks (s.pinSet t) p

def Holds (s : BarrierState Thread) (t : Thread) (p : Nat) : Prop :=
  (s.pc t).pinStage.Holds (s.pinSet t) p ∧ ¬ s.LetGo t

variable {c : BarrierConfig Thread} {s s' : BarrierState Thread} {t u : Thread}
  {label : BarrierLabel Thread} {p m : Nat}

/-- Between the two waits a thread holds its whole pin set. -/
theorem holds_of_inside (inside : s.view.Inside t) (member : p ∈ s.pinSet t) : s.Holds t p := by
  have stage : (s.pc t).pinStage = .pinned := by
    have waits : (s.pc t).phase ≠ .outside := by
      rcases inside with phase | ⟨phase, _⟩ | ⟨phase, _⟩
      all_goals
        intro outside
        rw [show s.view.phase t = .outside from outside] at phase
        cases phase
    cases pc : s.pc t with
    | running => simp [pc, ThreadPc.phase] at waits
    | handler pc' => cases pc' <;> simp_all [ThreadPc.phase, ThreadPc.pinStage]
    | leader pc' => cases pc' <;> simp_all [ThreadPc.phase, ThreadPc.pinStage]
  refine ⟨?_, fun letGo => ?_⟩
  · rw [stage]
    exact member
  · have parts : s.view.phase t = .parting := letGo.1
    simp [Rendezvous.Inside, parts, show ¬ s.view.barrier.Parked t from letGo.2] at inside

variable [DecidableEq Thread]

/-- What a step does to the pinned bits and to those who account for them. -/
inductive Marking (c : BarrierConfig Thread) (s : BarrierState Thread) :
    BarrierLabel Thread → BarrierState Thread → Prop where
  | keep {label : BarrierLabel Thread} {s' : BarrierState Thread}
      (mappings : s'.mappings = s.mappings)
      (marks : ∀ u p, s.Marks u p → s'.Marks u p)
      (holds : ∀ u p, s'.Holds u p → s.Holds u p) : Marking c s label s'
  | pin {label : BarrierLabel Thread} {s' : BarrierState Thread} (t : Thread) (p : Nat)
      (mappings : s'.mappings = recordHandle c s.mappings p true)
      (marks : ∀ u p', s.Marks u p' → s'.Marks u p') (marked : s'.Marks t p)
      (holds : ∀ u p', s'.Holds u p' → s.Holds u p' ∨ p' = p) : Marking c s label s'
  | unpin {s' : BarrierState Thread} (t : Thread) (leads : Bool) (p : Nat) (rest : List Nat)
      (pc : s.pc t = .unpinning leads (p :: rest))
      (mappings : s'.mappings = recordHandle c s.mappings p false)
      (marks : ∀ u p', s.Marks u p' → p' ≠ p → s'.Marks u p')
      (holds : ∀ u p', s'.Holds u p' → s.Holds u p') : Marking c s (.advance t) s'
  | move {label : BarrierLabel Thread} {s' : BarrierState Thread} (m pointer : Nat)
      (live : (s.mappings m).isFree = false) (movable : (s.mappings m).isPinned = false)
      (small : pointer < 2 ^ 61)
      (mappings : s'.mappings = Function.update s.mappings m ((s.mappings m).setPointer pointer))
      (marks : ∀ u p, s.Marks u p → s'.Marks u p)
      (holds : ∀ u p, s'.Holds u p → s.Holds u p) : Marking c s label s'

theorem Marks.of_moves (marks : s.Marks u p) {pc' : ThreadPc Thread}
    (moves : s'.pc = Function.update s.pc t pc') (pinSet : s'.pinSet = s.pinSet)
    (keeps : (s.pc t).pinStage.Marks (s.pinSet t) p → pc'.pinStage.Marks (s.pinSet t) p) :
    s'.Marks u p := by
  unfold Marks at marks ⊢
  rw [moves, pinSet]
  by_cases equal : u = t
  · subst u
    simpa using keeps marks
  · simpa only [Function.update_of_ne equal] using marks

theorem Holds.of_moves (holds : s'.Holds u p) {pc' : ThreadPc Thread}
    (moves : s'.pc = Function.update s.pc t pc') (pinSet : s'.pinSet = s.pinSet)
    (parked : ∀ u, u ≠ t → s'.barrier.Parked u → s.barrier.Parked u)
    (keeps : pc'.pinStage.Holds (s.pinSet t) p →
      ¬ (pc'.phase = .parting ∧ ¬ s'.barrier.Parked t) → s.Holds t p) : s.Holds u p := by
  unfold Holds LetGo at holds
  rw [moves, pinSet] at holds
  by_cases equal : u = t
  · subst u
    simp only [Function.update_self] at holds
    exact keeps holds.1 holds.2
  · simp only [Function.update_of_ne equal] at holds
    refine ⟨holds.1, fun letGo => holds.2 ⟨letGo.1, fun isParked => ?_⟩⟩
    exact letGo.2 (parked u equal isParked)

omit [DecidableEq Thread] in
/-- A thread that is not at the second wait holds what its stage says. -/
theorem holds_of_stage (holds : (s.pc t).pinStage.Holds (s.pinSet t) p)
    (ne : (s.pc t).phase ≠ .parting) : s.Holds t p :=
  ⟨holds, fun letGo => ne letGo.1⟩

/-- A step of a thread that stays away from the second wait and marks the same handles. -/
theorem Marking.of_moves {pc pc' : ThreadPc Thread} (isPc : s.pc t = pc)
    (moves : s'.pc = Function.update s.pc t pc') (pinSet : s'.pinSet = s.pinSet)
    (mappings : s'.mappings = s.mappings)
    (parked : ∀ u, u ≠ t → s'.barrier.Parked u → s.barrier.Parked u)
    (marks : ∀ p, pc.pinStage.Marks (s.pinSet t) p → pc'.pinStage.Marks (s.pinSet t) p)
    (holds : ∀ p, pc'.pinStage.Holds (s.pinSet t) p → pc.pinStage.Holds (s.pinSet t) p)
    (ne : pc.phase ≠ .parting) : Marking c s label s' := by
  subst pc
  exact .keep mappings (fun u p marked => marked.of_moves moves pinSet (marks p))
    (fun u p held => held.of_moves moves pinSet parked
      (fun held _ => holds_of_stage (holds p held) ne))

/-- What a thread has still to pin is in its pin set, and each handle once. -/
def Pins (s : BarrierState Thread) : Prop :=
  ∀ t rest, (s.pc t).pinStage = .pinning rest → rest.Nodup ∧ rest ⊆ s.pinSet t

/-- An arrival parks nobody but the thread that arrives. -/
theorem parked_of_arrive (invariant : Rendezvous.Invariant c.threads s.view)
    (waits : (s.pc t).phase = .outside ∨ (s.pc t).phase = .inside) (u : Thread) (ne : u ≠ t)
    (parked : (s.barrier.arrive c.threads t).Parked u) : s.barrier.Parked u := by
  have free := (invariant.waits t).mpr waits
  rcases (invariant.counts.arrive c.nodup (c.complete t) free).2 with ⟨_, released⟩ | ⟨_, same⟩
  · exact absurd parked (released u)
  · exact (same u ne).mp parked

theorem Turn.marking (invariant : Rendezvous.Invariant c.threads s.view) (pins : s.Pins)
    (turn : Turn c s label s') : Marking c s label s' := by
  cases turn with
  | idle same stays =>
      refine .keep same.mappings (fun u p marks => ?_) (fun u p holds => ?_)
      · unfold Marks
        rw [stays, same.pinSet]
        exact marks
      · unfold Holds LetGo at holds
        rw [stays, same.pinSet, same.barrier] at holds
        exact holds
  | quiet t pc' same goes moves =>
      refine Marking.of_moves rfl moves same.pinSet same.mappings (fun u _ => ?_)
        (fun p => goes.marks_iff.mpr) (fun p => goes.holds_iff.mp) goes.ne_parting
      rw [same.barrier]
      exact id
  | lead t runs free =>
      exact .of_moves runs rfl rfl rfl (fun _ _ => id) (fun _ => id) (fun _ => id)
        (by simp [ThreadPc.phase])
  | unlock t pc =>
      exact .of_moves pc rfl rfl rfl (fun _ _ => id) (fun _ => id) (fun _ => id)
        (by simp [ThreadPc.phase])
  | collect t leads pinSet pc distinct =>
      -- nothing of the new pin set is pinned yet
      refine .keep rfl (fun u p marks => ?_) (fun u p holds => ?_)
      · by_cases equal : u = t
        · subst u
          simp [Marks, pc, PinStage.Marks] at marks
        · simpa [Marks, setPc, equal] using marks
      · by_cases equal : u = t
        · subst u
          simp [Holds, setPc, PinStage.Holds, PinStage.Marks] at holds
        · simpa [Holds, LetGo, setPc, equal] using holds
  | pin t leads p rest pc =>
      rcases pins t (p :: rest) (by simp [pc]) with ⟨distinct, subset⟩
      have fresh : p ∉ rest := (List.nodup_cons.mp distinct).1
      refine .pin t p rfl (fun u p' marks => ?_) ?_ (fun u p' holds => ?_)
      · refine marks.of_moves rfl rfl (fun marks => ?_)
        simp only [pc, ThreadPc.pinStage_pinning, PinStage.Marks, List.mem_cons, not_or]
          at marks ⊢
        exact ⟨marks.1, marks.2.2⟩
      · simp only [Marks, setPc, record, Function.update_self, ThreadPc.pinStage_pinning,
          PinStage.Marks]
        exact ⟨subset List.mem_cons_self, fresh⟩
      · by_cases same : p' = p
        · exact .inr same
        · refine .inl (holds.of_moves rfl rfl (fun _ _ => id) (fun held _ => ?_))
          refine holds_of_stage ?_ (by simp [pc])
          simp only [pc, ThreadPc.pinStage_pinning, PinStage.Holds, PinStage.Marks,
            List.mem_cons, not_or] at held ⊢
          exact ⟨held.1, same, held.2⟩
  | unpin t leads p rest pc =>
      refine .unpin t leads p rest pc rfl (fun u p' marks ne => ?_) (fun u p' holds => ?_)
      · refine marks.of_moves rfl rfl (fun marks => ?_)
        simp only [pc, ThreadPc.pinStage_unpinning, PinStage.Marks, List.mem_cons] at marks ⊢
        exact marks.resolve_left ne
      · refine holds.of_moves rfl rfl (fun _ _ => id) (fun held _ => ?_)
        simp [PinStage.Holds] at held
  | patch t point pc lt =>
      exact .of_moves pc rfl rfl rfl (fun _ _ => id) (fun _ => id) (fun _ => id)
        (by simp [ThreadPc.phase])
  | unpatch t point pc lt =>
      exact .of_moves pc rfl rfl rfl (fun _ _ => id) (fun _ => id) (fun _ => id)
        (by simp [ThreadPc.phase])
  | meet t leads pc =>
      refine .of_moves pc rfl rfl rfl (parked_of_arrive invariant ?_) ?_ ?_ (by simp)
      · simp [pc]
      · simp
      · simp
  | enter t leads pc' pc released goes =>
      refine .of_moves pc rfl rfl rfl
        (fun u other => (CyclicBarrier.parked_pass_of_ne other).mp) ?_ ?_ (by simp)
      · simp [goes.pinStage_eq]
      · simp [goes.pinStage_eq]
  | part t leads pc =>
      refine .of_moves pc rfl rfl rfl (parked_of_arrive invariant ?_) ?_ ?_ (by simp)
      · simp [pc]
      · simp
      · simp
  | exit t leads pc released =>
      refine .keep rfl (fun u p marks => marks.of_moves rfl rfl ?_)
        (fun u p holds => holds.of_moves rfl rfl
          (fun u other => (CyclicBarrier.parked_pass_of_ne other).mp) (fun held _ => ?_))
      · simp [pc, PinStage.Marks]
      · simp [PinStage.Holds] at held
  | enterAlone t leads pc' pc alone goes =>
      refine .of_moves pc rfl rfl rfl (fun _ _ => id) ?_ ?_ (by simp)
      · simp [goes.pinStage_eq]
      · simp [goes.pinStage_eq]
  | exitAlone t leads pc alone =>
      refine .of_moves pc rfl rfl rfl (fun _ _ => id) ?_ ?_ (by simp)
      · simp [PinStage.Marks]
      · simp [PinStage.Holds]
  | ignore t pc =>
      exact .of_moves pc rfl rfl rfl (fun _ _ => id) (fun _ => id) (fun _ => id)
        (by simp [ThreadPc.phase])
  | handle t pc =>
      exact .of_moves pc rfl rfl rfl (fun _ _ => id) (fun _ => id) (fun _ => id)
        (by simp [ThreadPc.phase])
  | move t m pointer pc live movable small =>
      exact .move m pointer live movable small rfl (fun _ _ => id) (fun _ _ => id)

/-! ## The pin sets -/

theorem Pins.of_moves (pins : s.Pins) {pc' : ThreadPc Thread}
    (moves : s'.pc = Function.update s.pc t pc') (pinSet : ∀ u, u ≠ t → s'.pinSet u = s.pinSet u)
    (now : ∀ rest, pc'.pinStage = .pinning rest → rest.Nodup ∧ rest ⊆ s'.pinSet t) :
    s'.Pins := by
  intro u rest stage
  rw [moves] at stage
  by_cases equal : u = t
  · subst u
    simp only [Function.update_self] at stage
    exact now rest stage
  · simp only [Function.update_of_ne equal] at stage
    rw [pinSet u equal]
    exact pins u rest stage

theorem Pins.turn (pins : s.Pins) (turn : Turn c s label s') : s'.Pins := by
  -- most steps lead to a position where nothing is being pinned
  have elsewhere : ∀ {s' : BarrierState Thread} {t : Thread} {pc' : ThreadPc Thread},
      s'.pc = Function.update s.pc t pc' → s'.pinSet = s.pinSet →
      (∀ rest, pc'.pinStage ≠ .pinning rest) → s'.Pins := by
    intro s' t pc' moves pinSet ne
    refine pins.of_moves moves (fun u _ => ?_) (fun rest stage => absurd stage (ne rest))
    rw [pinSet]
  cases turn with
  | idle same stays =>
      unfold Pins
      rw [stays, same.pinSet]
      exact pins
  | quiet t pc' same goes moves => exact elsewhere moves same.pinSet goes.ne_pinning
  | lead t runs free => exact elsewhere rfl rfl (by simp [ThreadPc.pinStage])
  | unlock t pc => exact elsewhere rfl rfl (by simp [ThreadPc.pinStage])
  | collect t leads pinSet pc distinct =>
      refine pins.of_moves rfl (fun u ne => ?_) (fun rest stage => ?_)
      · simp [setPc, ne]
      · simp only [ThreadPc.pinStage_pinning, PinStage.pinning.injEq] at stage
        subst rest
        exact ⟨distinct, by simp [setPc]⟩
  | pin t leads p rest pc =>
      rcases pins t (p :: rest) (by simp [pc]) with ⟨distinct, subset⟩
      refine pins.of_moves rfl (fun _ _ => rfl) (fun rest' stage => ?_)
      simp only [ThreadPc.pinStage_pinning, PinStage.pinning.injEq] at stage
      subst rest'
      exact ⟨(List.nodup_cons.mp distinct).2,
        fun _ member => subset (List.mem_cons_of_mem _ member)⟩
  | unpin t leads p rest pc => exact elsewhere rfl rfl (by simp)
  | patch t point pc lt => exact elsewhere rfl rfl (by simp [ThreadPc.pinStage])
  | unpatch t point pc lt => exact elsewhere rfl rfl (by simp [ThreadPc.pinStage])
  | meet t leads pc => exact elsewhere rfl rfl (by simp)
  | enter t leads pc' pc released goes => exact elsewhere rfl rfl (by simp [goes.pinStage_eq])
  | part t leads pc => exact elsewhere rfl rfl (by simp)
  | exit t leads pc released => exact elsewhere rfl rfl (by simp)
  | enterAlone t leads pc' pc alone goes => exact elsewhere rfl rfl (by simp [goes.pinStage_eq])
  | exitAlone t leads pc alone => exact elsewhere rfl rfl (by simp)
  | ignore t pc => exact elsewhere rfl rfl (by simp [ThreadPc.pinStage])
  | handle t pc => exact elsewhere rfl rfl (by simp [ThreadPc.pinStage])
  | move t m pointer pc live movable small => exact pins

/-! ## Recording a handle -/

/-- `record_handle` changes the bit of the mapping. -/
def Records (c : BarrierConfig Thread) (mappings : Mappings) (p m : Nat) : Prop :=
  Mapping.fromHandleSafe p = some m ∧ c.validHandle m = true ∧ (mappings m).isFree = false

variable {mappings : Mappings} {marked : Bool}

omit [DecidableEq Thread] in
theorem recordHandle_of_records (records : Records c mappings p m) :
    recordHandle c mappings p marked =
      Function.update mappings m ((mappings m).setPinned marked) := by
  rcases records with ⟨named, valid, live⟩
  simp [recordHandle, named, valid, live]

omit [DecidableEq Thread] in
/-- `record_handle` records a handle of the mapping, or leaves the mapping as it is. -/
theorem recordHandle_apply (c : BarrierConfig Thread) (mappings : Mappings) (p : Nat)
    (marked : Bool) (m : Nat) :
    Records c mappings p m ∧ recordHandle c mappings p marked m = (mappings m).setPinned marked ∨
      ¬ Records c mappings p m ∧ recordHandle c mappings p marked m = mappings m := by
  by_cases records : Records c mappings p m
  · left
    refine ⟨records, ?_⟩
    rw [recordHandle_of_records records, Function.update_self]
  · right
    refine ⟨records, ?_⟩
    unfold recordHandle
    cases named : Mapping.fromHandleSafe p with
    | none => rfl
    | some m' =>
        simp only
        by_cases valid : c.validHandle m' = false
        · rw [if_pos valid]
        · by_cases free : (mappings m').isFree = true
          · rw [if_neg valid, if_pos free]
          · rw [if_neg valid, if_neg free]
            have ne : m ≠ m' := by
              rintro rfl
              exact records ⟨named, by simpa using valid, by simpa using free⟩
            exact Function.update_of_ne ne _ _

omit [DecidableEq Thread] in
@[simp]
theorem isFree_recordHandle :
    (recordHandle c mappings p marked m).isFree = (mappings m).isFree := by
  rcases recordHandle_apply c mappings p marked m with ⟨_, same⟩ | ⟨_, same⟩
  · rw [same, Mapping.isFree_setPinned]
  · rw [same]

/-! ## While the callback runs -/

/-- What a thread holds is pinned. -/
def HeldPinned (c : BarrierConfig Thread) (s : BarrierState Thread) : Prop :=
  ∀ t p m, s.Holds t p → Records c s.mappings p m → (s.mappings m).isPinned = true

/-- What the barrier is to guarantee to the callback. -/
def CallbackPins (c : BarrierConfig Thread) (s : BarrierState Thread) : Prop :=
  ∀ l, s.pc l = .leader .callback → ∀ t, ∀ p ∈ s.pinSet t, ∀ m,
    Records c s.mappings p m → (s.mappings m).isPinned = true

/-- No thread un-pins a mapping that another has pinned for a barrier it has not left. -/
def UnpinsUnheld (c : BarrierConfig Thread) (s : BarrierState Thread) :
    BarrierLabel Thread → Prop
  | .advance t => ∀ leads p rest, s.pc t = .unpinning leads (p :: rest) →
      ∀ u p' m, Records c s.mappings p m → Records c s.mappings p' m → ¬ s.Holds u p'
  | _ => True

omit [DecidableEq Thread] in
theorem HeldPinned.marking (pinned : HeldPinned c s) (unheld : UnpinsUnheld c s label)
    (marking : Marking c s label s') : HeldPinned c s' := by
  intro t p m holds records
  cases marking with
  | keep mappings marks holds' =>
      rw [mappings] at records ⊢
      exact pinned t p m (holds' t p holds) records
  | pin v q mappings marks marked holds' =>
      rcases records with ⟨named, valid, live⟩
      rw [mappings] at live ⊢
      rw [isFree_recordHandle] at live
      rcases recordHandle_apply c s.mappings q true m with ⟨_, same⟩ | ⟨other, same⟩
      · rw [same, Mapping.isPinned_setPinned]
      · rw [same]
        rcases holds' t p holds with held | rfl
        · exact pinned t p m held ⟨named, valid, live⟩
        · exact absurd ⟨named, valid, live⟩ other
  | unpin v leads q rest pc mappings marks holds' =>
      rcases records with ⟨named, valid, live⟩
      rw [mappings] at live ⊢
      rw [isFree_recordHandle] at live
      have held := holds' t p holds
      rcases recordHandle_apply c s.mappings q false m with ⟨records, _⟩ | ⟨_, same⟩
      · exact absurd held (unheld leads q rest pc t p m records ⟨named, valid, live⟩)
      · rw [same]
        exact pinned t p m held ⟨named, valid, live⟩
  | move m' pointer live' movable small mappings marks holds' =>
      have held := holds' t p holds
      rcases records with ⟨named, valid, live⟩
      rw [mappings] at live ⊢
      by_cases equal : m = m'
      · -- only what is not pinned moves
        subst m'
        rw [pinned t p m held ⟨named, valid, live'⟩] at movable
        cases movable
      · rw [Function.update_of_ne equal] at live ⊢
        exact pinned t p m held ⟨named, valid, live⟩

/-- What every run keeps. -/
structure PinInvariant (c : BarrierConfig Thread) (s : BarrierState Thread) : Prop where
  view : Rendezvous.Invariant c.threads s.view
  pins : s.Pins

omit [DecidableEq Thread] in
theorem pinInvariant_start (nonempty : c.threads ≠ []) : PinInvariant c (start mappings) where
  view := Rendezvous.invariant_start nonempty
  pins := nofun

theorem PinInvariant.turn (invariant : PinInvariant c s) (turn : Turn c s label s') :
    PinInvariant c s' where
  view := turn.invariant invariant.view
  pins := invariant.pins.turn turn

omit [DecidableEq Thread] in
theorem PinInvariant.callbackPins (invariant : PinInvariant c s) (pinned : HeldPinned c s) :
    CallbackPins c s := by
  intro l callback t p member m records
  have inside : s.view.Inside l := .inl (phase_view callback)
  exact pinned t p m (holds_of_inside (invariant.view.agree l t inside) member) records

/-- In a run in which no held mapping is un-pinned, the callback finds all held mappings pinned. -/
theorem callbackPins_of_unpinsUnheld {labels : List (BarrierLabel Thread)}
    (run : Run (Restrict (ofFunction (step c)) (UnpinsUnheld c)) (start mappings) labels s) :
    CallbackPins c s := by
  intro l callback
  have nonempty : c.threads ≠ [] := List.ne_nil_of_mem (c.complete l)
  have invariant : PinInvariant c s ∧ HeldPinned c s := by
    refine run.invariant (fun s => PinInvariant c s ∧ HeldPinned c s) ?_
      ⟨pinInvariant_start nonempty, fun _ _ _ holds => absurd holds.1 id⟩
    rintro s label s' ⟨invariant, pinned⟩ ⟨taken, unheld⟩
    have turn := step_turn taken
    exact ⟨invariant.turn turn, pinned.marking unheld (turn.marking invariant.view invariant.pins)⟩
  exact invariant.1.callbackPins invariant.2 l callback

/-! ## Two threads with one handle -/

abbrev leader : Fin 3 := 0

abbrev fast : Fin 3 := 1

abbrev slow : Fin 3 := 2

/-- Three threads, one safepoint and the first mapping of the table. -/
def oneMapping : BarrierConfig (Fin 3) where
  threads := [leader, fast, slow]
  nodup := by decide
  complete := by decide
  patchPoints := 1
  validHandle m := decide (m = 2 ^ 42)

/-- The labels of a thread from the trap to its first wait. -/
def joinsWith (t : Fin 3) (pinSet : List Nat) : List (BarrierLabel (Fin 3)) :=
  [.trap t 0 .managedTracked, .advance t, .collect t pinSet] ++
    List.replicate (pinSet.length + 2) (.advance t)

/-- The leader begins a barrier, the others join it, and the callback runs. -/
def untilCallback (pinSet₁ pinSet₂ : List Nat) : List (BarrierLabel (Fin 3)) :=
  .lead leader :: List.replicate 3 (.advance leader) ++ joinsWith fast pinSet₁ ++ joinsWith slow pinSet₂ ++
    List.replicate 5 (.advance leader) ++ .collect leader [] :: List.replicate 3 (.advance leader)

/-- The threads meet again, and the leader gives the lock back. -/
def untilUnlocked : List (BarrierLabel (Fin 3)) :=
  List.replicate 3 (.advance leader) ++ [.advance fast, .advance fast, .advance slow, .advance slow] ++
    List.replicate 4 (.advance leader)

/-- A step of a run in which nothing is un-pinned. -/
def stepUnlessUnpinning (s : BarrierState (Fin 3)) (label : BarrierLabel (Fin 3)) :
    Option (BarrierState (Fin 3)) :=
  match label with
  | .advance t =>
      match (s.pc t).pinStage with
      | .unpinning _ => none
      | _ => s.step oneMapping label
  | _ => s.step oneMapping label

theorem restrict_of_stepUnlessUnpinning {s s' : BarrierState (Fin 3)}
    {label : BarrierLabel (Fin 3)} (taken : stepUnlessUnpinning s label = some s') :
    Restrict (ofFunction (step oneMapping)) (UnpinsUnheld oneMapping) s label s' := by
  unfold stepUnlessUnpinning at taken
  split at taken
  · next t =>
      split at taken
      · cases taken
      · next other =>
          refine ⟨taken, fun leads p rest pc => absurd ?_ (other (p :: rest))⟩
          simp [pc]
  · next other =>
      refine ⟨taken, ?_⟩
      cases label with
      | advance t => exact absurd rfl (other t)
      | _ => trivial

theorem untilCallback_allowed :
    (replay stepUnlessUnpinning (start fun _ => .ofPtr 4096)
      (untilCallback [2 ^ 63] [2 ^ 63])).isSome = true := by
  decide +kernel

theorem callbackPins_untilCallback :
    ∃ s, Run (Restrict (ofFunction (step oneMapping)) (UnpinsUnheld oneMapping))
        (start fun _ => .ofPtr 4096) (untilCallback [2 ^ 63] [2 ^ 63]) s ∧
      s.pc leader = .leader .callback ∧ CallbackPins oneMapping s := by
  have run := (run_of_replay (Option.some_get untilCallback_allowed).symm).mono
    fun _ _ _ => restrict_of_stepUnlessUnpinning
  exact ⟨_, run, by decide +kernel, callbackPins_of_unpinsUnheld run⟩

/--
Two threads have the same handle in their pin sets. After the first barrier one of them is
faster: it has pinned the handle for the next barrier when the other un-pins it.
-/
def lateUnpin : List (BarrierLabel (Fin 3)) :=
  untilCallback [2 ^ 63] [2 ^ 63] ++ untilUnlocked ++ List.replicate 7 (.advance fast) ++
    [.advance slow] ++ .lead leader :: List.replicate 3 (.advance leader) ++
    joinsWith fast [2 ^ 63] ++ List.replicate 6 (.advance slow) ++ joinsWith slow [] ++
    List.replicate 5 (.advance leader) ++ .collect leader [] ::
    List.replicate 3 (.advance leader)

theorem lateUnpin_allowed :
    (replay (step oneMapping) (start fun _ => .ofPtr 4096) lateUnpin).isSome = true := by
  decide +kernel

/-- The callback of the second barrier may move the object that the fast thread holds. -/
theorem not_callbackPins_lateUnpin :
    ¬ ∀ labels s, Run (ofFunction (step oneMapping)) (start fun _ => .ofPtr 4096) labels s →
      CallbackPins oneMapping s := by
  intro claim
  have pinned := claim lateUnpin _ (run_of_replay (Option.some_get lateUnpin_allowed).symm) leader
    (by decide +kernel) fast (2 ^ 63) (by decide +kernel) (2 ^ 42)
    ⟨by decide +kernel, by decide +kernel, by decide +kernel⟩
  exact absurd pinned (by decide +kernel)

end BarrierState

end Alaska
