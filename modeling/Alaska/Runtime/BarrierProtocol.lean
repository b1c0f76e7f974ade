import Alaska.Runtime.BarrierTurns

/-!
# The protocol of the barrier

The threads of a barrier are parties of a rendezvous: they join together and leave together,
so while one thread is between the two waits all of them are, and none is running. The one
leader holds the lock, and safepoints are patched only while it is in between patching and
un-patching them.
-/

namespace Alaska

namespace ThreadPc

variable {Thread : Type}

/-- Where a thread is with respect to the two waits. -/
def phase : ThreadPc Thread → Rendezvous.Phase
  | .handler .joined => .meeting
  | .leader .joined => .meeting
  | .handler .leaving => .inside
  | .leader .callback => .inside
  | .leader (.unpatching _) => .inside
  | .leader .leaving => .inside
  | .handler .left => .parting
  | .leader .left => .parting
  | _ => .outside

def isLeader : ThreadPc Thread → Bool
  | .leader _ => true
  | _ => false

/-- May the safepoint be patched while the leader is here? -/
def patches (point : Nat) : ThreadPc Thread → Bool
  | .leader .locked => false
  | .leader (.patching next) => decide (point < next)
  | .leader (.unpatching next) => decide (next ≤ point)
  | .leader .leaving => false
  | .leader .left => false
  | .leader (.unpinning _) => false
  | .leader .unlocking => false
  | .leader _ => true
  | _ => false

variable {points point : Nat} {pc pc' : ThreadPc Thread} {leads : Bool} {rest : List Nat}

@[simp]
theorem phase_collecting : (collecting leads : ThreadPc Thread).phase = .outside := by
  cases leads <;> rfl

@[simp]
theorem phase_pinning : (pinning leads rest : ThreadPc Thread).phase = .outside := by
  cases leads <;> rfl

@[simp]
theorem phase_joining : (joining leads : ThreadPc Thread).phase = .outside := by
  cases leads <;> rfl

@[simp]
theorem phase_joined : (joined leads : ThreadPc Thread).phase = .meeting := by
  cases leads <;> rfl

@[simp]
theorem phase_leaving : (leaving leads : ThreadPc Thread).phase = .inside := by
  cases leads <;> rfl

@[simp]
theorem phase_left : (left leads : ThreadPc Thread).phase = .parting := by
  cases leads <;> rfl

@[simp]
theorem phase_unpinning : (unpinning leads rest : ThreadPc Thread).phase = .outside := by
  cases leads <;> rfl

theorem Quiet.phase_eq (goes : Quiet points pc pc') : pc'.phase = pc.phase := by
  cases goes with
  | pinned leads => cases leads <;> rfl
  | _ => rfl

theorem Quiet.isLeader_eq (goes : Quiet points pc pc') : pc'.isLeader = pc.isLeader := by
  cases goes with
  | pinned leads => cases leads <;> rfl
  | _ => rfl

/-- A leader that goes on keeps what it has patched. -/
theorem Quiet.patches (goes : Quiet points pc pc') (lt : point < points)
    (patched : pc.patches point = true) : pc'.patches point = true := by
  cases goes with
  | pinned leads => cases leads <;> exact patched
  | unpatched next all =>
      have : next ≤ point := of_decide_eq_true patched
      omega
  | finish => rfl
  | enter => cases patched
  | goBack => cases patched
  | join => cases patched
  | unpinnedHandler => cases patched
  | unpinnedLeader => cases patched
  | discard => cases patched
  | resume => cases patched
  | reset => cases patched
  | _ => rfl

theorem Entered.phase_eq (goes : Entered leads pc) : pc.phase = .inside := by
  cases goes <;> rfl

theorem Entered.isLeader_eq (goes : Entered leads pc) : pc.isLeader = leads := by
  cases goes <;> rfl

theorem Entered.patches (goes : Entered leads pc) (isLeader : leads = true) :
    pc.patches point = true := by
  cases goes with
  | handler => cases isLeader
  | callback => rfl
  | failed => rfl

end ThreadPc

namespace BarrierState

variable {Thread : Type} {c : BarrierConfig Thread} {s s' : BarrierState Thread} {t u : Thread}
  {label : BarrierLabel Thread}

/-- The threads as parties of a rendezvous. -/
def view (s : BarrierState Thread) : Rendezvous Thread := ⟨fun t => (s.pc t).phase, s.barrier⟩

theorem view_congr (stays : s'.pc = s.pc) (barrier : s'.barrier = s.barrier) :
    s'.view = s.view := by
  unfold view
  rw [stays, barrier]

theorem phase_view {pc : ThreadPc Thread} (isPc : s.pc t = pc) : s.view.phase t = pc.phase :=
  congrArg ThreadPc.phase isPc

variable [DecidableEq Thread]

theorem view_setPc {pc' : ThreadPc Thread} :
    (s.setPc t pc').view = ⟨Function.update s.view.phase t pc'.phase, s.barrier⟩ := by
  unfold view setPc
  congr 1
  funext u
  by_cases equal : u = t
  · subst u
    simp
  · simp [equal]

/-- A thread that stays in its phase leaves the rendezvous as it is. -/
theorem view_setPc_eq {pc' : ThreadPc Thread} (same : pc'.phase = (s.pc t).phase) :
    (s.setPc t pc').view = s.view := by
  rw [view_setPc, same]
  exact congrArg (Rendezvous.mk · s.barrier) (Function.update_eq_self t s.view.phase)

/-- Every step is a step of the rendezvous, or leaves it as it is. -/
theorem Turn.view (turn : Turn c s label s') :
    s'.view = s.view ∨ Rendezvous.Step c.threads s.view s'.view := by
  cases turn with
  | idle same stays => exact .inl (view_congr stays same.barrier)
  | quiet t pc' same goes moves =>
      left
      have moved : s'.view = (s.setPc t pc').view := view_congr moves same.barrier
      exact moved.trans (view_setPc_eq goes.phase_eq)
  | lead t runs free => exact .inl (view_setPc_eq (phase_view runs).symm)
  | unlock t pc => exact .inl (view_setPc_eq (phase_view pc).symm)
  | collect t leads pinSet pc distinct =>
      refine .inl (view_setPc_eq ((phase_view pc).trans ?_).symm)
      simp
  | pin t leads p rest pc =>
      refine .inl (view_setPc_eq ((phase_view pc).trans ?_).symm)
      simp
  | unpin t leads p rest pc =>
      refine .inl (view_setPc_eq ((phase_view pc).trans ?_).symm)
      simp
  | patch t point pc lt => exact .inl (view_setPc_eq (phase_view pc).symm)
  | unpatch t point pc lt => exact .inl (view_setPc_eq (phase_view pc).symm)
  | meet t leads pc =>
      right
      rw [view_setPc, ThreadPc.phase_joined]
      exact .meet ((phase_view pc).trans ThreadPc.phase_joining)
  | enter t leads pc' pc released goes =>
      right
      rw [view_setPc, goes.phase_eq]
      exact .enter ((phase_view pc).trans ThreadPc.phase_joined) released
  | part t leads pc =>
      right
      rw [view_setPc, ThreadPc.phase_left]
      exact .part ((phase_view pc).trans ThreadPc.phase_leaving)
  | exit t leads pc released =>
      right
      rw [view_setPc, ThreadPc.phase_unpinning]
      exact .exit ((phase_view pc).trans ThreadPc.phase_left) released
  | enterAlone t leads pc' pc alone goes =>
      right
      rw [view_setPc, goes.phase_eq]
      exact .enterAlone ((phase_view pc).trans ThreadPc.phase_joining) alone
  | exitAlone t leads pc alone =>
      right
      rw [view_setPc, ThreadPc.phase_unpinning]
      exact .exitAlone ((phase_view pc).trans ThreadPc.phase_leaving) alone
  | ignore t pc => exact .inl (view_setPc_eq (phase_view pc).symm)
  | handle t pc => exact .inl (view_setPc_eq (phase_view pc).symm)
  | move t m pointer pc live movable small => exact .inl (view_congr rfl rfl)

theorem Turn.invariant (turn : Turn c s label s')
    (invariant : Rendezvous.Invariant c.threads s.view) :
    Rendezvous.Invariant c.threads s'.view := by
  rcases turn.view with same | step
  · rw [same]
    exact invariant
  · exact invariant.step c.nodup c.complete step

/-! ## The leader and the lock -/

/-- The thread that holds the lock is the one that leads. -/
def LeaderLocks (s : BarrierState Thread) : Prop :=
  ∀ t, (s.pc t).isLeader = true ↔ s.barrierLock = some t

theorem LeaderLocks.move (locks : s.LeaderLocks) {pc' : ThreadPc Thread}
    (same : pc'.isLeader = (s.pc t).isLeader) (moves : s'.pc = Function.update s.pc t pc')
    (lock : s'.barrierLock = s.barrierLock) : s'.LeaderLocks := by
  intro u
  rw [moves, lock, ← locks u]
  by_cases equal : u = t
  · subst u
    simp [same]
  · simp [equal]

theorem LeaderLocks.turn (locks : s.LeaderLocks) (turn : Turn c s label s') : s'.LeaderLocks := by
  cases turn with
  | idle same stays =>
      intro t
      rw [stays, same.barrierLock]
      exact locks t
  | quiet t pc' same goes moves => exact locks.move goes.isLeader_eq moves same.barrierLock
  | lead t runs free =>
      intro u
      by_cases equal : u = t
      · subst u
        simp [setPc, ThreadPc.isLeader]
      · have := locks u
        simp [setPc, equal, this, free, Ne.symm equal]
  | unlock t pc =>
      have held : s.barrierLock = some t := (locks t).mp (by rw [pc]; rfl)
      intro u
      by_cases equal : u = t
      · subst u
        simp [setPc, ThreadPc.isLeader]
      · have := locks u
        simp [setPc, equal, this, held, Ne.symm equal]
  | collect t leads pinSet pc distinct => exact locks.move (by rw [pc]; cases leads <;> rfl) rfl rfl
  | pin t leads p rest pc => exact locks.move (by rw [pc]; cases leads <;> rfl) rfl rfl
  | unpin t leads p rest pc => exact locks.move (by rw [pc]; cases leads <;> rfl) rfl rfl
  | patch t point pc lt => exact locks.move (by rw [pc]; rfl) rfl rfl
  | unpatch t point pc lt => exact locks.move (by rw [pc]; rfl) rfl rfl
  | meet t leads pc => exact locks.move (by rw [pc]; cases leads <;> rfl) rfl rfl
  | enter t leads pc' pc released goes =>
      exact locks.move (by rw [pc, goes.isLeader_eq]; cases leads <;> rfl) rfl rfl
  | part t leads pc => exact locks.move (by rw [pc]; cases leads <;> rfl) rfl rfl
  | exit t leads pc released => exact locks.move (by rw [pc]; cases leads <;> rfl) rfl rfl
  | enterAlone t leads pc' pc alone goes =>
      exact locks.move (by rw [pc, goes.isLeader_eq]; cases leads <;> rfl) rfl rfl
  | exitAlone t leads pc alone => exact locks.move (by rw [pc]; cases leads <;> rfl) rfl rfl
  | ignore t pc => exact locks.move (by rw [pc]; rfl) rfl rfl
  | handle t pc => exact locks.move (by rw [pc]; rfl) rfl rfl
  | move t m pointer pc live movable small => exact locks

/-! ## The patched safepoints -/

/-- A patched safepoint has been patched by a leader that has yet to un-patch it. -/
def LeaderPatches (c : BarrierConfig Thread) (s : BarrierState Thread) : Prop :=
  ∀ point, s.patched point = true →
    point < c.patchPoints ∧ ∃ l, (s.pc l).patches point = true

theorem LeaderPatches.move (patches : LeaderPatches c s) {pc' : ThreadPc Thread}
    (keeps : ∀ point, point < c.patchPoints → (s.pc t).patches point = true →
      pc'.patches point = true)
    (moves : s'.pc = Function.update s.pc t pc') (patched : s'.patched = s.patched) :
    LeaderPatches c s' := by
  intro point isPatched
  rw [patched] at isPatched
  rcases patches point isPatched with ⟨lt, l, covers⟩
  refine ⟨lt, l, ?_⟩
  rw [moves]
  by_cases equal : l = t
  · subst l
    simpa using keeps point lt covers
  · simpa [equal] using covers

theorem LeaderPatches.turn (patches : LeaderPatches c s) (turn : Turn c s label s') :
    LeaderPatches c s' := by
  cases turn with
  | idle same stays =>
      intro point
      rw [stays, same.patched]
      exact patches point
  | quiet t pc' same goes moves =>
      exact patches.move (fun point lt => goes.patches lt) moves same.patched
  | lead t runs free =>
      refine patches.move (fun point lt covers => ?_) rfl rfl
      rw [runs] at covers
      cases covers
  | unlock t pc =>
      refine patches.move (fun point lt covers => ?_) rfl rfl
      rw [pc] at covers
      cases covers
  | collect t leads pinSet pc distinct =>
      refine patches.move (fun point lt covers => ?_) rfl rfl
      rw [pc] at covers
      cases leads <;> exact covers
  | pin t leads p rest pc =>
      refine patches.move (fun point lt covers => ?_) rfl rfl
      rw [pc] at covers
      cases leads <;> exact covers
  | unpin t leads p rest pc =>
      refine patches.move (fun point lt covers => ?_) rfl rfl
      rw [pc] at covers
      cases leads <;> exact covers
  | patch t next pc lt =>
      intro point isPatched
      by_cases same : point = next
      · subst point
        refine ⟨lt, t, ?_⟩
        simp [setPc, ThreadPc.patches]
      · rcases patches point (by simpa [setPc, same] using isPatched) with ⟨inside, l, covers⟩
        refine ⟨inside, l, ?_⟩
        by_cases equal : l = t
        · subst l
          simp only [pc, ThreadPc.patches, decide_eq_true_eq] at covers
          simp only [setPc, Function.update_self, ThreadPc.patches, decide_eq_true_eq]
          omega
        · simpa [setPc, equal] using covers
  | unpatch t next pc lt =>
      intro point isPatched
      by_cases same : point = next
      · simp [setPc, same] at isPatched
      · rcases patches point (by simpa [setPc, same] using isPatched) with ⟨inside, l, covers⟩
        refine ⟨inside, l, ?_⟩
        by_cases equal : l = t
        · subst l
          simp only [pc, ThreadPc.patches, decide_eq_true_eq] at covers
          simp only [setPc, Function.update_self, ThreadPc.patches, decide_eq_true_eq]
          omega
        · simpa [setPc, equal] using covers
  | meet t leads pc =>
      refine patches.move (fun point lt covers => ?_) rfl rfl
      rw [pc] at covers
      cases leads <;> exact covers
  | enter t leads pc' pc released goes =>
      refine patches.move (fun point lt covers => ?_) rfl rfl
      rw [pc] at covers
      cases leads with
      | true => exact goes.patches rfl
      | false => cases covers
  | part t leads pc =>
      refine patches.move (fun point lt covers => ?_) rfl rfl
      rw [pc] at covers
      cases leads <;> exact covers
  | exit t leads pc released =>
      refine patches.move (fun point lt covers => ?_) rfl rfl
      rw [pc] at covers
      cases leads <;> exact covers
  | enterAlone t leads pc' pc alone goes =>
      refine patches.move (fun point lt covers => ?_) rfl rfl
      rw [pc] at covers
      cases leads with
      | true => exact goes.patches rfl
      | false => cases covers
  | exitAlone t leads pc alone =>
      refine patches.move (fun point lt covers => ?_) rfl rfl
      rw [pc] at covers
      cases leads <;> exact covers
  | ignore t pc =>
      refine patches.move (fun point lt covers => ?_) rfl rfl
      rw [pc] at covers
      cases covers
  | handle t pc =>
      refine patches.move (fun point lt covers => ?_) rfl rfl
      rw [pc] at covers
      cases covers
  | move t m pointer pc live movable small => exact patches

end BarrierState

end Alaska
