import Alaska.Runtime.Barrier

/-!
# What a step of the barrier does

A step of one thread either changes nothing that the other threads can see but its own
position, or is one of a few kinds: it takes or gives back the lock, collects a pin set, pins
or un-pins a handle, patches a safepoint, arrives at the barrier or passes it, changes the
disposition of `SIGILL`, or moves an object. Handler and leader do the same things at the
barrier, so most kinds are about both.
-/

namespace Alaska

namespace ThreadPc

variable {Thread : Type}

/-! The positions that the handler and the leader have in common. -/

def collecting : Bool → ThreadPc Thread
  | true => .leader .collecting
  | false => .handler .collecting

def pinning : Bool → List Nat → ThreadPc Thread
  | true, rest => .leader (.pinning rest)
  | false, rest => .handler (.pinning rest)

def joining : Bool → ThreadPc Thread
  | true => .leader .joining
  | false => .handler .joining

def joined : Bool → ThreadPc Thread
  | true => .leader .joined
  | false => .handler .joined

def leaving : Bool → ThreadPc Thread
  | true => .leader .leaving
  | false => .handler .leaving

def left : Bool → ThreadPc Thread
  | true => .leader .left
  | false => .handler .left

def unpinning : Bool → List Nat → ThreadPc Thread
  | true, rest => .leader (.unpinning rest)
  | false, rest => .handler (.unpinning rest)

/-- Where a thread is after the first wait. -/
inductive Entered : Bool → ThreadPc Thread → Prop where
  | handler : Entered false (.handler .leaving)
  | callback : Entered true (.leader .callback)
  | failed : Entered true (.leader (.unpatching 0))

/-- A change of position without another effect that the invariants are about. -/
inductive Quiet (points : Nat) : ThreadPc Thread → ThreadPc Thread → Prop where
  | enter (sig : BarrierSignal) (stack : StackState) :
      Quiet points .running (.handler (.entered sig stack))
  | goBack (sig : BarrierSignal) (stack : StackState) :
      Quiet points (.handler (.entered sig stack)) .running
  | join (sig : BarrierSignal) (stack : StackState) :
      Quiet points (.handler (.entered sig stack)) (.handler .collecting)
  | pinned (leads : Bool) : Quiet points (.pinning leads []) (.joining leads)
  | unpinnedHandler : Quiet points (.handler (.unpinning [])) (.handler .ignoreIll)
  | unpinnedLeader : Quiet points (.leader (.unpinning [])) (.leader .unlocking)
  | discard : Quiet points (.handler .ignoreUsr2) (.handler .handleIll)
  | resume : Quiet points (.handler .handleUsr2) .running
  | reset : Quiet points (.leader .locked) (.leader (.patching 0))
  | patched (point : Nat) (all : points ≤ point) :
      Quiet points (.leader (.patching point)) (.leader (.signalling 0))
  | signal (retries next : Nat) (rest : List Thread) (sentSignal : Bool) :
      Quiet points (.leader (.signalling retries)) (.leader (.scanning next rest sentSignal))
  | giveUp (retries : Nat) :
      Quiet points (.leader (.signalling retries)) (.leader .collecting)
  | scan (retries : Nat) (rest next : List Thread) (sentSignal sent : Bool) :
      Quiet points (.leader (.scanning retries rest sentSignal))
        (.leader (.scanning retries next sent))
  | again (retries : Nat) (sentSignal : Bool) :
      Quiet points (.leader (.scanning retries [] sentSignal)) (.leader (.signalling retries))
  | scanned (retries : Nat) (sentSignal : Bool) :
      Quiet points (.leader (.scanning retries [] sentSignal)) (.leader .collecting)
  | finish : Quiet points (.leader .callback) (.leader (.unpatching 0))
  | unpatched (point : Nat) (all : points ≤ point) :
      Quiet points (.leader (.unpatching point)) (.leader .leaving)

end ThreadPc

namespace BarrierState

variable {Thread : Type}

/-- A thread is alone when no more than one is registered. -/
theorem alone_of_length_le {c : BarrierConfig Thread} {t : Thread}
    (short : ¬ c.threads.length > 1) (u : Thread) : u = t := by
  match threads : c.threads with
  | [] => simpa [threads] using c.complete u
  | [v] =>
      have isU := c.complete u
      have isT := c.complete t
      simp only [threads, List.mem_singleton] at isU isT
      exact isU.trans isT.symm
  | v :: w :: rest => simp [threads] at short

theorem entered_afterBegin (s : BarrierState Thread) : ThreadPc.Entered true s.afterBegin := by
  unfold afterBegin
  cases s.success with
  | true => exact .callback
  | false => exact .failed

variable [DecidableEq Thread]

/-- The parts of the state that the invariants are about, but for the positions, are the same. -/
structure SameCore (s s' : BarrierState Thread) : Prop where
  pinSet : s'.pinSet = s.pinSet
  barrierLock : s'.barrierLock = s.barrierLock
  barrier : s'.barrier = s.barrier
  patched : s'.patched = s.patched
  handlesIll : s'.handlesIll = s.handlesIll
  mappings : s'.mappings = s.mappings

/-- The kinds of steps. The label is kept where a condition on the steps is about it. -/
inductive Turn (c : BarrierConfig Thread) (s : BarrierState Thread) :
    BarrierLabel Thread → BarrierState Thread → Prop where
  | idle {label : BarrierLabel Thread} {s' : BarrierState Thread} (same : SameCore s s')
      (stays : s'.pc = s.pc) : Turn c s label s'
  | quiet {label : BarrierLabel Thread} {s' : BarrierState Thread} (t : Thread)
      (pc' : ThreadPc Thread)
      (same : SameCore s s') (goes : ThreadPc.Quiet c.patchPoints (s.pc t) pc')
      (moves : s'.pc = Function.update s.pc t pc') : Turn c s label s'
  | lead {label : BarrierLabel Thread} (t : Thread) (runs : s.pc t = .running)
      (free : s.barrierLock = none) :
      Turn c s label ({ s with barrierLock := some t }.setPc t (.leader .locked))
  | unlock {label : BarrierLabel Thread} (t : Thread) (pc : s.pc t = .leader .unlocking) :
      Turn c s label ({ s with barrierLock := none }.setPc t .running)
  | collect {label : BarrierLabel Thread} (t : Thread) (leads : Bool) (pinSet : List Nat)
      (pc : s.pc t = .collecting leads) (distinct : pinSet.Nodup) :
      Turn c s label ({ s with pinSet := Function.update s.pinSet t pinSet }.setPc t
        (.pinning leads pinSet))
  | pin {label : BarrierLabel Thread} (t : Thread) (leads : Bool) (p : Nat) (rest : List Nat)
      (pc : s.pc t = .pinning leads (p :: rest)) :
      Turn c s label ((s.record c p true).setPc t (.pinning leads rest))
  | unpin (t : Thread) (leads : Bool) (p : Nat) (rest : List Nat)
      (pc : s.pc t = .unpinning leads (p :: rest)) :
      Turn c s (.advance t) ((s.record c p false).setPc t (.unpinning leads rest))
  | patch (t : Thread) (point : Nat) (pc : s.pc t = .leader (.patching point))
      (lt : point < c.patchPoints) :
      Turn c s (.advance t) ({ s with patched := Function.update s.patched point true }.setPc t
        (.leader (.patching (point + 1))))
  | unpatch {label : BarrierLabel Thread} (t : Thread) (point : Nat)
      (pc : s.pc t = .leader (.unpatching point))
      (lt : point < c.patchPoints) :
      Turn c s label ({ s with patched := Function.update s.patched point false }.setPc t
        (.leader (.unpatching (point + 1))))
  | meet {label : BarrierLabel Thread} (t : Thread) (leads : Bool) (pc : s.pc t = .joining leads) :
      Turn c s label ({ s with barrier := s.barrier.arrive c.threads t }.setPc t (.joined leads))
  | enter {label : BarrierLabel Thread} (t : Thread) (leads : Bool) (pc' : ThreadPc Thread)
      (pc : s.pc t = .joined leads)
      (released : ¬ s.barrier.Parked t) (goes : ThreadPc.Entered leads pc') :
      Turn c s label ({ s with barrier := s.barrier.pass t }.setPc t pc')
  | part {label : BarrierLabel Thread} (t : Thread) (leads : Bool) (pc : s.pc t = .leaving leads) :
      Turn c s label ({ s with barrier := s.barrier.arrive c.threads t }.setPc t (.left leads))
  | exit {label : BarrierLabel Thread} (t : Thread) (leads : Bool) (pc : s.pc t = .left leads)
      (released : ¬ s.barrier.Parked t) :
      Turn c s label
          ({ s with barrier := s.barrier.pass t }.setPc t (.unpinning leads (s.pinSet t)))
  | enterAlone {label : BarrierLabel Thread} (t : Thread) (leads : Bool) (pc' : ThreadPc Thread)
      (pc : s.pc t = .joining leads)
      (alone : ∀ u, u = t) (goes : ThreadPc.Entered leads pc') : Turn c s label (s.setPc t pc')
  | exitAlone {label : BarrierLabel Thread} (t : Thread) (leads : Bool)
      (pc : s.pc t = .leaving leads) (alone : ∀ u, u = t) :
      Turn c s label (s.setPc t (.unpinning leads (s.pinSet t)))
  | ignore {label : BarrierLabel Thread} (t : Thread) (pc : s.pc t = .handler .ignoreIll) :
      Turn c s label ({ s with handlesIll := false }.setPc t (.handler .ignoreUsr2))
  | handle {label : BarrierLabel Thread} (t : Thread) (pc : s.pc t = .handler .handleIll) :
      Turn c s label ({ s with handlesIll := true }.setPc t (.handler .handleUsr2))
  | move {label : BarrierLabel Thread} (t : Thread) (m pointer : Nat)
      (pc : s.pc t = .leader .callback) (live : (s.mappings m).isFree = false)
      (movable : (s.mappings m).isPinned = false) (small : pointer < 2 ^ 61) :
      Turn c s label { s with
        mappings := Function.update s.mappings m ((s.mappings m).setPointer pointer) }

variable {c : BarrierConfig Thread} {s s' : BarrierState Thread} {t : Thread}

theorem Turn.of_meet {leads : Bool} {beyond : ThreadPc Thread} (pc : s.pc t = .joining leads)
    (goes : ThreadPc.Entered leads beyond) : Turn c s (.advance t)
        (s.arrive c t (.joined leads) beyond) := by
  unfold arrive
  by_cases several : c.threads.length > 1
  · rw [if_pos several]
    exact .meet t leads pc
  · rw [if_neg several]
    exact .enterAlone t leads beyond pc (alone_of_length_le several) goes

theorem Turn.of_part (leads : Bool) (pc : s.pc t = .leaving leads) :
    Turn c s (.advance t) (s.arrive c t (.left leads) (.unpinning leads (s.pinSet t))) := by
  unfold arrive
  by_cases several : c.threads.length > 1
  · rw [if_pos several]
    exact .part t leads pc
  · rw [if_neg several]
    exact .exitAlone t leads pc (alone_of_length_le several)

theorem pass_eq_some {beyond : ThreadPc Thread} (taken : s.pass t beyond = some s') :
    ¬ s.barrier.Parked t ∧ s' = { s with barrier := s.barrier.pass t }.setPc t beyond := by
  unfold pass at taken
  by_cases parked : s.barrier.Parked t
  · rw [if_pos parked] at taken
    cases taken
  · rw [if_neg parked] at taken
    exact ⟨parked, (Option.some.inj taken).symm⟩

theorem handlerStep_turn {pc : HandlerPc} (isPc : s.pc t = .handler pc)
    (taken : s.handlerStep c t pc = some s') : Turn c s (.advance t) s' := by
  have quiet : ∀ {s' : BarrierState Thread} pc', SameCore s s' →
      ThreadPc.Quiet c.patchPoints (.handler pc) pc' → s'.pc = Function.update s.pc t pc' →
      Turn c s (.advance t) s' :=
    fun pc' same goes moves => .quiet t pc' same (isPc ▸ goes) moves
  cases pc with
  | entered sig stack =>
      by_cases first : sig = .sigusr2 ∧ stack = .managedUntracked ∧ s.invalidStateAbort t = false
      · rcases first with ⟨rfl, rfl, first⟩
        rw [handlerStep, if_pos first] at taken
        obtain rfl := Option.some.inj taken
        exact quiet _ ⟨rfl, rfl, rfl, rfl, rfl, rfl⟩ (.goBack _ _) rfl
      · have joins : ∃ reason, s' = s.join t reason := by
          cases sig with
          | sigill => cases stack <;> exact ⟨_, (Option.some.inj taken).symm⟩
          | sigusr2 =>
              cases stack with
              | managedUntracked =>
                  rw [handlerStep, if_neg (by simpa using first)] at taken
                  exact ⟨_, (Option.some.inj taken).symm⟩
              | _ => exact ⟨_, (Option.some.inj taken).symm⟩
        rcases joins with ⟨reason, rfl⟩
        exact quiet _ ⟨rfl, rfl, rfl, rfl, rfl, rfl⟩ (.join _ _) rfl
  | collecting => cases taken
  | pinning rest =>
      cases rest with
      | nil =>
          obtain rfl := Option.some.inj taken
          exact quiet _ ⟨rfl, rfl, rfl, rfl, rfl, rfl⟩ (.pinned false) rfl
      | cons p rest =>
          obtain rfl := Option.some.inj taken
          exact .pin t false p rest isPc
  | joining =>
      obtain rfl := Option.some.inj taken
      exact Turn.of_meet isPc .handler
  | joined =>
      rcases pass_eq_some taken with ⟨released, rfl⟩
      exact .enter t false _ isPc released .handler
  | leaving =>
      obtain rfl := Option.some.inj taken
      exact Turn.of_part false isPc
  | left =>
      rcases pass_eq_some taken with ⟨released, rfl⟩
      exact .exit t false isPc released
  | unpinning rest =>
      cases rest with
      | nil =>
          obtain rfl := Option.some.inj taken
          exact quiet _ ⟨rfl, rfl, rfl, rfl, rfl, rfl⟩ .unpinnedHandler rfl
      | cons p rest =>
          obtain rfl := Option.some.inj taken
          exact .unpin t false p rest isPc
  | ignoreIll =>
      obtain rfl := Option.some.inj taken
      exact .ignore t isPc
  | ignoreUsr2 =>
      obtain rfl := Option.some.inj taken
      exact quiet _ ⟨rfl, rfl, rfl, rfl, rfl, rfl⟩ .discard rfl
  | handleIll =>
      obtain rfl := Option.some.inj taken
      exact .handle t isPc
  | handleUsr2 =>
      obtain rfl := Option.some.inj taken
      exact quiet _ ⟨rfl, rfl, rfl, rfl, rfl, rfl⟩ .resume rfl

theorem leaderStep_turn {pc : LeaderPc Thread} (isPc : s.pc t = .leader pc)
    (taken : s.leaderStep c t pc = some s') : Turn c s (.advance t) s' := by
  have quiet : ∀ {s' : BarrierState Thread} pc', SameCore s s' →
      ThreadPc.Quiet c.patchPoints (.leader pc) pc' → s'.pc = Function.update s.pc t pc' →
      Turn c s (.advance t) s' :=
    fun pc' same goes moves => .quiet t pc' same (isPc ▸ goes) moves
  cases pc with
  | locked =>
      obtain rfl := Option.some.inj taken
      exact quiet _ ⟨rfl, rfl, rfl, rfl, rfl, rfl⟩ .reset rfl
  | patching point =>
      by_cases lt : point < c.patchPoints
      · rw [leaderStep, if_pos lt] at taken
        obtain rfl := Option.some.inj taken
        exact .patch t point isPc lt
      · rw [leaderStep, if_neg lt] at taken
        obtain rfl := Option.some.inj taken
        exact quiet _ ⟨rfl, rfl, rfl, rfl, rfl, rfl⟩ (.patched _ (Nat.le_of_not_lt lt)) rfl
  | signalling retries =>
      by_cases many : retries ≥ 1000
      · rw [leaderStep, if_pos many] at taken
        obtain rfl := Option.some.inj taken
        exact quiet _ ⟨rfl, rfl, rfl, rfl, rfl, rfl⟩ (.giveUp _) rfl
      · rw [leaderStep, if_neg many] at taken
        obtain rfl := Option.some.inj taken
        exact quiet _ ⟨rfl, rfl, rfl, rfl, rfl, rfl⟩ (.signal _ _ _ _) rfl
  | scanning retries rest sentSignal =>
      cases rest with
      | nil =>
          cases sentSignal with
          | true =>
              obtain rfl := Option.some.inj taken
              exact quiet _ ⟨rfl, rfl, rfl, rfl, rfl, rfl⟩ (.again _ _) rfl
          | false =>
              obtain rfl := Option.some.inj taken
              exact quiet _ ⟨rfl, rfl, rfl, rfl, rfl, rfl⟩ (.scanned _ _) rfl
      | cons u rest =>
          unfold leaderStep at taken
          cases status : s.joinStatus u with
          | _ =>
              simp only [status] at taken
              obtain rfl := Option.some.inj taken
              exact quiet _ ⟨rfl, rfl, rfl, rfl, rfl, rfl⟩ (.scan _ _ _ _ _) rfl
  | collecting => cases taken
  | pinning rest =>
      cases rest with
      | nil =>
          obtain rfl := Option.some.inj taken
          exact quiet _ ⟨rfl, rfl, rfl, rfl, rfl, rfl⟩ (.pinned true) rfl
      | cons p rest =>
          obtain rfl := Option.some.inj taken
          exact .pin t true p rest isPc
  | joining =>
      obtain rfl := Option.some.inj taken
      exact Turn.of_meet isPc (entered_afterBegin s)
  | joined =>
      rcases pass_eq_some taken with ⟨released, rfl⟩
      exact .enter t true _ isPc released (entered_afterBegin s)
  | callback =>
      obtain rfl := Option.some.inj taken
      exact quiet _ ⟨rfl, rfl, rfl, rfl, rfl, rfl⟩ .finish rfl
  | unpatching point =>
      by_cases lt : point < c.patchPoints
      · rw [leaderStep, if_pos lt] at taken
        obtain rfl := Option.some.inj taken
        exact .unpatch t point isPc lt
      · rw [leaderStep, if_neg lt] at taken
        obtain rfl := Option.some.inj taken
        exact quiet _ ⟨rfl, rfl, rfl, rfl, rfl, rfl⟩ (.unpatched _ (Nat.le_of_not_lt lt)) rfl
  | leaving =>
      obtain rfl := Option.some.inj taken
      exact Turn.of_part true isPc
  | left =>
      rcases pass_eq_some taken with ⟨released, rfl⟩
      exact .exit t true isPc released
  | unpinning rest =>
      cases rest with
      | nil =>
          obtain rfl := Option.some.inj taken
          exact quiet _ ⟨rfl, rfl, rfl, rfl, rfl, rfl⟩ .unpinnedLeader rfl
      | cons p rest =>
          obtain rfl := Option.some.inj taken
          exact .unpin t true p rest isPc
  | unlocking =>
      obtain rfl := Option.some.inj taken
      exact .unlock t isPc

/-- Every step is a turn. -/
theorem step_turn {label : BarrierLabel Thread} (taken : s.step c label = some s') :
    Turn c s label s' := by
  cases label with
  | lead t =>
      simp only [step, Option.ite_none_right_eq_some] at taken
      rcases taken with ⟨⟨runs, free⟩, taken⟩
      obtain rfl := Option.some.inj taken
      exact .lead t runs free
  | trap t point stack =>
      simp only [step, Option.ite_none_right_eq_some] at taken
      rcases taken with ⟨⟨runs, _⟩, taken⟩
      obtain rfl := Option.some.inj taken
      exact .quiet t _ ⟨rfl, rfl, rfl, rfl, rfl, rfl⟩ (runs ▸ .enter _ _) rfl
  | deliver t stack =>
      simp only [step, Option.ite_none_right_eq_some] at taken
      rcases taken with ⟨⟨runs, _⟩, taken⟩
      by_cases handled : s.handlesUsr2 = true
      · rw [if_pos handled] at taken
        obtain rfl := Option.some.inj taken
        exact .quiet t _ ⟨rfl, rfl, rfl, rfl, rfl, rfl⟩ (runs ▸ .enter _ _) rfl
      · rw [if_neg handled] at taken
        obtain rfl := Option.some.inj taken
        exact .idle ⟨rfl, rfl, rfl, rfl, rfl, rfl⟩ rfl
  | collect t pinSet =>
      simp only [step, Option.ite_none_right_eq_some] at taken
      rcases taken with ⟨distinct, taken⟩
      split at taken
      · next pc =>
          obtain rfl := Option.some.inj taken
          exact .collect t false pinSet pc distinct
      · next pc =>
          obtain rfl := Option.some.inj taken
          exact .collect t true pinSet pc distinct
      · cases taken
  | advance t =>
      simp only [step] at taken
      split at taken
      · next pc isPc => exact handlerStep_turn isPc taken
      · next pc isPc => exact leaderStep_turn isPc taken
      · cases taken
  | move t m pointer =>
      simp only [step, Option.ite_none_right_eq_some] at taken
      rcases taken with ⟨⟨pc, live, movable, small⟩, taken⟩
      obtain rfl := Option.some.inj taken
      exact .move t m pointer pc live movable small

end BarrierState

end Alaska
