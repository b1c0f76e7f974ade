import Alaska.Lib.Rendezvous
import Alaska.Lib.Run
import Alaska.Runtime.Mapping

/-!
# The barrier

`barrier.cpp`: a leader takes the barrier lock, patches the safepoints, signals the threads
that have not joined, waits for all of them, runs the callback of `with_barrier` and lets
them go. A thread joins from the signal handler. Every label moves one thread by one step, so
a run is an interleaving of the threads over any number of barriers. A synchronous `SIGILL`
that is ignored kills the process, so such a trap is not a step.
-/

namespace Alaska

inductive JoinStatus where
  | notJoined
  | signal
  | safepoint
  | orchestrator
  | abort
  deriving DecidableEq

inductive StackState where
  | managedTracked
  | managedUntracked
  | unmanaged
  deriving DecidableEq

inductive BarrierSignal where
  | sigill
  | sigusr2
  deriving DecidableEq

/-- Where a thread is in `alaska_barrier_signal_handler`. -/
inductive HandlerPc where
  | entered (sig : BarrierSignal) (stack : StackState)
  | collecting
  /-- The handles that `participant_join` has still to pin. -/
  | pinning (rest : List Nat)
  | joining
  | joined
  | leaving
  | left
  /-- The handles that `participant_leave` has still to un-pin. -/
  | unpinning (rest : List Nat)
  /-- The four calls of `sigaction` in `clear_pending_signals`. -/
  | ignoreIll
  | ignoreUsr2
  | handleIll
  | handleUsr2
  deriving DecidableEq

/-- Where a leader is in `begin`, the callback of `with_barrier`, or `end`. -/
inductive LeaderPc (Thread : Type) where
  | locked
  | patching (point : Nat)
  | signalling (retries : Nat)
  | scanning (retries : Nat) (rest : List Thread) (sentSignal : Bool)
  | collecting
  | pinning (rest : List Nat)
  | joining
  | joined
  | callback
  | unpatching (point : Nat)
  | leaving
  | left
  | unpinning (rest : List Nat)
  | unlocking
  deriving DecidableEq

inductive ThreadPc (Thread : Type) where
  | running
  | handler (pc : HandlerPc)
  | leader (pc : LeaderPc Thread)
  deriving DecidableEq

/-- What does not change: the registered threads, the patch points, the size of the table. -/
structure BarrierConfig (Thread : Type) where
  threads : List Thread
  nodup : threads.Nodup
  complete : ∀ t, t ∈ threads
  patchPoints : Nat
  validHandle : Nat → Bool

structure BarrierState (Thread : Type) where
  pc : Thread → ThreadPc Thread
  joinStatus : Thread → JoinStatus
  invalidStateAbort : Thread → Bool
  /-- Is a `SIGUSR2` pending for the thread? -/
  pending : Thread → Bool
  /-- The pin set that the thread collected for the barrier it is in. -/
  pinSet : Thread → List Nat
  barrierLock : Option Thread
  success : Bool
  barrier : CyclicBarrier Thread
  patched : Nat → Bool
  /-- Is the barrier handler installed, or the signal ignored? -/
  handlesIll : Bool
  handlesUsr2 : Bool
  mappings : Mappings

inductive BarrierLabel (Thread : Type) where
  | lead (t : Thread)
  /-- The thread executes a patched safepoint. -/
  | trap (t : Thread) (point : Nat) (stack : StackState)
  /-- A pending `SIGUSR2` reaches the thread. -/
  | deliver (t : Thread) (stack : StackState)
  /-- `get_pinned_handles` finds the pin set, a set, on the thread's stack. -/
  | collect (t : Thread) (pinSet : List Nat)
  | advance (t : Thread)
  /-- The callback moves a live object that is not pinned. -/
  | move (t : Thread) (mapping pointer : Nat)

namespace BarrierState

variable {Thread : Type} [DecidableEq Thread]

def setPc (s : BarrierState Thread) (t : Thread) (pc : ThreadPc Thread) : BarrierState Thread :=
  { s with pc := Function.update s.pc t pc }

/-- `record_handle`. -/
def recordHandle (c : BarrierConfig Thread) (mappings : Mappings) (possibleHandle : Nat)
    (marked : Bool) : Mappings :=
  match Mapping.fromHandleSafe possibleHandle with
  | none => mappings
  | some m =>
      if c.validHandle m = false then mappings
      else if (mappings m).isFree then mappings
      else Function.update mappings m ((mappings m).setPinned marked)

/-- One iteration of the loops over a pin set. -/
def record (c : BarrierConfig Thread) (s : BarrierState Thread) (possibleHandle : Nat)
    (marked : Bool) : BarrierState Thread :=
  { s with mappings := recordHandle c s.mappings possibleHandle marked }

/-- `pthread_barrier_wait`, unless there is one thread only: arriving, and the pc after it. -/
def arrive (c : BarrierConfig Thread) (s : BarrierState Thread) (t : Thread)
    (waiting beyond : ThreadPc Thread) : BarrierState Thread :=
  if c.threads.length > 1 then
    { s with barrier := s.barrier.arrive c.threads t }.setPc t waiting
  else s.setPc t beyond

/-- The thread goes on once the barrier has let it go. -/
def pass (s : BarrierState Thread) (t : Thread) (beyond : ThreadPc Thread) :
    Option (BarrierState Thread) :=
  if s.barrier.Parked t then none
  else some ({ s with barrier := s.barrier.pass t }.setPc t beyond)

/-- The thread joins for a reason. -/
def join (s : BarrierState Thread) (t : Thread) (reason : JoinStatus) : BarrierState Thread :=
  { s with
    joinStatus := Function.update s.joinStatus t reason
    invalidStateAbort := Function.update s.invalidStateAbort t false }.setPc t
      (.handler .collecting)

/-- The signal handler. -/
def handlerStep (c : BarrierConfig Thread) (s : BarrierState Thread) (t : Thread) :
    HandlerPc → Option (BarrierState Thread)
  | .entered .sigill .managedUntracked => some (s.join t .abort)
  | .entered .sigusr2 .managedUntracked =>
      -- the first time the thread goes back, to reach a poll
      if s.invalidStateAbort t = false then
        some ({ s with
          invalidStateAbort := Function.update s.invalidStateAbort t true }.setPc t .running)
      else some (s.join t .abort)
  | .entered _ .managedTracked => some (s.join t .safepoint)
  | .entered _ .unmanaged => some (s.join t .signal)
  | .collecting => none
  | .pinning [] => some (s.setPc t (.handler .joining))
  | .pinning (p :: rest) => some ((s.record c p true).setPc t (.handler (.pinning rest)))
  | .joining => some (s.arrive c t (.handler .joined) (.handler .leaving))
  | .joined => s.pass t (.handler .leaving)
  | .leaving => some (s.arrive c t (.handler .left) (.handler (.unpinning (s.pinSet t))))
  | .left => s.pass t (.handler (.unpinning (s.pinSet t)))
  | .unpinning [] => some (s.setPc t (.handler .ignoreIll))
  | .unpinning (p :: rest) => some ((s.record c p false).setPc t (.handler (.unpinning rest)))
  | .ignoreIll => some ({ s with handlesIll := false }.setPc t (.handler .ignoreUsr2))
  -- ignoring a signal discards it where it is pending
  | .ignoreUsr2 =>
      some ({ s with handlesUsr2 := false, pending := fun _ => false }.setPc t
        (.handler .handleIll))
  | .handleIll => some ({ s with handlesIll := true }.setPc t (.handler .handleUsr2))
  | .handleUsr2 => some ({ s with handlesUsr2 := true }.setPc t .running)

/-- What follows the wait of `begin` in `with_barrier`. -/
def afterBegin (s : BarrierState Thread) : ThreadPc Thread :=
  .leader (if s.success then .callback else .unpatching 0)

/--
`begin` and `end`. The walk of `end` visits the frames that `begin` visited, which have not run
in between, so both loops use the pin set of `begin`.
-/
def leaderStep (c : BarrierConfig Thread) (s : BarrierState Thread) (t : Thread) :
    LeaderPc Thread → Option (BarrierState Thread)
  | .locked =>
      some ({ s with
        joinStatus := fun u => if u = t then .orchestrator else .notJoined
        success := true }.setPc t (.leader (.patching 0)))
  | .patching point =>
      if point < c.patchPoints then
        some ({ s with patched := Function.update s.patched point true }.setPc t
          (.leader (.patching (point + 1))))
      else some (s.setPc t (.leader (.signalling 0)))
  | .signalling retries =>
      if retries ≥ 1000 then some ({ s with success := false }.setPc t (.leader .collecting))
      else some (s.setPc t (.leader (.scanning (retries + 1) c.threads false)))
  | .scanning retries [] sentSignal =>
      some (s.setPc t (.leader (if sentSignal then .signalling retries else .collecting)))
  | .scanning retries (u :: rest) sentSignal =>
      match s.joinStatus u with
      | .notJoined =>
          some ({ s with pending := Function.update s.pending u true }.setPc t
            (.leader (.scanning retries rest true)))
      | .abort =>
          some ({ s with success := false }.setPc t (.leader (.scanning retries rest sentSignal)))
      | _ => some (s.setPc t (.leader (.scanning retries rest sentSignal)))
  | .collecting => none
  | .pinning [] => some (s.setPc t (.leader .joining))
  | .pinning (p :: rest) => some ((s.record c p true).setPc t (.leader (.pinning rest)))
  | .joining => some (s.arrive c t (.leader .joined) s.afterBegin)
  | .joined => s.pass t s.afterBegin
  | .callback => some (s.setPc t (.leader (.unpatching 0)))
  | .unpatching point =>
      if point < c.patchPoints then
        some ({ s with patched := Function.update s.patched point false }.setPc t
          (.leader (.unpatching (point + 1))))
      else some (s.setPc t (.leader .leaving))
  | .leaving => some (s.arrive c t (.leader .left) (.leader (.unpinning (s.pinSet t))))
  | .left => s.pass t (.leader (.unpinning (s.pinSet t)))
  | .unpinning [] => some (s.setPc t (.leader .unlocking))
  | .unpinning (p :: rest) => some ((s.record c p false).setPc t (.leader (.unpinning rest)))
  | .unlocking => some ({ s with barrierLock := none }.setPc t .running)

/-- The step of a label, if it can be taken. -/
def step (c : BarrierConfig Thread) (s : BarrierState Thread) :
    BarrierLabel Thread → Option (BarrierState Thread)
  | .lead t =>
      if s.pc t = .running ∧ s.barrierLock = none then
        some ({ s with barrierLock := some t }.setPc t (.leader .locked))
      else none
  | .trap t point stack =>
      if s.pc t = .running ∧ s.patched point = true ∧ s.handlesIll = true ∧ stack ≠ .unmanaged then
        some (s.setPc t (.handler (.entered .sigill stack)))
      else none
  | .deliver t stack =>
      if s.pc t = .running ∧ s.pending t = true then
        let cleared := { s with pending := Function.update s.pending t false }
        if s.handlesUsr2 then some (cleared.setPc t (.handler (.entered .sigusr2 stack)))
        else some cleared
      else none
  | .collect t pinSet =>
      if pinSet.Nodup then
        let collected := { s with pinSet := Function.update s.pinSet t pinSet }
        match s.pc t with
        | .handler .collecting => some (collected.setPc t (.handler (.pinning pinSet)))
        | .leader .collecting => some (collected.setPc t (.leader (.pinning pinSet)))
        | _ => none
      else none
  | .advance t =>
      match s.pc t with
      | .handler pc => s.handlerStep c t pc
      | .leader pc => s.leaderStep c t pc
      | .running => none
  | .move t m pointer =>
      if s.pc t = .leader .callback ∧ (s.mappings m).isFree = false ∧
          (s.mappings m).isPinned = false ∧ pointer < 2 ^ 61 then
        some { s with mappings := Function.update s.mappings m ((s.mappings m).setPointer pointer) }
      else none

/-- Every thread runs, nothing is patched, and the handlers are installed. -/
def start (mappings : Mappings) : BarrierState Thread where
  pc _ := .running
  joinStatus _ := .notJoined
  invalidStateAbort _ := false
  pending _ := false
  pinSet _ := []
  barrierLock := none
  success := true
  barrier := .empty
  patched _ := false
  handlesIll := true
  handlesUsr2 := true
  mappings := mappings

end BarrierState

end Alaska
