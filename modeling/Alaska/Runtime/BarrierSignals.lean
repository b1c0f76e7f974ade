import Alaska.Runtime.BarrierPins
import Mathlib.Data.List.Perm.Subperm

/-!
# Who handles a trap

`clear_pending_signals` is the last thing a thread does in the signal handler, and the
dispositions it changes are those of the process. The leader does not wait for it: when the
threads have met for the second time the leader gives the lock back, and the next barrier may
patch the safepoints while a thread of the last one has still to ignore `SIGILL`.
-/

namespace Alaska

open Lts

namespace ThreadPc

variable {Thread : Type}

/-- The thread will ignore `SIGILL` before it runs again. -/
def ignoresLater : ThreadPc Thread → Bool
  | .handler (.unpinning _) => true
  | .handler .ignoreIll => true
  | _ => false

/-- The thread has ignored `SIGILL` and not installed the handler again. -/
def ignoring : ThreadPc Thread → Bool
  | .handler .ignoreUsr2 => true
  | .handler .handleIll => true
  | _ => false

variable {points : Nat} {pc pc' : ThreadPc Thread} {leads : Bool}

theorem Quiet.ignoresLater (goes : Quiet points pc pc') (later : pc'.ignoresLater = true) :
    pc.ignoresLater = true := by
  cases goes with
  | unpinnedHandler => rfl
  | pinned leads => cases leads <;> cases later
  | _ => cases later

theorem Quiet.ne_left (goes : Quiet points pc pc') : pc' ≠ .handler .left := by
  cases goes with
  | pinned leads => cases leads <;> nofun
  | _ => nofun

theorem Quiet.ignoring (goes : Quiet points pc pc') (ignores : pc.ignoring = true) :
    pc'.ignoring = true := by
  cases goes with
  | discard => rfl
  | pinned leads => cases leads <;> cases ignores
  | _ => cases ignores

theorem Entered.ignoresLater_eq (goes : Entered leads pc) : pc.ignoresLater = false := by
  cases goes <;> rfl

theorem Entered.ne_left (goes : Entered leads pc) : pc ≠ .handler .left := by
  cases goes <;> nofun

end ThreadPc

namespace BarrierState

variable {Thread : Type}

/-- The thread has left the barrier it joined, or may leave it, and will ignore `SIGILL`. -/
def StillIgnores (s : BarrierState Thread) (t : Thread) : Prop :=
  (s.pc t).ignoresLater = true ∨ s.pc t = .handler .left ∧ ¬ s.barrier.Parked t

/-- What the barrier is to guarantee to a thread that may execute a safepoint. -/
def TrapsAreHandled (s : BarrierState Thread) : Prop :=
  ∀ t point, s.pc t = .running → s.patched point = true → s.handlesIll = true

/--
A leader patches a safepoint only when the threads of the barriers before are done with
ignoring `SIGILL`. With two threads this is not needed, as none is left to trap.
-/
def PatchesAlone (c : BarrierConfig Thread) (s : BarrierState Thread) :
    BarrierLabel Thread → Prop
  | .advance t => ∀ point, s.pc t = .leader (.patching point) → point < c.patchPoints →
      c.threads.length ≤ 2 ∨ s.handlesIll = true ∧ ∀ u, ¬ s.StillIgnores u
  | _ => True

variable {c : BarrierConfig Thread} {s s' : BarrierState Thread} {t u : Thread}
  {label : BarrierLabel Thread} [DecidableEq Thread]

/-! ## Who ignores -/

/-- While `SIGILL` is ignored some thread has yet to install the handler. -/
def SomeoneIgnores (s : BarrierState Thread) : Prop :=
  s.handlesIll = false → ∃ t, (s.pc t).ignoring = true

theorem SomeoneIgnores.move (someone : s.SomeoneIgnores) {pc' : ThreadPc Thread}
    (keeps : (s.pc t).ignoring = true → pc'.ignoring = true)
    (moves : s'.pc = Function.update s.pc t pc') (handles : s'.handlesIll = s.handlesIll) :
    s'.SomeoneIgnores := by
  intro unhandled
  rcases someone (handles ▸ unhandled) with ⟨v, ignores⟩
  refine ⟨v, ?_⟩
  rw [moves]
  by_cases equal : v = t
  · subst v
    simpa using keeps ignores
  · simpa [equal] using ignores

theorem SomeoneIgnores.turn (someone : s.SomeoneIgnores) (turn : Turn c s label s') :
    s'.SomeoneIgnores := by
  -- a thread that is not between the two calls of `sigaction` may move anywhere
  have other : ∀ {s' : BarrierState Thread} {t : Thread} {pc pc' : ThreadPc Thread},
      s.pc t = pc → pc.ignoring = false → s'.pc = Function.update s.pc t pc' →
      s'.handlesIll = s.handlesIll → s'.SomeoneIgnores := by
    intro s' t pc pc' isPc idle moves handles
    refine someone.move (fun ignores => ?_) moves handles
    rw [isPc, idle] at ignores
    cases ignores
  cases turn with
  | idle same stays =>
      unfold SomeoneIgnores
      rw [stays, same.handlesIll]
      exact someone
  | quiet t pc' same goes moves => exact someone.move goes.ignoring moves same.handlesIll
  | lead t runs free => exact other runs rfl rfl rfl
  | unlock t pc => exact other pc rfl rfl rfl
  | collect t leads pinSet pc distinct => exact other pc (by cases leads <;> rfl) rfl rfl
  | pin t leads p rest pc => exact other pc (by cases leads <;> rfl) rfl rfl
  | unpin t leads p rest pc => exact other pc (by cases leads <;> rfl) rfl rfl
  | patch t point pc lt => exact other pc rfl rfl rfl
  | unpatch t point pc lt => exact other pc rfl rfl rfl
  | meet t leads pc => exact other pc (by cases leads <;> rfl) rfl rfl
  | enter t leads pc' pc released goes => exact other pc (by cases leads <;> rfl) rfl rfl
  | part t leads pc => exact other pc (by cases leads <;> rfl) rfl rfl
  | exit t leads pc released => exact other pc (by cases leads <;> rfl) rfl rfl
  | enterAlone t leads pc' pc alone goes => exact other pc (by cases leads <;> rfl) rfl rfl
  | exitAlone t leads pc alone => exact other pc (by cases leads <;> rfl) rfl rfl
  | ignore t pc =>
      intro _
      exact ⟨t, by simp [setPc, ThreadPc.ignoring]⟩
  | handle t pc =>
      intro unhandled
      cases unhandled
  | move t m pointer pc live movable small => exact someone

/-! ## Nobody ignores while a safepoint is patched -/

/-- While a safepoint is patched the handler is installed, and stays so. -/
def PatchedIsHandled (s : BarrierState Thread) : Prop :=
  ∀ point, s.patched point = true → s.handlesIll = true ∧ ∀ u, ¬ s.StillIgnores u

omit [DecidableEq Thread] in
theorem PatchedIsHandled.of_unpatched (unpatched : ∀ point, s.patched point ≠ true) :
    s.PatchedIsHandled := fun point patched => absurd patched (unpatched point)

theorem PatchedIsHandled.move (handled : s.PatchedIsHandled) {pc' : ThreadPc Thread}
    (later : pc'.ignoresLater = true → s.StillIgnores t)
    (stays : pc' = .handler .left → s'.barrier.Parked t ∨ s.StillIgnores t)
    (moves : s'.pc = Function.update s.pc t pc')
    (parked : ∀ u, u ≠ t → s.pc u = .handler .left → s.barrier.Parked u → s'.barrier.Parked u)
    (patched : ∀ point, s'.patched point = true → s.patched point = true)
    (handles : s.handlesIll = true → s'.handlesIll = true) : s'.PatchedIsHandled := by
  intro point isPatched
  rcases handled point (patched point isPatched) with ⟨installed, none⟩
  refine ⟨handles installed, fun u ignores => ?_⟩
  unfold StillIgnores at ignores
  rw [moves] at ignores
  by_cases equal : u = t
  · subst u
    simp only [Function.update_self] at ignores
    rcases ignores with ignores | ⟨left, free⟩
    · exact none t (later ignores)
    · rcases stays left with parked | ignores
      · exact free parked
      · exact none t ignores
  · simp only [Function.update_of_ne equal] at ignores
    rcases ignores with ignores | ⟨left, free⟩
    · exact none u (.inl ignores)
    · exact none u (.inr ⟨left, fun isParked => free (parked u equal left isParked)⟩)

omit [DecidableEq Thread] in
/-- When the last thread leaves, the leader has un-patched. -/
theorem unpatched_of_all_leave (patches : LeaderPatches c s)
    (leave : ∀ u, (s.pc u).phase = .parting ∨ ∃ leads, s.pc u = .leaving leads) (point : Nat) :
    s.patched point ≠ true := by
  intro isPatched
  rcases patches point isPatched with ⟨_, l, covers⟩
  have leaves := leave l
  cases pc : s.pc l with
  | running => simp [pc, ThreadPc.patches] at covers
  | handler pc' => simp [pc, ThreadPc.patches] at covers
  | leader pc' =>
      rw [pc] at covers leaves
      cases pc' with
      | leaving => cases covers
      | left => cases covers
      | _ =>
          rcases leaves with phase | ⟨leads, equal⟩
          · cases phase
          · cases leads <;> cases equal

/-- The thread in question is not at the second wait, and is not to be. -/
theorem PatchedIsHandled.elsewhere (handled : s.PatchedIsHandled) {pc' : ThreadPc Thread}
    (moves : s'.pc = Function.update s.pc t pc') (later : pc'.ignoresLater = false)
    (ne : pc' ≠ .handler .left)
    (parked : ∀ u, u ≠ t → s.pc u = .handler .left → s.barrier.Parked u → s'.barrier.Parked u)
    (patched : ∀ point, s'.patched point = true → s.patched point = true)
    (handles : s.handlesIll = true → s'.handlesIll = true) : s'.PatchedIsHandled := by
  refine handled.move (fun ignores => ?_) (fun left => absurd left ne) moves parked patched handles
  rw [later] at ignores
  cases ignores

theorem PatchedIsHandled.turn (handled : s.PatchedIsHandled)
    (invariant : Rendezvous.Invariant c.threads s.view) (patches : LeaderPatches c s)
    (alone : PatchesAlone c s label) (several : 2 < c.threads.length)
    (turn : Turn c s label s') : s'.PatchedIsHandled := by
  cases turn with
  | idle same stays =>
      unfold PatchedIsHandled StillIgnores
      rw [stays, same.patched, same.handlesIll, same.barrier]
      exact handled
  | quiet t pc' same goes moves =>
      refine handled.move (fun later => .inl (goes.ignoresLater later))
        (fun left => absurd left goes.ne_left) moves (fun _ _ _ parked => ?_) (fun _ => ?_) ?_
      · rw [same.barrier]
        exact parked
      · rw [same.patched]
        exact id
      · rw [same.handlesIll]
        exact id
  | lead t runs free =>
      exact handled.elsewhere rfl rfl (by simp) (fun _ _ _ parked => parked) (fun _ => id) id
  | unlock t pc =>
      exact handled.elsewhere rfl rfl (by simp) (fun _ _ _ parked => parked) (fun _ => id) id
  | collect t leads pinSet pc distinct =>
      refine handled.elsewhere rfl ?_ ?_ (fun _ _ _ parked => parked) (fun _ => id) id
      · cases leads <;> rfl
      · cases leads <;> simp [ThreadPc.pinning]
  | pin t leads p rest pc =>
      refine handled.elsewhere rfl ?_ ?_ (fun _ _ _ parked => parked) (fun _ => id) id
      · cases leads <;> rfl
      · cases leads <;> simp [ThreadPc.pinning]
  | unpin t leads p rest pc =>
      refine handled.move (fun later => .inl ?_) (fun left => ?_) rfl
        (fun _ _ _ parked => parked) (fun _ => id) id
      · rw [pc]
        cases leads with
        | true => cases later
        | false => rfl
      · cases leads <;> cases left
  | patch t next pc lt =>
      -- the only step that patches, which the condition is about
      rcases alone next pc lt with few | ⟨installed, none⟩
      · omega
      · intro point _
        refine ⟨installed, fun u ignores => none u ?_⟩
        by_cases equal : u = t
        · subst u
          simp [StillIgnores, setPc, ThreadPc.ignoresLater] at ignores
        · simpa [StillIgnores, setPc, equal] using ignores
  | unpatch t next pc lt =>
      refine handled.elsewhere rfl rfl (by simp) (fun _ _ _ parked => parked) (fun point => ?_) id
      by_cases same : point = next
      · simp [setPc, same]
      · simp [setPc, same]
  | meet t leads pc =>
      refine handled.elsewhere rfl ?_ ?_ (fun u other left parked => ?_) (fun _ => id) id
      · cases leads <;> rfl
      · cases leads <;> simp [ThreadPc.joined]
      · -- nobody is parked in the second wait while a thread is outside
        have isOutside : s.view.phase t = .outside := (phase_view pc).trans ThreadPc.phase_joining
        have meets := invariant.all_meeting isOutside parked
        rw [phase_view left] at meets
        cases meets
  | enter t leads pc' pc released goes =>
      refine handled.elsewhere rfl goes.ignoresLater_eq goes.ne_left
        (fun u other _ parked => ?_) (fun _ => id) id
      exact (CyclicBarrier.parked_pass_of_ne other).mpr parked
  | part t leads pc =>
      have isInside : s.view.phase t = .inside := (phase_view pc).trans ThreadPc.phase_leaving
      have free := (invariant.waits t).mpr (.inr isInside)
      rcases (invariant.counts.arrive c.nodup (c.complete t) free).2 with
        ⟨others, _⟩ | ⟨parked, same⟩
      · -- the last thread lets all go, the leader among them
        refine .of_unpatched (unpatched_of_all_leave (s := s) patches fun u => ?_)
        by_cases equal : u = t
        · subst u
          exact .inr ⟨leads, pc⟩
        · exact .inl (invariant.all_parting isInside (others u (c.complete u) equal))
      · refine handled.move (fun later => ?_) (fun _ => .inl parked) rfl
          (fun u other _ => (same u other).mpr) (fun _ => id) id
        cases leads <;> cases later
  | exit t leads pc released =>
      refine handled.move (fun later => .inr ⟨?_, released⟩) (fun left => ?_) rfl
        (fun u other _ parked => (CyclicBarrier.parked_pass_of_ne other).mpr parked)
        (fun _ => id) id
      · cases leads with
        | true => cases later
        | false => exact pc
      · cases leads <;> cases left
  | enterAlone t leads pc' pc alone goes =>
      exact handled.elsewhere rfl goes.ignoresLater_eq goes.ne_left
        (fun _ _ _ parked => parked) (fun _ => id) id
  | exitAlone t leads pc alone =>
      refine .of_unpatched (unpatched_of_all_leave (s := s) patches fun u => .inr ⟨leads, ?_⟩)
      rw [alone u]
      exact pc
  | ignore t pc =>
      -- the thread still ignored, so nothing is patched
      apply PatchedIsHandled.of_unpatched
      intro point isPatched
      exact (handled point isPatched).2 t (.inl (by rw [pc]; rfl))
  | handle t pc =>
      exact handled.elsewhere rfl rfl (by simp) (fun _ _ _ parked => parked) (fun _ => id)
        (fun _ => rfl)
  | move t m pointer pc live movable small => exact handled

/-! ## Runs -/

/-- What every run of the barrier keeps, and what the condition adds. -/
structure SignalInvariant (c : BarrierConfig Thread) (s : BarrierState Thread) : Prop where
  view : Rendezvous.Invariant c.threads s.view
  patches : LeaderPatches c s
  someone : s.SomeoneIgnores
  handled : 2 < c.threads.length → s.PatchedIsHandled

omit [DecidableEq Thread] in
theorem signalInvariant_start (nonempty : c.threads ≠ []) (mappings : Mappings) :
    SignalInvariant c (start mappings) where
  view := Rendezvous.invariant_start nonempty
  patches := nofun
  someone := nofun
  handled := fun _ => nofun

theorem SignalInvariant.step (invariant : SignalInvariant c s) (taken : s.step c label = some s')
    (alone : PatchesAlone c s label) : SignalInvariant c s' :=
  have turn := step_turn taken
  { view := turn.invariant invariant.view
    patches := invariant.patches.turn turn
    someone := invariant.someone.turn turn
    handled := fun several =>
      (invariant.handled several).turn invariant.view invariant.patches alone several turn }

omit [DecidableEq Thread] in
/-- Three threads in different positions are three threads. -/
theorem three_of_pc {t₁ t₂ t₃ : Thread} (ne₁ : t₁ ≠ t₂) (ne₂ : t₁ ≠ t₃) (ne₃ : t₂ ≠ t₃) :
    2 < c.threads.length := by
  have nodup : [t₁, t₂, t₃].Nodup := by simp [ne₁, ne₂, ne₃]
  have subset : [t₁, t₂, t₃] ⊆ c.threads := fun u _ => c.complete u
  exact (List.subperm_of_subset nodup subset).length_le

omit [DecidableEq Thread] in
theorem SignalInvariant.trapsAreHandled (invariant : SignalInvariant c s) : s.TrapsAreHandled := by
  intro t point runs isPatched
  by_contra unhandled
  simp only [Bool.not_eq_true] at unhandled
  rcases invariant.someone unhandled with ⟨u, ignores⟩
  rcases invariant.patches point isPatched with ⟨_, l, covers⟩
  -- a running thread, one that ignores and the leader
  have ne₁ : t ≠ u := by
    rintro rfl
    rw [runs] at ignores
    cases ignores
  have ne₂ : t ≠ l := by
    rintro rfl
    rw [runs] at covers
    cases covers
  have ne₃ : u ≠ l := by
    rintro rfl
    cases pc : s.pc u with
    | leader pc' =>
        rw [pc] at ignores
        cases ignores
    | _ =>
        rw [pc] at covers
        cases covers
  have several : 2 < c.threads.length := three_of_pc ne₁ ne₂ ne₃
  rw [(invariant.handled several point isPatched).1] at unhandled
  cases unhandled

/-- In a run whose leaders patch alone, a thread that may trap finds the handler installed. -/
theorem trapsAreHandled_of_patchesAlone {mappings : Mappings}
    {labels : List (BarrierLabel Thread)}
    (run : Run (Restrict (ofFunction (step c)) (PatchesAlone c)) (start mappings) labels s) :
    s.TrapsAreHandled := by
  intro t
  have nonempty : c.threads ≠ [] := List.ne_nil_of_mem (c.complete t)
  have invariant : SignalInvariant c s :=
    run.invariant (SignalInvariant c) (fun _ _ _ invariant taken => invariant.step taken.1 taken.2)
      (signalInvariant_start nonempty mappings)
  exact invariant.trapsAreHandled t

/-- Three threads and one safepoint. -/
def threeThreads : BarrierConfig (Fin 3) := { oneMapping with validHandle := fun _ => false }

/-- The leader patches the safepoint, which the other threads may reach. -/
theorem firstPatch_run :
    ∃ s, Run (Restrict (ofFunction (step threeThreads)) (PatchesAlone threeThreads))
        (start fun _ => .ofPtr 0) [.lead leader, .advance leader, .advance leader] s ∧
      s.patched 0 = true ∧ s.pc fast = .running := by
  refine ⟨_, .cons ⟨rfl, trivial⟩ (.cons ⟨rfl, ?_⟩ (.cons ⟨rfl, ?_⟩ (.nil _))), rfl, rfl⟩
  · intro point pc _
    cases pc
  · intro point _ _
    refine .inr ⟨rfl, fun u => ?_⟩
    revert u
    unfold StillIgnores
    decide

theorem trapsAreHandled_firstPatch :
    ∃ s, Run (Restrict (ofFunction (step threeThreads)) (PatchesAlone threeThreads))
        (start fun _ => .ofPtr 0) [.lead leader, .advance leader, .advance leader] s ∧
      s.patched 0 = true ∧ s.pc fast = .running ∧ s.TrapsAreHandled := by
  rcases firstPatch_run with ⟨s, run, isPatched, runs⟩
  exact ⟨s, run, isPatched, runs, trapsAreHandled_of_patchesAlone run⟩

/-- The labels of a thread from the trap to its first wait. -/
def traps (t : Fin 3) : List (BarrierLabel (Fin 3)) :=
  [.trap t 0 .managedTracked, .advance t, .collect t [], .advance t, .advance t]

/--
A barrier after which one thread goes on and the other does not. Then the leader patches the
safepoint for the next barrier, and the other thread ignores `SIGILL`.
-/
def lateIgnore : List (BarrierLabel (Fin 3)) :=
  .lead leader :: List.replicate 3 (.advance leader) ++ traps fast ++ traps slow ++
    List.replicate 5 (.advance leader) ++ .collect leader [] ::
    List.replicate 6 (.advance leader) ++
    [.advance fast, .advance fast, .advance slow, .advance slow] ++
    List.replicate 4 (.advance leader) ++ List.replicate 6 (.advance slow) ++ .lead leader :: List.replicate 2 (.advance leader) ++
    List.replicate 3 (.advance fast)

theorem lateIgnore_allowed :
    (replay (step threeThreads) (start fun _ => .ofPtr 0) lateIgnore).isSome = true := by
  decide +kernel

/-- A thread runs towards a patched safepoint while `SIGILL` is ignored. -/
theorem not_trapsAreHandled_lateIgnore :
    ¬ ∀ labels s, Run (ofFunction (step threeThreads)) (start fun _ => .ofPtr 0) labels s →
      s.TrapsAreHandled := by
  intro claim
  have handled := claim lateIgnore _
    (run_of_replay (Option.some_get lateIgnore_allowed).symm) slow 0 (by decide +kernel)
    (by decide +kernel)
  exact absurd handled (by decide +kernel)

end BarrierState

end Alaska
