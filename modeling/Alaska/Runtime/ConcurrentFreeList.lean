import Alaska.Lib.Run
import Alaska.Lib.Chain
import Alaska.Lib.Ownership
import Mathlib.Data.Finset.Card

/-!
# The free list under concurrency

`ShardedFreeList.hpp` as a transition system over the single steps of its operations: one
owner runs `pop`, `free_local` and `swap`, and any number of threads run `free_remote`.
Every load, store and compare-and-swap of a shared variable is a step of its own. A weak
compare-and-swap may fail although the values agree, which the label of its step says.
-/

namespace Alaska

open Lts

/-- Where the owner is; a constructor names the step that comes next. -/
inductive OwnerPc where
  | idle
  | popCount (block : Nat)
  | popLoad (block : Nat)
  | popStore (block link : Nat)
  | freeLink (block : Nat)
  | freeHead (block : Nat)
  | freeCount
  | swapLoad
  | swapStore (head : Nat)
  | swapCas
  | swapRead
  | swapAdd (count : Int)
  | swapReset (count : Int)
  deriving DecidableEq

/-- Where a caller of `free_remote` is. -/
inductive PusherPc where
  | idle
  | load (block : Nat)
  | link (block head : Nat)
  | cas (block : Nat)
  | relink (block head : Nat)
  | count
  deriving DecidableEq

/-- The block that `free_local` has not yet put on the list. -/
def OwnerPc.block : OwnerPc → Option Nat
  | .freeLink block | .freeHead block => some block
  | _ => none

/-- While `swap` runs its compare-and-swap, `local_free` is only the expected value of it. -/
def OwnerPc.inSwap : OwnerPc → Bool
  | .swapLoad | .swapStore _ | .swapCas => true
  | _ => false

/-- The block that `free_remote` has not yet put on the list. -/
def PusherPc.block : PusherPc → Option Nat
  | .load block | .link block _ | .cas block | .relink block _ => some block
  | _ => none

/--
The fields of the list, the `next` links of the blocks, and where the threads are. The
client holds the blocks that it allocated and has not released.
-/
structure FreeListState where
  next : Nat → Nat
  localFree : Nat
  remoteFree : Nat
  numLocalFree : Int
  numRemoteFree : Int
  owner : OwnerPc
  pushers : Nat → PusherPc
  client : Nat → Bool

/-- The start of an operation, the next step of a thread, or a write of the client. -/
inductive FreeListLabel where
  | pop
  | freeLocal (block : Nat)
  | swap
  | owner (fails : Bool)
  | freeRemote (thread block : Nat)
  | write (block link : Nat)
  | pusher (thread : Nat) (fails : Bool)

namespace FreeListState

/-- A list after `reset`, when the client holds the blocks in `client`. -/
def start (next : Nat → Nat) (client : Nat → Bool) : FreeListState where
  next := next
  localFree := 0
  remoteFree := 0
  numLocalFree := 0
  numRemoteFree := 0
  owner := .idle
  pushers := fun _ => .idle
  client := client

def numFree (s : FreeListState) : Int := s.numLocalFree + s.numRemoteFree

def setNext (s : FreeListState) (block link : Nat) : FreeListState :=
  { s with next := Function.update s.next block link }

def setPusher (s : FreeListState) (thread : Nat) (pc : PusherPc) : FreeListState :=
  { s with pushers := Function.update s.pushers thread pc }

/-- The next step of the owner's operation. -/
def ownerStep (s : FreeListState) (fails : Bool) : Option FreeListState :=
  match s.owner with
  | .idle => none
  | .popCount block =>
      some { s with numLocalFree := s.numLocalFree - 1, owner := .popLoad block }
  | .popLoad block => some { s with owner := .popStore block (s.next s.localFree) }
  | .popStore block link =>
      some { s with
        localFree := link
        client := Function.update s.client block true
        owner := .idle }
  | .freeLink block => some { s.setNext block s.localFree with owner := .freeHead block }
  | .freeHead block => some { s with localFree := block, owner := .freeCount }
  | .freeCount => some { s with numLocalFree := s.numLocalFree + 1, owner := .idle }
  | .swapLoad => some { s with owner := .swapStore s.remoteFree }
  | .swapStore head => some { s with localFree := head, owner := .swapCas }
  | .swapCas =>
      if s.remoteFree = s.localFree ∧ fails = false then
        some { s with remoteFree := 0, owner := .swapRead }
      else
        some { s with localFree := s.remoteFree, owner := .swapLoad }
  | .swapRead => some { s with owner := .swapAdd s.numRemoteFree }
  | .swapAdd count =>
      some { s with numLocalFree := s.numLocalFree + count, owner := .swapReset count }
  | .swapReset _ => some { s with numRemoteFree := 0, owner := .idle }

/-- The next step of a `free_remote`. -/
def pusherStep (s : FreeListState) (thread : Nat) (fails : Bool) : Option FreeListState :=
  match s.pushers thread with
  | .idle => none
  | .load block => some (s.setPusher thread (.link block s.remoteFree))
  | .link block head => some ((s.setNext block head).setPusher thread (.cas block))
  | .cas block =>
      if s.remoteFree = s.next block ∧ fails = false then
        some ({ s with remoteFree := block }.setPusher thread .count)
      else
        some (s.setPusher thread (.relink block s.remoteFree))
  | .relink block head => some ((s.setNext block head).setPusher thread (.load block))
  | .count => some ({ s with numRemoteFree := s.numRemoteFree + 1 }.setPusher thread .idle)

/-- The step system; a block is only released or written by the client that holds it. -/
def step (s : FreeListState) : FreeListLabel → Option FreeListState
  | .pop =>
      if s.owner = .idle then
        some (if s.localFree = 0 then s else { s with owner := .popCount s.localFree })
      else
        none
  | .freeLocal block =>
      if s.owner = .idle ∧ s.client block = true then
        some { s with client := Function.update s.client block false, owner := .freeLink block }
      else
        none
  | .swap =>
      if s.owner = .idle then
        some (if s.localFree ≠ 0 then s else { s with owner := .swapLoad })
      else
        none
  | .owner fails => s.ownerStep fails
  | .freeRemote thread block =>
      if s.pushers thread = .idle ∧ s.client block = true then
        some ({ s with client := Function.update s.client block false }.setPusher thread
          (.load block))
      else
        none
  | .write block link => if s.client block = true then some (s.setNext block link) else none
  | .pusher thread fails => s.pusherStep thread fails

/-- The block that an agent, the owner (`none`) or a pusher, is putting on a list. -/
def holds (s : FreeListState) : Option Nat → Option Nat
  | none => s.owner.block
  | some thread => (s.pushers thread).block

/-- No operation is in progress. -/
def Quiescent (s : FreeListState) : Prop := s.owner = .idle ∧ ∀ thread, s.pushers thread = .idle

/-- The owner's and the remote list. -/
structure Lists (s : FreeListState) (locals remotes : List Nat) : Prop where
  remote : Chain s.next 0 s.remoteFree remotes
  own : s.owner.inSwap = false → Chain s.next 0 s.localFree locals
  swapping : s.owner.inSwap = true → locals = []

/--
The blocks `known` are each with the client, on exactly one of the lists, or held by exactly
one push in flight.
-/
structure Conserves (known : Nat → Bool) (s : FreeListState) (locals remotes : List Nat) :
    Prop extends Lists s locals remotes where
  once : OwnedOnce known s.client s.holds (locals ++ remotes)

/-- The block that `pop` returns in a step. -/
def returned (s : FreeListState) : FreeListLabel → Option Nat
  | .owner _ =>
      match s.owner with
      | .popStore block _ => some block
      | _ => none
  | _ => none

end FreeListState

/-- A step that starts a release of the block. -/
def FreeListLabel.Releases (label : FreeListLabel) (block : Nat) : Prop :=
  label = .freeLocal block ∨ ∃ thread, label = .freeRemote thread block

namespace FreeListState

variable {known : Nat → Bool} {s s' : FreeListState} {locals remotes : List Nat}
  {block thread : Nat}

/-! ## What each step does to the lists -/

/-- The lists after a step. -/
def moved (s : FreeListState) (label : FreeListLabel) (locals remotes : List Nat) :
    List Nat × List Nat :=
  match label with
  | .owner fails =>
      match s.owner with
      | .popStore _ _ => (locals.tail, remotes)
      | .freeHead block => (block :: locals, remotes)
      | .swapCas =>
          if s.remoteFree = s.localFree ∧ fails = false then (remotes, []) else (locals, remotes)
      | _ => (locals, remotes)
  | .pusher thread fails =>
      match s.pushers thread with
      | .cas block =>
          if s.remoteFree = s.next block ∧ fails = false then (locals, block :: remotes)
          else (locals, remotes)
      | _ => (locals, remotes)
  | _ => (locals, remotes)

/-- What the owner's operation relies on between its steps. -/
def Ready (s : FreeListState) : Prop :=
  match s.owner with
  | .popCount block | .popLoad block => s.localFree = block ∧ block ≠ 0
  | .popStore block link => s.localFree = block ∧ block ≠ 0 ∧ s.next block = link
  | .freeHead block => s.next block = s.localFree
  | _ => True

structure Invariant (known : Nat → Bool) (s : FreeListState) (locals remotes : List Nat) :
    Prop extends Conserves known s locals remotes where
  ready : s.Ready

theorem holds_of_owner (same : s'.pushers = s.pushers) :
    s'.holds = Function.update s.holds none s'.owner.block := by
  funext who
  cases who with
  | none => simp [holds]
  | some thread => simp [holds, same]

theorem holds_congr (same : s'.pushers = s.pushers) (block : s'.owner.block = s.owner.block) :
    s'.holds = s.holds := by
  funext who
  cases who with
  | none => exact block
  | some thread => simp only [holds, same]

theorem holds_setPusher (s : FreeListState) (thread : Nat) (pc : PusherPc) :
    (s.setPusher thread pc).holds = Function.update s.holds (some thread) pc.block := by
  funext who
  cases who with
  | none => rfl
  | some other =>
      by_cases same : other = thread
      · subst other
        simp [holds, setPusher]
      · simp [holds, setPusher, same]

theorem start_invariant (next : Nat → Nat) (client : Nat → Bool) :
    Invariant client (start next client) [] [] where
  remote := Chain.nil_iff.mpr rfl
  own _ := Chain.nil_iff.mpr rfl
  swapping _ := rfl
  once := by
    have none_held : (start next client).holds = fun _ => none := by
      funext who
      cases who <;> rfl
    rw [none_held]
    exact OwnedOnce.all_client
  ready := trivial

namespace Invariant

/-- A block that somebody holds or the client has is on no list. -/
theorem outside_of_holds (invariant : Invariant known s locals remotes) {who : Option Nat}
    (isHeld : s.holds who = some block) : block ∉ locals ++ remotes :=
  fun member => (invariant.once.onList block member).2.2 who isHeld

theorem outside_of_client (invariant : Invariant known s locals remotes)
    (owned : s.client block = true) : block ∉ locals ++ remotes := fun member => by
  simp [(invariant.once.onList block member).2.1] at owned

/-- The block that `free_local` puts on the list is not the null block. -/
theorem ne_zero_of_holds (invariant : Invariant known s locals remotes)
    (nonnull : known 0 = false) {who : Option Nat} (isHeld : s.holds who = some block) :
    block ≠ 0 := by
  rintro rfl
  simp [(invariant.once.held who 0 isHeld).1] at nonnull

/-- The link of a block outside of the lists may change. -/
theorem setNext (invariant : Invariant known s locals remotes)
    (outside : block ∉ locals ++ remotes) (notOwner : s.holds none ≠ some block) (link : Nat) :
    Invariant known (s.setNext block link) locals remotes := by
  rw [List.mem_append, not_or] at outside
  refine ⟨⟨⟨invariant.remote.update outside.2 link, fun idle => ?_, invariant.swapping⟩,
    invariant.once⟩, ?_⟩
  · exact (invariant.own idle).update outside.1 link
  · have ready := invariant.ready
    unfold Ready at ready ⊢
    simp only [FreeListState.setNext]
    cases pc : s.owner with
    | popStore popped rest =>
        simp only [pc] at ready ⊢
        have idle : s.owner.inSwap = false := by rw [pc]; rfl
        have nonnull : s.localFree ≠ 0 := ready.1 ▸ ready.2.1
        rcases (invariant.own idle).eq_cons nonnull with ⟨tail, equal, _⟩
        have different : popped ≠ block := by
          rintro rfl
          apply outside.1
          rw [equal, ← ready.1]
          exact List.mem_cons_self
        rw [Function.update_of_ne different]
        exact ready
    | freeHead freed =>
        simp only [pc] at ready ⊢
        have different : freed ≠ block := by
          rintro rfl
          exact notOwner (by simp [holds, pc, OwnerPc.block])
        rw [Function.update_of_ne different]
        exact ready
    | popCount _ | popLoad _ => simpa only [pc] using ready
    | _ => trivial

/-- A pusher moves on and still holds its block. -/
theorem setPusher (invariant : Invariant known s locals remotes) {pc : PusherPc}
    (same : pc.block = (s.pushers thread).block) :
    Invariant known (s.setPusher thread pc) locals remotes := by
  refine ⟨⟨⟨invariant.remote, invariant.own, invariant.swapping⟩, ?_⟩, invariant.ready⟩
  rw [holds_setPusher, same, show (s.pushers thread).block = s.holds (some thread) from rfl,
    Function.update_eq_self]
  exact invariant.once

theorem pusherStep (invariant : Invariant known s locals remotes) (nonnull : known 0 = false)
    {fails : Bool} (step : s.pusherStep thread fails = some s') :
    Invariant known s' (s.moved (.pusher thread fails) locals remotes).1
      (s.moved (.pusher thread fails) locals remotes).2 := by
  have alone : ∀ block, s.holds (some thread) = some block → s.holds none ≠ some block := by
    intro block isHeld ownerHeld
    exact nomatch (invariant.once.held _ _ isHeld).2.2 none ownerHeld
  unfold FreeListState.pusherStep at step
  unfold moved
  cases pc : s.pushers thread with
  | idle => simp [pc] at step
  | load block =>
      simp only [pc, Option.some.injEq] at step ⊢
      subst s'
      exact invariant.setPusher (by rw [pc]; rfl)
  | link block head =>
      have isHeld : s.holds (some thread) = some block := by simp [holds, pc, PusherPc.block]
      simp only [pc, Option.some.injEq] at step ⊢
      subst s'
      refine (invariant.setNext (invariant.outside_of_holds isHeld) (alone _ isHeld)
        head).setPusher ?_
      simp [FreeListState.setNext, pc, PusherPc.block]
  | relink block head =>
      have isHeld : s.holds (some thread) = some block := by simp [holds, pc, PusherPc.block]
      simp only [pc, Option.some.injEq] at step ⊢
      subst s'
      refine (invariant.setNext (invariant.outside_of_holds isHeld) (alone _ isHeld)
        head).setPusher ?_
      simp [FreeListState.setNext, pc, PusherPc.block]
  | cas block =>
      have isHeld : s.holds (some thread) = some block := by simp [holds, pc, PusherPc.block]
      simp only [pc] at step ⊢
      split at step
      · next exchanged =>
          obtain rfl := Option.some.inj step
          rw [if_pos exchanged]
          refine ⟨⟨⟨⟨rfl, invariant.ne_zero_of_holds nonnull isHeld, ?_⟩, invariant.own,
            invariant.swapping⟩, ?_⟩, invariant.ready⟩
          · change Chain s.next 0 (s.next block) remotes
            rw [← exchanged.1]
            exact invariant.remote
          · rw [holds_setPusher]
            exact invariant.once.put isHeld List.perm_middle
      · next failed =>
          obtain rfl := Option.some.inj step
          rw [if_neg failed]
          exact invariant.setPusher (by rw [pc]; rfl)
  | count =>
      simp only [pc, Option.some.injEq] at step ⊢
      subst s'
      refine Invariant.setPusher (s := { s with numRemoteFree := s.numRemoteFree + 1 })
        ⟨⟨⟨invariant.remote, invariant.own, invariant.swapping⟩, invariant.once⟩,
          invariant.ready⟩ ?_
      simp [pc, PusherPc.block]

/-- The owner takes a block or puts one down. -/
theorem of_owner_update {locals' remotes' : List Nat} (pushers : s'.pushers = s.pushers)
    (lists : Lists s' locals' remotes')
    (once : OwnedOnce known s'.client (Function.update s.holds none s'.owner.block)
      (locals' ++ remotes'))
    (ready : s'.Ready) : Invariant known s' locals' remotes' := by
  refine ⟨⟨lists, ?_⟩, ready⟩
  rw [holds_of_owner pushers]
  exact once

/-- The owner moves on and holds what it held. -/
theorem of_owner {locals' remotes' : List Nat} (invariant : Invariant known s locals remotes)
    (pushers : s'.pushers = s.pushers) (block : s'.owner.block = s.owner.block)
    (lists : Lists s' locals' remotes')
    (once : OwnedOnce known s.client s.holds (locals ++ remotes) →
      OwnedOnce known s'.client s.holds (locals' ++ remotes'))
    (ready : s'.Ready) : Invariant known s' locals' remotes' := by
  refine ⟨⟨lists, ?_⟩, ready⟩
  rw [holds_congr pushers block]
  exact once invariant.once

theorem ownerStep (invariant : Invariant known s locals remotes) (nonnull : known 0 = false)
    {fails : Bool} (step : s.ownerStep fails = some s') :
    Invariant known s' (s.moved (.owner fails) locals remotes).1
      (s.moved (.owner fails) locals remotes).2 := by
  have ready := invariant.ready
  have own := invariant.own
  have swapping := invariant.swapping
  unfold FreeListState.ownerStep at step
  unfold Ready at ready
  unfold moved
  cases pc : s.owner with
  | idle => simp [pc] at step
  | popCount block =>
      simp only [pc, Option.some.injEq] at step ready own ⊢
      subst s'
      exact invariant.of_owner rfl (by rw [pc]; rfl) ⟨invariant.remote, own, nofun⟩ id ready
  | popLoad block =>
      simp only [pc, Option.some.injEq] at step ready own ⊢
      subst s'
      exact invariant.of_owner rfl (by rw [pc]; rfl) ⟨invariant.remote, own, nofun⟩ id
        ⟨ready.1, ready.2, by rw [ready.1]⟩
  | popStore block link =>
      simp only [pc, Option.some.injEq] at step ready own ⊢
      subst s'
      rcases ready with ⟨rfl, head_ne, rfl⟩
      rcases (own rfl).eq_cons head_ne with ⟨rest, rfl, tail⟩
      exact invariant.of_owner rfl (by rw [pc]; rfl) ⟨invariant.remote, fun _ => tail, nofun⟩
        OwnedOnce.give trivial
  | freeLink block =>
      have isHeld : s.holds none = some block := by simp [holds, pc, OwnerPc.block]
      have outside := not_or.mp (List.mem_append.not.mp (invariant.outside_of_holds isHeld))
      simp only [pc, Option.some.injEq] at step own ⊢
      subst s'
      refine invariant.of_owner rfl (by rw [pc]; rfl)
        ⟨invariant.remote.update outside.2 _, fun _ => (own rfl).update outside.1 _, nofun⟩ id ?_
      simp [Ready, FreeListState.setNext]
  | freeHead block =>
      have isHeld : s.holds none = some block := by simp [holds, pc, OwnerPc.block]
      simp only [pc, Option.some.injEq] at step ready own ⊢
      subst s'
      refine of_owner_update (s := s) rfl ⟨invariant.remote,
        fun _ => ⟨rfl, invariant.ne_zero_of_holds nonnull isHeld, ?_⟩, nofun⟩
        (invariant.once.put isHeld (List.Perm.refl _)) trivial
      rw [ready]
      exact own rfl
  | freeCount =>
      simp only [pc, Option.some.injEq] at step own ⊢
      subst s'
      exact invariant.of_owner rfl (by rw [pc]; rfl) ⟨invariant.remote, own, nofun⟩ id trivial
  | swapLoad =>
      simp only [pc, Option.some.injEq] at step swapping ⊢
      subst s'
      exact invariant.of_owner rfl (by rw [pc]; rfl) ⟨invariant.remote, nofun, swapping⟩ id trivial
  | swapStore head =>
      simp only [pc, Option.some.injEq] at step swapping ⊢
      subst s'
      exact invariant.of_owner rfl (by rw [pc]; rfl) ⟨invariant.remote, nofun, swapping⟩ id trivial
  | swapCas =>
      simp only [pc] at step swapping ⊢
      split at step
      · next exchanged =>
          obtain rfl := Option.some.inj step
          obtain rfl := swapping rfl
          rw [if_pos exchanged]
          refine invariant.of_owner rfl (by rw [pc]; rfl)
            ⟨Chain.nil_iff.mpr rfl, fun _ => ?_, nofun⟩ ?_ trivial
          · change Chain s.next 0 s.localFree remotes
            rw [← exchanged.1]
            exact invariant.remote
          · rw [List.append_nil]
            exact id
      · next failed =>
          obtain rfl := Option.some.inj step
          rw [if_neg failed]
          exact invariant.of_owner rfl (by rw [pc]; rfl) ⟨invariant.remote, nofun, swapping⟩ id trivial
  | swapRead =>
      simp only [pc, Option.some.injEq] at step own ⊢
      subst s'
      exact invariant.of_owner rfl (by rw [pc]; rfl) ⟨invariant.remote, own, nofun⟩ id trivial
  | swapAdd count =>
      simp only [pc, Option.some.injEq] at step own ⊢
      subst s'
      exact invariant.of_owner rfl (by rw [pc]; rfl) ⟨invariant.remote, own, nofun⟩ id trivial
  | swapReset count =>
      simp only [pc, Option.some.injEq] at step own ⊢
      subst s'
      exact invariant.of_owner rfl (by rw [pc]; rfl) ⟨invariant.remote, own, nofun⟩ id trivial

/-- Every step keeps the invariant and moves the lists as `moved` says. -/
theorem step (invariant : Invariant known s locals remotes) (nonnull : known 0 = false)
    {label : FreeListLabel} (step : s.step label = some s') :
    Invariant known s' (s.moved label locals remotes).1 (s.moved label locals remotes).2 := by
  have own := invariant.own
  cases label with
  | pop =>
      simp only [FreeListState.step, Option.ite_none_right_eq_some, Option.some.injEq] at step
      rcases step with ⟨idle, rfl⟩
      split
      · exact invariant
      · next nonempty =>
          rw [idle] at own
          exact invariant.of_owner rfl (by rw [idle]; rfl) ⟨invariant.remote, own, nofun⟩ id
            ⟨rfl, nonempty⟩
  | swap =>
      simp only [FreeListState.step, Option.ite_none_right_eq_some, Option.some.injEq] at step
      rcases step with ⟨idle, rfl⟩
      split
      · exact invariant
      · next empty =>
          rw [idle, not_not.mp empty] at own
          exact invariant.of_owner rfl (by rw [idle]; rfl)
            ⟨invariant.remote, nofun, fun _ => (own rfl).eq_nil⟩ id trivial
  | freeLocal block =>
      simp only [FreeListState.step, Option.ite_none_right_eq_some, Option.some.injEq] at step
      rcases step with ⟨⟨idle, owned⟩, rfl⟩
      rw [idle] at own
      refine of_owner_update (s := s) rfl ⟨invariant.remote, own, nofun⟩
        (invariant.once.take owned ?_) trivial
      simp [holds, idle, OwnerPc.block]
  | owner fails => exact invariant.ownerStep nonnull step
  | freeRemote thread block =>
      simp only [FreeListState.step, Option.ite_none_right_eq_some, Option.some.injEq] at step
      rcases step with ⟨⟨idle, owned⟩, rfl⟩
      refine ⟨⟨⟨invariant.remote, own, invariant.swapping⟩, ?_⟩, invariant.ready⟩
      rw [holds_setPusher]
      exact invariant.once.take owned (by simp [holds, idle, PusherPc.block])
  | write block link =>
      simp only [FreeListState.step, Option.ite_none_right_eq_some, Option.some.injEq] at step
      rcases step with ⟨owned, rfl⟩
      refine invariant.setNext (invariant.outside_of_client owned) (fun isHeld => ?_) link
      simp [(invariant.once.held none block isHeld).2.1] at owned
  | pusher thread fails => exact invariant.pusherStep nonnull step

theorem run (invariant : Invariant known s locals remotes) (nonnull : known 0 = false)
    {labels : List FreeListLabel} (run : Run (ofFunction FreeListState.step) s labels s') :
    ∃ locals' remotes', Invariant known s' locals' remotes' :=
  run.invariant (fun s => ∃ locals remotes, Invariant known s locals remotes)
    (fun _ _ _ ⟨_, _, before⟩ taken => ⟨_, _, before.step nonnull taken⟩) ⟨locals, remotes, invariant⟩

/-- A block that `pop` is about to return is not with the client. -/
theorem not_client_of_returned (invariant : Invariant known s locals remotes)
    {label : FreeListLabel} (returns : s.returned label = some block) :
    s.client block = false := by
  have ready := invariant.ready
  have own := invariant.own
  unfold returned at returns
  unfold Ready at ready
  split at returns
  · split at returns
    · next popped rest pc =>
        obtain rfl := Option.some.inj returns
        rw [pc] at own ready
        rcases ready with ⟨rfl, head_ne, _⟩
        rcases (own rfl).eq_cons head_ne with ⟨tail, rfl, _⟩
        exact (invariant.once.onList _ (List.mem_append_left _ List.mem_cons_self)).2.1
    · exact nomatch returns
  · exact nomatch returns

end Invariant

/-! ## When a block leaves the client -/

/-- The client has the block that `pop` returned. -/
theorem client_of_returned {label : FreeListLabel} (returns : s.returned label = some block)
    (step : s.step label = some s') : s'.client block = true := by
  unfold returned at returns
  split at returns
  · split at returns
    · next popped rest pc =>
        obtain rfl := Option.some.inj returns
        simp only [FreeListState.step, FreeListState.ownerStep, pc, Option.some.injEq] at step
        subst s'
        exact Function.update_self ..
    · exact nomatch returns
  · exact nomatch returns

/-- The owner moves no pusher, and takes nothing from the client after `free_local` began. -/
theorem ownerStep_frame (block : Nat) {fails : Bool} (step : s.ownerStep fails = some s') :
    s'.pushers = s.pushers ∧ (s.client block = true → s'.client block = true) := by
  unfold ownerStep at step
  cases pc : s.owner with
  | idle => simp [pc] at step
  | popStore popped link =>
      simp only [pc, Option.some.injEq] at step
      subst s'
      refine ⟨rfl, fun owned => ?_⟩
      by_cases same : block = popped <;> simp [same, owned]
  | swapCas =>
      simp only [pc] at step
      split at step <;> (obtain rfl := Option.some.inj step; exact ⟨rfl, id⟩)
  | _ =>
      simp only [pc, Option.some.injEq] at step
      subst s'
      exact ⟨rfl, id⟩

theorem pusherStep_client {fails : Bool} (step : s.pusherStep thread fails = some s') :
    s'.client = s.client := by
  unfold pusherStep at step
  cases pc : s.pushers thread with
  | idle => simp [pc] at step
  | cas pushed =>
      simp only [pc] at step
      split at step <;> (obtain rfl := Option.some.inj step; rfl)
  | _ =>
      simp only [pc, Option.some.injEq] at step
      subst s'
      rfl

/-- Only a release takes a block from the client. -/
theorem client_of_not_releases {label : FreeListLabel} (owned : s.client block = true)
    (step : s.step label = some s') (keeps : ¬ label.Releases block) :
    s'.client block = true := by
  cases label with
  | pop | swap =>
      simp only [FreeListState.step, Option.ite_none_right_eq_some, Option.some.injEq] at step
      rcases step with ⟨_, rfl⟩
      split <;> exact owned
  | write written link =>
      simp only [FreeListState.step, Option.ite_none_right_eq_some, Option.some.injEq] at step
      rcases step with ⟨_, rfl⟩
      exact owned
  | freeLocal freed | freeRemote thread freed =>
      simp only [FreeListState.step, Option.ite_none_right_eq_some, Option.some.injEq] at step
      rcases step with ⟨_, rfl⟩
      have different : block ≠ freed := by
        rintro rfl
        apply keeps
        simp [FreeListLabel.Releases]
      simpa [setPusher, different] using owned
  | owner fails => exact (ownerStep_frame _ step).2 owned
  | pusher thread fails =>
      rw [pusherStep_client step]
      exact owned

/-- Between two returns of a block there is a release of it. -/
theorem releases_of_returned {labels : List FreeListLabel}
    (run : Run (ofFunction step) s labels s') (owned : s.client block = true)
    (taken : s'.client block = false) : ∃ label ∈ labels, label.Releases block := by
  induction run with
  | nil => simp [owned] at taken
  | @cons s middle t label labels head tail ih =>
      by_cases releases : label.Releases block
      · exact ⟨label, List.mem_cons_self, releases⟩
      · rcases ih (client_of_not_releases owned head releases) taken with ⟨later, member, releases⟩
        exact ⟨later, List.mem_cons_of_mem _ member, releases⟩

/--
In every interleaving each block is with the client, on exactly one list or held by exactly
one push; and after `pop` has returned a block, it returns it again only after a release.
-/
theorem conserves_of_run {next : Nat → Nat} {client : Nat → Bool} (nonnull : client 0 = false)
    {labels : List FreeListLabel} {s : FreeListState}
    (run : Run (ofFunction step) (start next client) labels s) :
    (∃ locals remotes, Conserves client s locals remotes) ∧
    ∀ block label label' between s' t, s.returned label = some block → s.step label = some s' →
      Run (ofFunction step) s' between t → t.returned label' = some block →
      ∃ release ∈ between, release.Releases block := by
  rcases (start_invariant next client).run nonnull run with ⟨locals, remotes, invariant⟩
  refine ⟨⟨locals, remotes, invariant.toConserves⟩, ?_⟩
  intro block label label' between s' t returns taken rest returns'
  rcases (invariant.step nonnull taken).run nonnull rest with ⟨locals', remotes', final⟩
  exact releases_of_returned rest (client_of_returned returns taken)
    (final.not_client_of_returned returns')

/-- A pop, and a release by another thread of the popped block. -/
def popAndRelease : List FreeListLabel :=
  [.freeLocal 8, .owner false, .owner false, .owner false, .pop, .owner false, .owner false,
    .owner false, .freeRemote 0 8, .pusher 0 false, .pusher 0 false, .pusher 0 false]

theorem popAndRelease_allowed :
    (replay step (start id (decide <| · = 8)) popAndRelease).isSome = true := by
  decide +kernel

theorem conserves_popAndRelease :
    let s := (replay step (start id (decide <| · = 8)) popAndRelease).get popAndRelease_allowed
    (∃ locals remotes, Conserves (decide <| · = 8) s locals remotes) ∧
    ∀ block label label' between s' t, s.returned label = some block → s.step label = some s' →
      Run (ofFunction step) s' between t → t.returned label' = some block →
      ∃ release ∈ between, release.Releases block :=
  conserves_of_run (by decide) (run_of_replay (Option.some_get popAndRelease_allowed).symm)

/-! ## The count -/

/-- `swap` has read `num_remote_free` and not yet reset it. -/
def resetting (s : FreeListState) : Bool :=
  match s.owner with
  | .swapAdd _ | .swapReset _ => true
  | _ => false

/-- A `free_remote` does not count its block while `swap` is about to reset the count. -/
def CountsInTime (s : FreeListState) (label : FreeListLabel) : Prop :=
  ∀ thread fails, label = .pusher thread fails → s.pushers thread = .count → s.resetting = false

/-- By how much the count is behind in the middle of an operation of the owner. -/
def debt (s : FreeListState) : Int :=
  match s.owner with
  | .popLoad _ | .popStore _ _ | .freeCount => 1
  | .swapAdd count => count - s.numRemoteFree
  | .swapReset _ => -s.numRemoteFree
  | _ => 0

/-- The pushers in `counting` have not counted their block, and `lost` counts were reset away. -/
structure Counted (s : FreeListState) (locals remotes : List Nat) (counting : Finset Nat)
    (lost : Nat) : Prop where
  mem_counting : ∀ thread, thread ∈ counting ↔ s.pushers thread = .count
  total : (locals.length + remotes.length : Int) - counting.card = s.numFree + lost + s.debt

/-- Counting a block pays the owner's debt, unless `swap` is about to reset the count. -/
theorem debt_count (s : FreeListState) (thread : Nat) :
    ({ s with numRemoteFree := s.numRemoteFree + 1 }.setPusher thread .idle).debt =
      s.debt - s.resetting.toNat := by
  simp only [debt, resetting, setPusher]
  cases s.owner with
  | swapAdd count | swapReset count =>
      simp only [Bool.toNat_true]
      omega
  | _ => rfl

theorem start_counted (next : Nat → Nat) (client : Nat → Bool) :
    Counted (start next client) [] [] ∅ 0 where
  mem_counting thread := by simp [start]
  total := rfl

namespace Counted

variable {counting : Finset Nat} {lost : Nat}

theorem ownerStep (counted : Counted s locals remotes counting lost)
    (invariant : Invariant known s locals remotes) {fails : Bool}
    (step : s.ownerStep fails = some s') :
    Counted s' (s.moved (.owner fails) locals remotes).1
      (s.moved (.owner fails) locals remotes).2 counting lost := by
  have total := counted.total
  have same : s'.pushers = s.pushers := (ownerStep_frame 0 step).1
  refine ⟨by simpa only [same] using counted.mem_counting, ?_⟩
  unfold FreeListState.ownerStep at step
  unfold moved
  unfold debt numFree at total ⊢
  cases pc : s.owner with
  | idle => simp [pc] at step
  | popStore block link =>
      have ready := invariant.ready
      have own := invariant.own
      simp only [Ready, pc, Option.some.injEq] at step ready own total ⊢
      subst s'
      rcases ready with ⟨rfl, head_ne, _⟩
      rcases (own rfl).eq_cons head_ne with ⟨rest, rfl, _⟩
      simp only [List.tail_cons, List.length_cons] at total ⊢
      omega
  | freeHead block =>
      simp only [pc, Option.some.injEq] at step total ⊢
      subst s'
      simp only [List.length_cons]
      omega
  | swapCas =>
      have swapping := invariant.swapping
      simp only [pc] at step total swapping ⊢
      split at step
      · next exchanged =>
          obtain rfl := Option.some.inj step
          obtain rfl := swapping rfl
          rw [if_pos exchanged]
          simpa using total
      · next failed =>
          obtain rfl := Option.some.inj step
          rw [if_neg failed]
          exact total
  | _ =>
      simp only [pc, Option.some.injEq] at step total ⊢
      subst s'
      simp only [FreeListState.setNext]
      omega

theorem setPusher (counted : Counted s locals remotes counting lost) {pc : PusherPc}
    (before : s.pushers thread ≠ .count) (after : pc ≠ .count) :
    Counted (s.setPusher thread pc) locals remotes counting lost := by
  refine ⟨fun other => ?_, counted.total⟩
  rw [counted.mem_counting other]
  by_cases same : other = thread
  · subst other
    simp [FreeListState.setPusher, before, after]
  · simp [FreeListState.setPusher, same]

theorem pusherStep (counted : Counted s locals remotes counting lost) {fails : Bool}
    (step : s.pusherStep thread fails = some s') :
    ∃ counting' lost',
      Counted s' (s.moved (.pusher thread fails) locals remotes).1
        (s.moved (.pusher thread fails) locals remotes).2 counting' lost' ∧ lost ≤ lost' ∧
      (lost' = lost ↔ (s.pushers thread = .count → s.resetting = false)) := by
  unfold FreeListState.pusherStep at step
  unfold moved
  cases pc : s.pushers thread with
  | idle => simp [pc] at step
  | cas block =>
      have outside : thread ∉ counting := by simp [counted.mem_counting, pc]
      simp only [pc] at step ⊢
      split at step
      · next exchanged =>
          obtain rfl := Option.some.inj step
          rw [if_pos exchanged]
          refine ⟨insert thread counting, lost, ⟨fun other => ?_, ?_⟩, le_rfl, by simp⟩
          · rw [Finset.mem_insert, counted.mem_counting other]
            by_cases same : other = thread <;> simp [FreeListState.setPusher, same]
          · have total := counted.total
            rw [Finset.card_insert_of_notMem outside, List.length_cons]
            simp only [numFree, debt, FreeListState.setPusher] at total ⊢
            omega
      · next failed =>
          obtain rfl := Option.some.inj step
          rw [if_neg failed]
          exact ⟨counting, lost, counted.setPusher (by simp [pc]) (by simp), le_rfl, by simp⟩
  | count =>
      have inside : thread ∈ counting := by simp [counted.mem_counting, pc]
      simp only [pc, Option.some.injEq] at step ⊢
      subst s'
      refine ⟨counting.erase thread, lost + s.resetting.toNat, ⟨fun other => ?_, ?_⟩, ?_, ?_⟩
      · rw [Finset.mem_erase, counted.mem_counting other]
        by_cases same : other = thread <;> simp [FreeListState.setPusher, same]
      · have total := counted.total
        have card := Finset.card_erase_add_one inside
        rw [debt_count]
        simp only [numFree, FreeListState.setPusher] at total ⊢
        omega
      · exact Nat.le_add_right ..
      · cases s.resetting <;> simp
  | load block =>
      simp only [pc, Option.some.injEq] at step ⊢
      subst s'
      exact ⟨counting, lost, counted.setPusher (by simp [pc]) (by simp), le_rfl, by simp⟩
  | link block head | relink block head =>
      simp only [pc, Option.some.injEq] at step ⊢
      subst s'
      exact ⟨counting, lost, Counted.setPusher (s := s.setNext block head)
        ⟨counted.mem_counting, counted.total⟩ (by simp [pc, FreeListState.setNext]) (by simp),
        le_rfl, by simp⟩

/-- Every step keeps the count, up to a count that `swap` resets away. -/
theorem step (counted : Counted s locals remotes counting lost)
    (invariant : Invariant known s locals remotes) {label : FreeListLabel}
    (step : s.step label = some s') :
    ∃ counting' lost',
      Counted s' (s.moved label locals remotes).1 (s.moved label locals remotes).2 counting' lost' ∧
      lost ≤ lost' ∧ (lost' = lost ↔ s.CountsInTime label) := by
  have total := counted.total
  cases label with
  | pop | swap =>
      simp only [FreeListState.step, Option.ite_none_right_eq_some, Option.some.injEq] at step
      rcases step with ⟨idle, rfl⟩
      refine ⟨counting, lost, ?_, le_rfl, by simp [CountsInTime]⟩
      split
      · exact counted
      · refine ⟨counted.mem_counting, ?_⟩
        simpa only [moved, debt, numFree, idle] using total
  | freeLocal block =>
      simp only [FreeListState.step, Option.ite_none_right_eq_some, Option.some.injEq] at step
      rcases step with ⟨⟨idle, _⟩, rfl⟩
      refine ⟨counting, lost, ⟨counted.mem_counting, ?_⟩, le_rfl, by simp [CountsInTime]⟩
      simpa only [moved, debt, numFree, idle] using total
  | write block link =>
      simp only [FreeListState.step, Option.ite_none_right_eq_some, Option.some.injEq] at step
      rcases step with ⟨_, rfl⟩
      exact ⟨counting, lost, ⟨counted.mem_counting, total⟩, le_rfl, by simp [CountsInTime]⟩
  | freeRemote thread block =>
      simp only [FreeListState.step, Option.ite_none_right_eq_some, Option.some.injEq] at step
      rcases step with ⟨⟨idle, _⟩, rfl⟩
      refine ⟨counting, lost, ?_, le_rfl, by simp [CountsInTime]⟩
      have taken : Counted { s with client := Function.update s.client block false } locals remotes
          counting lost := ⟨counted.mem_counting, total⟩
      exact taken.setPusher (by simp [idle]) (by simp)
  | owner fails =>
      exact ⟨counting, lost, counted.ownerStep invariant step, le_rfl, by simp [CountsInTime]⟩
  | pusher thread fails =>
      rcases counted.pusherStep step with ⟨counting', lost', counted', le, same⟩
      refine ⟨counting', lost', counted', le, same.trans ?_⟩
      simp [CountsInTime]

end Counted

/--
In a state without an operation in progress, `num_free` is the number of listed blocks
exactly when every block was counted in time.
-/
theorem numFree_eq_iff_countsInTime {next : Nat → Nat} {client : Nat → Bool}
    (nonnull : client 0 = false) {labels : List FreeListLabel} {s : FreeListState}
    (run : Run (ofFunction step) (start next client) labels s) (quiescent : s.Quiescent) :
    ∃ locals remotes, s.Lists locals remotes ∧
      (s.numFree = locals.length + remotes.length ↔
        Run (Restrict (ofFunction step) CountsInTime) (start next client) labels s) := by
  have counted := run.restrict_iff CountsInTime
    (fun s lost => ∃ locals remotes counting,
      Invariant client s locals remotes ∧ Counted s locals remotes counting lost)
    ?_ ⟨[], [], ∅, start_invariant next client, start_counted next client⟩
  · rcases counted with ⟨lost, ⟨locals, remotes, counting, invariant, counted⟩, _, inTime⟩
    refine ⟨locals, remotes, invariant.toLists, ?_⟩
    have none_counting : counting = ∅ := by
      refine Finset.eq_empty_of_forall_notMem fun thread member => ?_
      simpa [quiescent.2 thread] using (counted.mem_counting thread).mp member
    have total := counted.total
    simp only [debt, quiescent.1, none_counting, Finset.card_empty] at total
    rw [← inTime]
    omega
  · rintro s label t lost ⟨locals, remotes, counting, invariant, counted⟩ taken
    rcases counted.step invariant taken with ⟨counting', lost', counted', le, inTime⟩
    exact ⟨lost', ⟨_, _, counting', invariant.step nonnull taken, counted'⟩, le, inTime⟩

/--
The owner swaps while block 16 is pushed: `swap` reads the count before the push of 16 adds
to it, and resets it after.
-/
def lateCount : List FreeListLabel :=
  [.freeRemote 0 8, .pusher 0 false, .pusher 0 false, .pusher 0 false, .pusher 0 false,
    .freeRemote 0 16, .pusher 0 false, .pusher 0 false, .pusher 0 false,
    .swap, .owner false, .owner false, .owner false, .owner false, .owner false,
    .pusher 0 false, .owner false]

theorem lateCount_allowed :
    (replay step (start id fun block => decide (0 < block)) lateCount).isSome = true := by
  decide +kernel

theorem lateCount_quiescent :
    ((replay step (start id fun block => decide (0 < block)) lateCount).get
      lateCount_allowed).Quiescent := by
  refine ⟨rfl, fun thread => ?_⟩
  cases thread with
  | zero => rfl
  | succ thread => rfl

theorem numFree_eq_iff_lateCount :
    ∃ locals remotes,
      ((replay step (start id fun block => decide (0 < block)) lateCount).get
        lateCount_allowed).Lists locals remotes ∧
      (((replay step (start id fun block => decide (0 < block)) lateCount).get
          lateCount_allowed).numFree = locals.length + remotes.length ↔
        Run (Restrict (ofFunction step) CountsInTime)
          (start id fun block => decide (0 < block)) lateCount
          ((replay step (start id fun block => decide (0 < block)) lateCount).get
            lateCount_allowed)) :=
  numFree_eq_iff_countsInTime (by decide)
    (run_of_replay (Option.some_get lateCount_allowed).symm) lateCount_quiescent

/-- After `lateCount` two blocks are listed and `num_free` is 1. -/
theorem numFree_ne_lateCount :
    ¬ ∀ next client labels s, client 0 = false →
      Run (ofFunction step) (start next client) labels s → s.Quiescent →
      ∀ locals remotes, s.Lists locals remotes → s.numFree = locals.length + remotes.length := by
  intro claim
  have count := claim id (fun block => decide (0 < block)) lateCount _ (by decide)
    (run_of_replay (Option.some_get lateCount_allowed).symm) lateCount_quiescent [16, 8] []
    ⟨rfl, fun _ => ⟨rfl, by decide, rfl, by decide, rfl⟩, nofun⟩
  exact absurd count (by decide)

end FreeListState

end Alaska
