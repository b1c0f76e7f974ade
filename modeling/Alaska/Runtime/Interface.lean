import Alaska.Runtime.HugeRuns

/-!
# The C interface

`halloc.cpp`: the functions a C program calls, on the thread cache of the calling thread.
They add the conventions of the C library for null pointers and for sizes of zero. A
program run is a run of the runtime, so what holds of those holds of the programs.
-/

namespace Alaska

open Memory Mapping Lts HugeObjectAllocator

/-- A call of the interface; `address` is where `mmap` would put a huge object. -/
inductive InterfaceCall where
  | halloc (size address : Nat)
  | hcalloc (nmemb size address : Nat)
  | hrealloc (handle newSize address : Nat)
  | hfree (handle : Nat)

namespace InterfaceCall

/-- The number of bytes that the call asks for. -/
def request : InterfaceCall → Nat
  | .halloc size _ => size
  | .hcalloc nmemb size _ => nmemb * size
  | .hrealloc _ newSize _ => newSize
  | .hfree _ => 0

/-- The huge object allocator can add its header to what the call asks for. -/
def Fits (c : InterfaceCall) : Prop := FitsMapping c.request

instance (c : InterfaceCall) : Decidable c.Fits := inferInstanceAs (Decidable (FitsMapping _))

end InterfaceCall

namespace Runtime

/--
The effect of a call, with the pointer it returns. A pointer to `hrealloc` that is neither a
handle nor registered goes to the `realloc` of the C library, here `none`.
-/
def call (rt : Runtime) (tid : Nat) : InterfaceCall → Option (Nat × Runtime)
  | .halloc size address => rt.halloc tid size false address
  | .hcalloc nmemb size address => rt.halloc tid (nmemb * size % 2 ^ 64) true address
  | .hrealloc handle newSize address =>
      if handle = 0 then
        rt.halloc tid newSize false address
      else if fromHandleSafe handle = none ∧ rt.huge.owns handle = false then
        none
      else if newSize = 0 then
        (rt.hfree tid handle).map (0, ·)
      else
        rt.hrealloc tid handle newSize address
  | .hfree handle => if handle = 0 then some (0, rt) else (rt.hfree tid handle).map (0, ·)

end Runtime

namespace Objects

/-- An object of `size` bytes at `result`; there is none of no bytes. -/
def allocate (objects : Objects) (size : Nat) (zero : Bool) (result : Nat) : Objects :=
  if size = 0 then objects else objects.insert result (Runtime.freshObject size zero)

/-- What a call that returned `result` means to a client that passes live or null pointers. -/
def call (objects : Objects) (c : InterfaceCall) (result : Nat) : Option Objects :=
  match c with
  | .halloc size _ => some (objects.allocate size false result)
  | .hcalloc nmemb size _ => some (objects.allocate (nmemb * size) true result)
  | .hrealloc handle newSize _ =>
      if handle = 0 then
        some (objects.allocate newSize false result)
      else
        (objects handle).map fun object =>
          if newSize = 0 then
            objects.remove handle
          else
            (objects.remove handle).insert result (resize object newSize)
  | .hfree handle =>
      if handle = 0 then some objects else (objects handle).map fun _ => objects.remove handle

end Objects

/-- A step of a program: a call by the thread of `tid`, or the runtime at work beside it. -/
inductive ProgramOp where
  | call (tid : Nat) (c : InterfaceCall)
  | runtime (op : RuntimeOp)

/-- The requests of a program that the runtime can serve. -/
def ProgramOp.Fits : ProgramOp → Prop
  | .call _ c => c.Fits
  | .runtime op => op.Fits

instance : DecidablePred ProgramOp.Fits
  | .call _ c => inferInstanceAs (Decidable c.Fits)
  | .runtime op => inferInstanceAs (Decidable op.Fits)

namespace ClientState

open Alaska.Runtime

def program (s : ClientState) : ProgramOp → Option ClientState
  | .call tid c => do
      let (result, runtime) ← s.runtime.onCache tid (s.runtime.call tid c)
      let objects ← s.objects.call c result
      some ⟨runtime, objects⟩
  | .runtime op => s.next op

variable {s t : ClientState} {tid : Nat} {c : InterfaceCall} {op : ProgramOp}

/-- The operation of the thread cache behind a call, if there is one. -/
def operation (tid : Nat) : InterfaceCall → Option RuntimeOp
  | .halloc size address =>
      if size = 0 then none else some (.halloc tid size false address)
  | .hcalloc nmemb size address =>
      if nmemb * size = 0 then none else some (.halloc tid (nmemb * size) true address)
  | .hrealloc handle newSize address =>
      if handle = 0 then
        if newSize = 0 then none else some (.halloc tid newSize false address)
      else if newSize = 0 then
        some (.hfree tid handle)
      else
        some (.hrealloc tid handle newSize address)
  | .hfree handle => if handle = 0 then none else some (.hfree tid handle)

theorem fits_operation {op : RuntimeOp} (fits : c.Fits) (isOperation : operation tid c = some op) :
    op.Fits := by
  have fitsNothing : FitsMapping 0 := by decide
  cases c with
  | halloc size address =>
      simp only [operation, Option.ite_none_left_eq_some, Option.some.injEq] at isOperation
      rcases isOperation with ⟨_, rfl⟩
      exact fits
  | hcalloc nmemb size address =>
      simp only [operation, Option.ite_none_left_eq_some, Option.some.injEq] at isOperation
      rcases isOperation with ⟨_, rfl⟩
      exact fits
  | hrealloc handle newSize address =>
      simp only [operation] at isOperation
      split at isOperation
      · simp only [Option.ite_none_left_eq_some, Option.some.injEq] at isOperation
        rcases isOperation with ⟨_, rfl⟩
        exact fits
      · split at isOperation
        · obtain rfl := Option.some.inj isOperation
          exact fitsNothing
        · obtain rfl := Option.some.inj isOperation
          exact fits
  | hfree handle =>
      simp only [operation, Option.ite_none_left_eq_some, Option.some.injEq] at isOperation
      rcases isOperation with ⟨_, rfl⟩
      exact fitsNothing

theorem lt_of_fits {size : Nat} (fits : FitsMapping size) : size < 2 ^ 64 := by
  simp only [FitsMapping] at fits
  omega

/-- An allocation of no bytes returns null, any other one is an operation. -/
theorem program_halloc {size address result : Nat} {zero : Bool} {rt : Runtime}
    (lt : tid < s.runtime.cacheCount) (fits : FitsMapping size)
    (returned : s.runtime.halloc tid size zero address = some (result, rt)) :
    Run (ofFunction next) s (if size = 0 then none else
        some (RuntimeOp.halloc tid size zero address)).toList
      ⟨rt, s.objects.allocate size zero result⟩ := by
  by_cases empty : size = 0
  · rw [Runtime.halloc, if_pos empty] at returned
    obtain ⟨rfl, rfl⟩ := Prod.mk.inj (Option.some.inj returned)
    rw [if_pos empty, Objects.allocate, if_pos empty]
    exact .nil s
  · rw [if_neg empty, Objects.allocate, if_neg empty]
    refine .cons ?_ (.nil _)
    have valid : Objects.ValidSize size := ⟨Nat.pos_of_ne_zero empty, lt_of_fits fits⟩
    simp only [ofFunction, next, perform, onCache, lt, if_true, returned, Objects.step, valid,
      Option.bind_eq_bind, Option.bind_some]
    rfl

/-- A call is the operation behind it, or changes nothing. -/
theorem program_call (fits : c.Fits) (step : s.program (.call tid c) = some t) :
    Run (ofFunction next) s (operation tid c).toList t := by
  simp only [program, onCache, Option.bind_eq_bind, Option.bind_eq_some_iff, Prod.exists,
    Option.ite_none_right_eq_some, Option.some.injEq] at step
  rcases step with ⟨result, rt, ⟨lt, returned⟩, objects, called, rfl⟩
  cases c with
  | halloc size address =>
      obtain rfl := Option.some.inj called
      exact program_halloc lt fits returned
  | hcalloc nmemb size address =>
      obtain rfl := Option.some.inj called
      have small : nmemb * size % 2 ^ 64 = nmemb * size := Nat.mod_eq_of_lt (lt_of_fits fits)
      simp only [Runtime.call, small] at returned
      exact program_halloc lt fits returned
  | hrealloc handle newSize address =>
      simp only [Runtime.call] at returned
      simp only [Objects.call] at called
      simp only [operation]
      by_cases null : handle = 0
      · rw [if_pos null] at returned called
        rw [if_pos null]
        obtain rfl := Option.some.inj called
        exact program_halloc lt fits returned
      · rw [if_neg null] at returned called
        rw [if_neg null]
        rcases Option.map_eq_some_iff.mp called with ⟨object, isLive, rfl⟩
        split at returned
        · cases returned
        by_cases empty : newSize = 0
        · rw [if_pos empty] at returned
          simp only [if_pos empty]
          rcases Option.map_eq_some_iff.mp returned with ⟨rt', freed, same⟩
          obtain ⟨rfl, rfl⟩ := Prod.mk.inj same
          refine .cons ?_ (.nil _)
          simp only [ofFunction, next, perform, onCache, lt, if_true, freed, Option.map_some,
            Objects.step, isLive, Option.bind_eq_bind, Option.bind_some]
        · rw [if_neg empty] at returned
          simp only [if_neg empty]
          refine .cons ?_ (.nil _)
          have valid : Objects.ValidSize newSize :=
            ⟨Nat.pos_of_ne_zero empty, lt_of_fits fits⟩
          simp only [ofFunction, next, perform, onCache, lt, if_true, returned, Option.map_some,
            Objects.step, valid, isLive, Option.bind_eq_bind, Option.bind_some]
  | hfree handle =>
      simp only [Runtime.call] at returned
      simp only [Objects.call] at called
      simp only [operation]
      by_cases null : handle = 0
      · rw [if_pos null] at returned called
        obtain ⟨rfl, rfl⟩ := Prod.mk.inj (Option.some.inj returned)
        obtain rfl := Option.some.inj called
        rw [if_pos null]
        exact .nil s
      · rw [if_neg null] at returned called
        rw [if_neg null]
        rcases Option.map_eq_some_iff.mp called with ⟨object, isLive, rfl⟩
        rcases Option.map_eq_some_iff.mp returned with ⟨rt', freed, same⟩
        obtain ⟨rfl, rfl⟩ := Prod.mk.inj same
        refine .cons ?_ (.nil _)
        simp only [ofFunction, next, perform, onCache, lt, if_true, freed, Option.map_some,
          Objects.step, isLive, Option.bind_eq_bind, Option.bind_some]

/-- The operations of the runtime in a step of a program. -/
def operations : ProgramOp → List RuntimeOp
  | .call tid c => (operation tid c).toList
  | .runtime op => [op]

theorem fits_operations (fits : op.Fits) : ∀ runtimeOp ∈ operations op, runtimeOp.Fits := by
  cases op with
  | call tid c =>
      intro runtimeOp member
      exact fits_operation fits (Option.mem_toList.mp member)
  | runtime op =>
      intro runtimeOp member
      rw [List.mem_singleton.mp member]
      exact fits

theorem program_operations (fits : op.Fits) (step : s.program op = some t) :
    Run (ofFunction next) s (operations op) t := by
  cases op with
  | call tid c => exact program_call fits step
  | runtime op => exact .cons step (.nil t)

/-- A program run is a run of the runtime. -/
theorem program_run {ops : List ProgramOp} (run : Run (ofFunction program) s ops t)
    (fits : ∀ op ∈ ops, op.Fits) :
    Run (ofFunction next) s (ops.flatMap operations) t ∧
      ∀ op ∈ ops.flatMap operations, op.Fits := by
  induction run with
  | nil => exact ⟨.nil _, fun _ member => (nomatch member)⟩
  | cons head tail ih =>
      rename_i label labels
      have fitsHead := fits label List.mem_cons_self
      rcases ih fun op member => fits op (List.mem_cons_of_mem _ member) with ⟨rest, fitsRest⟩
      rw [List.flatMap_cons]
      refine ⟨(program_operations fitsHead head).append rest, fun op member => ?_⟩
      rcases List.mem_append.mp member with inHead | inTail
      · exact fits_operations fitsHead op inHead
      · exact fitsRest op inTail

theorem ne_zero_of_live {p : Nat} {object : Object} (holds : s.runtime.Holds s.objects none none)
    (isLive : s.objects p = some object) : p ≠ 0 := by
  rcases holds.pointers p object isLive with ⟨m, inTable, rfl⟩ | ⟨header, mapped⟩
  · intro null
    have isHandle := fromHandleSafe_toHandle inTable
    rw [null, fromHandleSafe_of_lt (by omega)] at isHandle
    exact nomatch isHandle
  · have data := mapped.data
    simp only [HugeHeader.data, HugeHeader.bytes] at data
    omega

/-- What a program can rely on in a state. -/
structure Serves (s : ClientState) : Prop where
  refines : s.Refines
  nonnull : s.objects 0 = none
  owned : ∀ p object, s.objects p = some object → fromHandleSafe p = none →
    s.runtime.huge.owns p = true

/-- What `halloc` returns: null for no bytes, and else a pointer that was not live. -/
theorem halloc_returns {size address result : Nat} {zero : Bool} {rt : Runtime}
    (holds : s.runtime.Holds s.objects none none) (lt : tid < s.runtime.cacheCount)
    (fits : FitsMapping size)
    (returned : s.runtime.halloc tid size zero address = some (result, rt))
    (count_le : rt.table.slabCount ≤ 2 ^ 21) :
    (result = 0 ↔ size = 0) ∧ s.objects result = none := by
  by_cases empty : size = 0
  · rw [Runtime.halloc, if_pos empty] at returned
    obtain ⟨rfl, rfl⟩ := Prod.mk.inj (Option.some.inj returned)
    refine ⟨by simp [empty], ?_⟩
    by_contra alive
    rcases Option.ne_none_iff_exists'.mp alive with ⟨object, isLive⟩
    exact ne_zero_of_live holds isLive rfl
  · have inserted := holds.halloc lt (Nat.pos_of_ne_zero empty) fits returned count_le
    have live := s.objects.insert_self result (freshObject size zero)
    have nonnull := @ne_zero_of_live ⟨rt, _⟩ _ _ inserted.holds live
    exact ⟨by simp [empty, nonnull], inserted.dead⟩

/-- What `hrealloc` of the thread cache returns. -/
theorem hrealloc_returns {handle newSize address result : Nat} {object : Object} {rt : Runtime}
    (holds : s.runtime.Holds s.objects none none) (lt : tid < s.runtime.cacheCount)
    (isLive : s.objects handle = some object) (pos : 0 < newSize) (fits : FitsMapping newSize)
    (returned : s.runtime.hrealloc tid handle newSize address = some (result, rt))
    (count_le : rt.table.slabCount ≤ 2 ^ 21) :
    result ≠ 0 ∧ (s.objects result ≠ none → result = handle) := by
  have moved := holds.hrealloc lt isLive pos fits returned count_le
  have live := (s.objects.remove handle).insert_self result (Objects.resize object newSize)
  refine ⟨@ne_zero_of_live ⟨rt, _⟩ _ _ moved.holds live, fun alive => ?_⟩
  by_contra ne
  exact alive ((Function.update_of_ne ne _ _).symm.trans moved.dead)

/-- What a call returns: null for no bytes, and else no pointer of another object. -/
theorem call_returns {result : Nat} {rt : Runtime} {objects : Objects}
    (holds : s.runtime.Holds s.objects none none)
    (returned : s.runtime.onCache tid (s.runtime.call tid c) = some (result, rt))
    (called : s.objects.call c result = some objects) (fits : c.Fits)
    (count_le : rt.table.slabCount ≤ 2 ^ 21) :
    (result = 0 ↔ c.request = 0) ∧
      (s.objects result ≠ none → ∃ newSize address, c = .hrealloc result newSize address) := by
  have null : s.objects 0 = none := by
    by_contra alive
    rcases Option.ne_none_iff_exists'.mp alive with ⟨object, isLive⟩
    exact ne_zero_of_live holds isLive rfl
  simp only [onCache, Option.ite_none_right_eq_some] at returned
  rcases returned with ⟨lt, returned⟩
  cases c with
  | halloc size address =>
      rcases halloc_returns holds lt fits returned count_le with ⟨nonnull, fresh⟩
      exact ⟨nonnull, fun alive => absurd fresh alive⟩
  | hcalloc nmemb size address =>
      have small : nmemb * size % 2 ^ 64 = nmemb * size := Nat.mod_eq_of_lt (lt_of_fits fits)
      simp only [Runtime.call, small] at returned
      rcases halloc_returns holds lt fits returned count_le with ⟨nonnull, fresh⟩
      exact ⟨nonnull, fun alive => absurd fresh alive⟩
  | hrealloc handle newSize address =>
      simp only [Runtime.call] at returned
      simp only [Objects.call] at called
      by_cases isNull : handle = 0
      · rw [if_pos isNull] at returned
        rcases halloc_returns holds lt fits returned count_le with ⟨nonnull, fresh⟩
        exact ⟨nonnull, fun alive => absurd fresh alive⟩
      rw [if_neg isNull] at returned called
      rcases Option.map_eq_some_iff.mp called with ⟨object, isLive, _⟩
      split at returned
      · cases returned
      by_cases empty : newSize = 0
      · rw [if_pos empty] at returned
        rcases Option.map_eq_some_iff.mp returned with ⟨rt', _, same⟩
        obtain ⟨rfl, rfl⟩ := Prod.mk.inj same
        exact ⟨by simp [InterfaceCall.request, empty], fun alive => absurd null alive⟩
      · rw [if_neg empty] at returned
        rcases hrealloc_returns holds lt isLive (Nat.pos_of_ne_zero empty) fits returned count_le
          with ⟨nonnull, own⟩
        refine ⟨by simp [InterfaceCall.request, empty, nonnull], fun alive => ?_⟩
        exact ⟨newSize, address, by rw [own alive]⟩
  | hfree handle =>
      simp only [Runtime.call] at returned
      have isZero : result = 0 := by
        split at returned
        · exact (Prod.mk.inj (Option.some.inj returned)).1.symm
        · rcases Option.map_eq_some_iff.mp returned with ⟨rt', _, same⟩
          exact (Prod.mk.inj same).1.symm
      subst isZero
      exact ⟨by simp [InterfaceCall.request], fun alive => absurd null alive⟩

/--
In every state of a program run the objects are as the client left them, null is none of
them, and a live pointer never goes to the `realloc` of the C library. A further call
returns null exactly when no bytes are asked for, and else a pointer that was not live or
the one that it was given to reallocate.
-/
theorem serves_of_run {heapStart : Nat} (placed : Heap.Placed heapStart) {ops : List ProgramOp}
    (run : Run (ofFunction program) (initial heapStart) ops s) (fits : ∀ op ∈ ops, op.Fits)
    (count_le : s.runtime.table.slabCount ≤ 2 ^ 21) :
    s.Serves ∧ ∀ tid c result rt objects,
      s.runtime.onCache tid (s.runtime.call tid c) = some (result, rt) →
      s.objects.call c result = some objects → c.Fits → rt.table.slabCount ≤ 2 ^ 21 →
      (result = 0 ↔ c.request = 0) ∧
        (s.objects result ≠ none → ∃ newSize address, c = .hrealloc result newSize address) := by
  rcases program_run run fits with ⟨run, fits⟩
  have holds := holds_of_run (initial_holds placed) run fits count_le
  refine ⟨⟨ClientState.refines holds, ?_, ?_⟩, ?_⟩
  · by_contra alive
    rcases Option.ne_none_iff_exists'.mp alive with ⟨object, isLive⟩
    exact ne_zero_of_live holds isLive rfl
  · intro p object isLive user
    rcases holds.pointer_cases isLive with ⟨m, _, _, isHandle⟩ | ⟨_, header, mapped⟩
    · rw [isHandle] at user
      exact nomatch user
    · exact owns_iff.mpr ⟨header, mapped.member, mapped.data⟩
  · intro tid c result rt objects returned called callFits after
    exact call_returns holds returned called callFits after

/-- A program that keeps to the edges of the interface, with a huge object at 2^40. -/
def edgeOps : List ProgramOp :=
  [.runtime .newThreadcache, .call 0 (.hfree 0), .call 0 (.hcalloc 1000 2 0),
    .call 0 (.halloc 0 0), .call 0 (.hrealloc 0 0 0), .call 0 (.hrealloc 0 10000 0),
    .runtime (.write (handleAt 0 1) 1999 7), .call 0 (.hrealloc (handleAt 0 1) 2000000 (2 ^ 40)),
    .call 0 (.hrealloc (handleAt 0 2) 0 0), .call 0 (.hcalloc 3 0 0)]

theorem edgeOps_allowed : (replay program (initial (2 ^ 44)) edgeOps).isSome = true := by
  decide +kernel

/-- The state after `edgeOps`. -/
def edgeState : ClientState := (replay program (initial (2 ^ 44)) edgeOps).get edgeOps_allowed

theorem serves_edges :
    edgeState.Serves ∧ ∀ tid c result rt objects,
      edgeState.runtime.onCache tid (edgeState.runtime.call tid c) = some (result, rt) →
      edgeState.objects.call c result = some objects → c.Fits → rt.table.slabCount ≤ 2 ^ 21 →
      (result = 0 ↔ c.request = 0) ∧
        (edgeState.objects result ≠ none → ∃ newSize address, c = .hrealloc result newSize address) :=
  serves_of_run placed_session (run_of_replay (Option.some_get edgeOps_allowed).symm)
    (by decide) (by decide +kernel)

/-- `nmemb` members of `size` bytes can be used at `p`, and all their bytes are zero. -/
def HoldsZeroed (rt : Runtime) (p nmemb size : Nat) : Prop :=
  (∃ room, rt.getSize p = some room ∧ nmemb * size ≤ room) ∧
    ∀ index < nmemb * size, rt.store.bytes (rt.backing p + index) = 0

/--
`hcalloc` does not check its product: in every state of a program run the object that it
returns holds the members that were asked for if and only if the product does not overflow.
-/
theorem hcalloc_iff {heapStart nmemb size address result : Nat} {rt : Runtime}
    (placed : Heap.Placed heapStart) {ops : List ProgramOp}
    (run : Run (ofFunction program) (initial heapStart) ops s) (fits : ∀ op ∈ ops, op.Fits)
    (returned : s.runtime.onCache tid (s.runtime.call tid (.hcalloc nmemb size address)) =
      some (result, rt))
    (fitsProduct : FitsMapping (nmemb * size % 2 ^ 64))
    (count_le : rt.table.slabCount ≤ 2 ^ 21) (nonnull : result ≠ 0) :
    HoldsZeroed rt result nmemb size ↔ nmemb * size < 2 ^ 64 := by
  simp only [onCache, Option.ite_none_right_eq_some] at returned
  rcases returned with ⟨lt, returned⟩
  have count_le' := (slabCount_halloc returned).trans count_le
  rcases program_run run fits with ⟨run, fits⟩
  have holds := holds_of_run (initial_holds placed) run fits count_le'
  have pos : 0 < nmemb * size % 2 ^ 64 := by
    by_contra empty
    have isNull := (halloc_returns holds lt fitsProduct returned count_le).1.mpr (by omega)
    exact nonnull isNull
  have inserted := holds.halloc lt pos fitsProduct returned count_le
  have live := s.objects.insert_self result (freshObject (nmemb * size % 2 ^ 64) true)
  rcases inserted.holds.getSize_live live with ⟨room, isRoom, size_le, room_lt⟩
  constructor
  · rintro ⟨⟨_, isRoom', product_le⟩, _⟩
    obtain rfl := Option.some.inj (isRoom.symm.trans isRoom')
    omega
  · intro small
    rw [Nat.mod_eq_of_lt small] at inserted live size_le
    refine ⟨⟨room, isRoom, size_le⟩, fun index index_lt => ?_⟩
    exact inserted.holds.data result _ live index index_lt 0 rfl

/-- 2^61 + 3 members of 8 bytes are asked for after `edgeOps`. -/
theorem overflow_returns :
    (edgeState.runtime.onCache 0 (edgeState.runtime.call 0 (.hcalloc (2 ^ 61 + 3) 8 0))).isSome =
      true := by
  decide +kernel

def overflowResult : Nat × Runtime :=
  (edgeState.runtime.onCache 0 (edgeState.runtime.call 0 (.hcalloc (2 ^ 61 + 3) 8 0))).get
    overflow_returns

theorem hcalloc_iff_overflow :
    HoldsZeroed overflowResult.2 overflowResult.1 (2 ^ 61 + 3) 8 ↔ (2 ^ 61 + 3) * 8 < 2 ^ 64 := by
  have returned : edgeState.runtime.onCache 0
      (edgeState.runtime.call 0 (.hcalloc (2 ^ 61 + 3) 8 0)) =
        some (overflowResult.1, overflowResult.2) := by
    rw [Prod.mk.eta]
    exact (Option.some_get overflow_returns).symm
  have count : overflowResult.2.table.slabCount ≤ 2 ^ 21 := by decide +kernel
  have nonnull : overflowResult.1 ≠ 0 := by decide +kernel
  exact hcalloc_iff placed_session (run_of_replay (Option.some_get edgeOps_allowed).symm)
    (by decide) returned (by decide) count nonnull

end ClientState

end Alaska
