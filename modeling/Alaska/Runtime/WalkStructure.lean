import Alaska.Lib.BoundedSearch
import Alaska.Lib.Loop
import Alaska.Runtime.Queue
import Alaska.Runtime.Client

/-!
# Walking over a structure

`walk_structure` of `halloc.cpp` visits the objects that can be reached from a handle, as far
as its queue holds them, and calls a function on the mapping of every handle it finds. There
is no set of visited objects: the walk unfolds the graph of handles, and a cycle is followed
until the queue happens to be full when it closes.

The function changes a state that the runtime is a part of, or fails. `Keeps` says what the
walk relies on: what it reads of the heap stays as it is, but for the object whose mapping is
passed.
-/

namespace Alaska

open Memory Loop BoundedSearch

namespace HandleTable

def validHandle (t : HandleTable) (m : Nat) : Bool := decide (mappingSlabIdx m < t.slabCount)

end HandleTable

/-- The queue of the walk, and the state that the function changes. -/
structure Walk (State : Type) where
  todo : Queue Nat
  state : State

namespace Walk

variable {State : Type} (runtime : State → Runtime) (maxDepth : Nat) (fn : Nat → State → Option State)

/-- `schedule_pointer`; without a mapping nothing is scheduled. -/
def schedulePointer (w : Walk State) (h : Nat) : Option Nat → Option (Walk State)
  | none => some w
  | some m =>
      let rt := runtime w.state
      if !rt.table.validHandle m || (rt.store.mappings m).isFree then
        some w
      else do
        let state ← fn m w.state
        if w.todo.size ≥ maxDepth then
          some { w with state := state }
        else
          some { todo := w.todo.push h, state := state }

/-- The words of an object, from `cursor` on. -/
def scanWords (cursor elements : Nat) (w : Walk State) : Option (Walk State) :=
  (List.range elements).foldlM (fun w e =>
    let c := (runtime w.state).store.bytes.load64 (cursor + 8 * e)
    schedulePointer runtime maxDepth fn w c (Mapping.fromHandleSafe c)) w

/-- The body of the loop; `none` when a size or a call of the function fails. -/
def visit (w : Walk State) : Option (Walk State) := do
  let (h, todo) ← w.todo.pop
  let w := { w with todo := todo }
  match Mapping.fromHandleSafe h with
  | none => some w
  | some m =>
      let rt := runtime w.state
      let size ← rt.getSize h
      scanWords runtime maxDepth fn (rt.store.mappings m).getPointer (size / 8) w

/--
`walk_structure`, for a number of visits; `undefined` is what the build makes of a shift that
is out of range. If the capacity is no power of two, pushes go astray, and that is no walk.
-/
def walkStructure (undefined : Nat → Nat) (visits : Nat) (s : State) (ptr : Nat) :
    Option (Walk State) :=
  let todo := Queue.create undefined maxDepth
  if todo.capacity = 2 ^ todo.capacity.log2 then do
    let w ← schedulePointer runtime maxDepth fn ⟨todo, s⟩ ptr (Mapping.fromHandleSafe ptr)
    whileOption (fun w => !w.todo.isEmpty) (visit runtime maxDepth fn) visits w
  else
    none

/-- The depth, which the constructor of the queue takes for a scale, gives a power of two. -/
def MakesQueue (undefined : Nat → Nat) (maxDepth : Nat) : Prop :=
  ∃ scale, Queue.shiftedOne undefined maxDepth = 2 ^ scale

end Walk

/-- The function of `get_page_count_for_structure`, which collects 4k pages. -/
def addPage (m : Nat) (s : Runtime × List Nat) : Option (Runtime × List Nat) :=
  some (s.1, s.2.insert ((s.1.store.mappings m).getPointer / 2 ^ 12))

/-- `get_page_count_for_structure`, which sets the depth itself. -/
def getPageCountForStructure (undefined : Nat → Nat) (visits : Nat) (rt : Runtime) (ptr : Nat) :
    Option Nat :=
  (Walk.walkStructure Prod.fst 256 addPage undefined visits (rt, []) ptr).map fun w =>
    w.state.2.length

/-! ## The graph of handles -/

namespace Runtime

/-- `c` is a handle that the walk schedules. -/
def scheduled (rt : Runtime) (c : Nat) : Bool :=
  match Mapping.fromHandleSafe c with
  | none => false
  | some m => rt.table.validHandle m && !(rt.store.mappings m).isFree

/-- The words of the object of a handle. -/
def words (rt : Runtime) (h : Nat) : List Nat :=
  match Mapping.fromHandleSafe h with
  | none => []
  | some m => (List.range ((rt.getSize h).getD 0 / 8)).map fun e =>
      rt.store.bytes.load64 ((rt.store.mappings m).getPointer + 8 * e)

/-- The handles in the object of a handle. -/
def children (rt : Runtime) (h : Nat) : List Nat := (rt.words h).filter rt.scheduled

/-- `c` is reached from `h`. -/
def Reaches (rt : Runtime) (h c : Nat) : Prop :=
  Relation.ReflTransGen (fun h c => c ∈ rt.children h) h c

/-- The graph of handles is the same. -/
structure SameGraph (rt rt' : Runtime) : Prop where
  scheduled : ∀ c, rt'.scheduled c = rt.scheduled c
  getSize : ∀ h, rt.scheduled h = true → rt'.getSize h = rt.getSize h
  words : ∀ h, rt.scheduled h = true → rt'.words h = rt.words h

/-- The object of mapping `m` stays where it is, with its words. -/
structure SamePlace (rt rt' : Runtime) (m : Nat) : Prop where
  pointer : (rt'.store.mappings m).getPointer = (rt.store.mappings m).getPointer
  words : ∀ h, rt.scheduled h = true → Mapping.fromHandleSafe h = some m →
    ∀ e < (rt.getSize h).getD 0 / 8, rt'.store.bytes.load64 ((rt.store.mappings m).getPointer + 8 * e) =
      rt.store.bytes.load64 ((rt.store.mappings m).getPointer + 8 * e)

variable {rt rt' rt'' : Runtime} {m h c : Nat}

theorem scheduled_iff : rt.scheduled c = true ↔ ∃ m, Mapping.fromHandleSafe c = some m ∧
    rt.table.validHandle m = true ∧ (rt.store.mappings m).isFree = false := by
  simp only [scheduled]
  cases Mapping.fromHandleSafe c with
  | none => simp
  | some m => simp

theorem SameGraph.refl (rt : Runtime) : SameGraph rt rt :=
  ⟨fun _ => rfl, fun _ _ => rfl, fun _ _ => rfl⟩

theorem SameGraph.trans (first : SameGraph rt rt') (second : SameGraph rt' rt'') :
    SameGraph rt rt'' where
  scheduled c := (second.scheduled c).trans (first.scheduled c)
  getSize h live := (second.getSize h (by rwa [first.scheduled])).trans (first.getSize h live)
  words h live := (second.words h (by rwa [first.scheduled])).trans (first.words h live)

theorem SameGraph.children (same : SameGraph rt rt') (live : rt.scheduled h = true) :
    rt'.children h = rt.children h := by
  rw [Runtime.children, same.words h live]
  exact List.filter_congr fun c _ => same.scheduled c

theorem SamePlace.refl (rt : Runtime) (m : Nat) : SamePlace rt rt m :=
  ⟨rfl, fun _ _ _ _ _ => rfl⟩

theorem SamePlace.trans (first : SamePlace rt rt' m) (same : SameGraph rt rt')
    (second : SamePlace rt' rt'' m) : SamePlace rt rt'' m where
  pointer := second.pointer.trans first.pointer
  words h live object e lt := by
    have late := second.words h (by rwa [same.scheduled]) object e (by rwa [same.getSize h live])
    rw [first.pointer] at late
    rw [late, first.words h live object e lt]

end Runtime

namespace Walk

variable {State : Type} {runtime : State → Runtime}
  {fn : Nat → State → Option State} {invariant : State → Prop} {stays : Nat → Nat → Prop}

/--
What the walk relies on: where the function succeeds on the mapping of a live handle, it keeps
an invariant of the state and the graph of handles, and does not move certain other objects.
-/
structure Keeps (runtime : State → Runtime) (fn : Nat → State → Option State)
    (invariant : State → Prop) (stays : Nat → Nat → Prop) : Prop where
  call : ∀ s h m s', invariant s → (runtime s).scheduled h = true →
    Mapping.fromHandleSafe h = some m → fn m s = some s' → invariant s' ∧
      (runtime s).SameGraph (runtime s') ∧
      ∀ other, stays other m → (runtime s).SamePlace (runtime s') other

/-- The function fails on a mapping, in a state in which the invariant holds. -/
def Fails (fn : Nat → State → Option State) (invariant : State → Prop) : Prop :=
  ∃ m s, invariant s ∧ fn m s = none

/-- There is a value, and it is good, unless the function fails. -/
def Yields (fn : Nat → State → Option State) (invariant : State → Prop) {β : Type}
    (value : Option β) (good : β → Prop) : Prop :=
  (value = none ∧ Fails fn invariant) ∨ ∃ b, value = some b ∧ good b

theorem Yields.pure {β : Type} {good : β → Prop} {b : β} (isGood : good b) :
    Yields fn invariant (some b) good :=
  Or.inr ⟨b, rfl, isGood⟩

theorem Yields.bind {β γ : Type} {value : Option β} {good : β → Prop} {next : β → Option γ}
    {good' : γ → Prop} (yields : Yields fn invariant value good)
    (continues : ∀ b, good b → Yields fn invariant (next b) good') :
    Yields fn invariant (value.bind next) good' := by
  rcases yields with ⟨missing, fails⟩ | ⟨b, found, isGood⟩
  · rw [missing]
    exact Or.inl ⟨rfl, fails⟩
  · rw [found, Option.bind_some]
    exact continues b isGood

theorem Yields.mono {β : Type} {value : Option β} {good good' : β → Prop}
    (yields : Yields fn invariant value good) (weaker : ∀ b, good b → good' b) :
    Yields fn invariant value good' :=
  yields.imp id fun ⟨b, found, isGood⟩ => ⟨b, found, weaker b isGood⟩

/-- A walk whose queue has some elements, over the graph of a runtime. -/
structure Over (runtime : State → Runtime) (invariant : State → Prop) (rt : Runtime)
    (queue : List Nat) (w : Walk State) : Prop where
  holds : w.todo.Holds
  elements : w.todo.toList = queue
  invariant : invariant w.state
  same : rt.SameGraph (runtime w.state)

variable {rt : Runtime} {queue : List Nat} {w : Walk State}

theorem take_append_take (queue left right : List Nat) (bound : Nat) :
    queue ++ left.take (bound - queue.length) ++
        right.take (bound - (queue ++ left.take (bound - queue.length)).length) =
      queue ++ (left ++ right).take (bound - queue.length) := by
  rw [List.append_assoc, List.take_append, List.length_append, List.length_take]
  congr 2
  congr 1
  omega

/-- A pointer that is no live handle is skipped. -/
theorem schedulePointer_of_not_scheduled {maxDepth c : Nat}
    (skipped : (runtime w.state).scheduled c = false) :
    schedulePointer runtime maxDepth fn w c (Mapping.fromHandleSafe c) = some w := by
  rw [Runtime.scheduled] at skipped
  cases object : Mapping.fromHandleSafe c with
  | none => rfl
  | some m =>
      simp only [object, Bool.and_eq_false_iff, Bool.not_eq_false'] at skipped
      simp only [schedulePointer]
      rw [if_pos]
      simpa using skipped

/-- The function is called on the mapping of a live handle, which is pushed if there is room. -/
theorem schedulePointer_of_scheduled {maxDepth c m : Nat}
    (live : (runtime w.state).scheduled c = true) (object : Mapping.fromHandleSafe c = some m) :
    schedulePointer runtime maxDepth fn w c (Mapping.fromHandleSafe c) =
      (fn m w.state).bind fun state =>
        if w.todo.size ≥ maxDepth then some { w with state := state }
        else some { todo := w.todo.push c, state := state } := by
  rcases Runtime.scheduled_iff.mp live with ⟨m', object', valid, notFree⟩
  obtain rfl := Option.some.inj (object.symm.trans object')
  simp [schedulePointer, object, valid, notFree]

/-- A pointer that is no live handle is skipped, and a live handle is pushed if there is room. -/
theorem Over.schedulePointer (walks : Over runtime invariant rt queue w)
    (keeps : Keeps runtime fn invariant stays) (maxDepth c : Nat) :
    Yields fn invariant
      (Walk.schedulePointer runtime maxDepth fn w c (Mapping.fromHandleSafe c)) fun w' =>
        Over runtime invariant rt
          (queue ++ ([c].filter rt.scheduled).take (maxDepth - queue.length)) w' ∧
        ∀ other, (∀ m, Mapping.fromHandleSafe c = some m → rt.scheduled c = true →
          stays other m) → (runtime w.state).SamePlace (runtime w'.state) other := by
  have size_eq : w.todo.size = queue.length := by
    rw [← walks.elements, Queue.length_toList]
  cases live : rt.scheduled c with
  | false =>
      have skipped : (runtime w.state).scheduled c = false := by
        rw [walks.same.scheduled, live]
      rw [schedulePointer_of_not_scheduled skipped]
      exact .pure ⟨by simpa [live] using walks, fun _ _ => Runtime.SamePlace.refl _ _⟩
  | true =>
      have live' : (runtime w.state).scheduled c = true := by
        rw [walks.same.scheduled, live]
      rcases Runtime.scheduled_iff.mp live' with ⟨m, object, _, _⟩
      rw [schedulePointer_of_scheduled live' object]
      cases called : fn m w.state with
      | none => exact Or.inl ⟨rfl, m, w.state, walks.invariant, called⟩
      | some s' =>
          rcases keeps.call w.state c m s' walks.invariant live' object called with
            ⟨kept, same, places⟩
          have filtered : [c].filter rt.scheduled = [c] := by simp [live]
          rw [Option.bind_some, filtered, size_eq]
          split
          · next full =>
              refine .pure ⟨⟨walks.holds, ?_, kept, walks.same.trans same⟩, fun other stay =>
                places other (stay m object rfl)⟩
              rw [Nat.sub_eq_zero_of_le full, List.take_zero, List.append_nil]
              exact walks.elements
          · next room =>
              have pushed := walks.holds.push c
              refine .pure ⟨⟨pushed.1, ?_, kept, walks.same.trans same⟩, fun other stay =>
                places other (stay m object rfl)⟩
              rw [pushed.2, walks.elements, List.take_of_length_le]
              simp only [List.length_singleton]
              omega

/-- The scan appends the handles among the words, as they were when it started. -/
theorem Over.scanWords {h m : Nat} (walks : Over runtime invariant rt queue w)
    (keeps : Keeps runtime fn invariant stays) (maxDepth : Nat) (live : rt.scheduled h = true)
    (object : Mapping.fromHandleSafe h = some m) (place : rt.SamePlace (runtime w.state) m)
    (elements : List Nat) (bounded : ∀ e ∈ elements, e < (rt.getSize h).getD 0 / 8)
    (apart : ∀ c ∈ rt.children h, ∀ mc, Mapping.fromHandleSafe c = some mc → stays m mc) :
    Yields fn invariant (elements.foldlM (fun w e =>
        let c := (runtime w.state).store.bytes.load64
          ((rt.store.mappings m).getPointer + 8 * e)
        Walk.schedulePointer runtime maxDepth fn w c (Mapping.fromHandleSafe c)) w)
      (Over runtime invariant rt (queue ++ ((elements.map fun e =>
        rt.store.bytes.load64 ((rt.store.mappings m).getPointer + 8 * e)).filter
          rt.scheduled).take (maxDepth - queue.length))) := by
  induction elements generalizing w queue with
  | nil => exact .pure (by simpa using walks)
  | cons e elements ih =>
      have e_lt := bounded e List.mem_cons_self
      have word := place.words h live object e e_lt
      generalize c_eq : rt.store.bytes.load64 ((rt.store.mappings m).getPointer + 8 * e) = c
      rw [c_eq] at word
      rw [List.foldlM_cons]
      simp only [word, Option.bind_eq_bind]
      refine (walks.schedulePointer keeps maxDepth c).bind fun w' ⟨walks', places⟩ => ?_
      have place' : rt.SamePlace (runtime w'.state) m := by
        refine place.trans walks.same (places m fun mc object' live' => ?_)
        refine apart c ?_ mc object'
        rw [Runtime.children, List.mem_filter, Runtime.words, object]
        exact ⟨List.mem_map.mpr ⟨e, List.mem_range.mpr e_lt, c_eq⟩, live'⟩
      have rest := ih walks' place'
        fun other member => bounded other (List.mem_cons_of_mem _ member)
      rw [take_append_take] at rest
      rw [List.map_cons, c_eq, ← List.singleton_append, List.filter_append]
      exact rest

theorem Over.rebase {rt' : Runtime} (walks : Over runtime invariant rt' queue w)
    (same : rt.SameGraph rt') : Over runtime invariant rt queue w :=
  ⟨walks.holds, walks.elements, walks.invariant, same.trans walks.same⟩

/-- A visit takes the first handle and appends its children, as the search does. -/
theorem Over.visit {h m : Nat} {rest : List Nat} (walks : Over runtime invariant rt (h :: rest) w)
    (keeps : Keeps runtime fn invariant stays) (maxDepth : Nat)
    (sized : (rt.getSize h).isSome = true) (live : rt.scheduled h = true)
    (object : Mapping.fromHandleSafe h = some m)
    (apart : ∀ c ∈ rt.children h, ∀ mc, Mapping.fromHandleSafe c = some mc → stays m mc) :
    Yields fn invariant (Walk.visit runtime maxDepth fn w)
      (Over runtime invariant rt (rest ++ (rt.children h).take (maxDepth - rest.length))) := by
  have same := walks.same
  rcases walks.holds.pop walks.elements with ⟨todo, popped, holds, elements⟩
  rcases Option.isSome_iff_exists.mp sized with ⟨size, found⟩
  have found' : (runtime w.state).getSize h = some size := by
    rw [same.getSize h live, found]
  have live' : (runtime w.state).scheduled h = true := by
    rw [same.scheduled, live]
  -- the scan reads the object as it is now
  have here : Over runtime invariant (runtime w.state) rest ⟨todo, w.state⟩ :=
    ⟨holds, elements, walks.invariant, .refl _⟩
  have scanned := here.scanWords keeps maxDepth live' object (Runtime.SamePlace.refl _ m)
    (List.range (size / 8)) (by simp [found']) (by rwa [same.children live])
  have words : ((List.range (size / 8)).map fun e => (runtime w.state).store.bytes.load64
      (((runtime w.state).store.mappings m).getPointer + 8 * e)).filter
        (runtime w.state).scheduled = rt.children h := by
    rw [← same.children live, Runtime.children, Runtime.words, object, found']
    rfl
  rw [words] at scanned
  simp only [Walk.visit, popped, object, found', Option.bind_eq_bind, Option.bind_some]
  exact scanned.mono fun w' walks' => walks'.rebase same

/-- Handles with a size, whose objects stay in place while their own words are scanned. -/
structure Fine (rt : Runtime) (stays : Nat → Nat → Prop) (fine : Nat → Prop) : Prop where
  sized : ∀ h, fine h → rt.scheduled h = true → (rt.getSize h).isSome = true
  closed : ∀ h m, fine h → rt.scheduled h = true → Mapping.fromHandleSafe h = some m →
    ∀ c ∈ rt.children h, fine c ∧ ∀ mc, Mapping.fromHandleSafe c = some mc → stays m mc

theorem Over.loop {fine : Nat → Prop} (keeps : Keeps runtime fn invariant stays)
    (maxDepth : Nat) (ofFine : Fine rt stays fine) (visits : Nat)
    (walks : Over runtime invariant rt queue w)
    (all : ∀ h ∈ queue, rt.scheduled h = true ∧ fine h) :
    Yields fn invariant
      (whileOption (fun w => !w.todo.isEmpty) (Walk.visit runtime maxDepth fn) visits w)
      (Over runtime invariant rt (search rt.children maxDepth visits queue)) := by
  induction visits generalizing queue w with
  | zero => exact .pure walks
  | succ visits ih =>
      rw [whileOption]
      cases queue with
      | nil =>
          have empty : w.todo.isEmpty = true := (Queue.isEmpty_iff walks.holds).mpr walks.elements
          rw [empty]
          exact .pure walks
      | cons h rest =>
          have notEmpty : w.todo.isEmpty = false := by
            rw [← Bool.not_eq_true, Queue.isEmpty_iff walks.holds, walks.elements]
            simp
          rcases all h List.mem_cons_self with ⟨live, isFine⟩
          rcases Runtime.scheduled_iff.mp live with ⟨m, object, _⟩
          have next := ofFine.closed h m isFine live object
          have visited := walks.visit keeps maxDepth (ofFine.sized h isFine live) live object
            fun c child => (next c child).2
          rw [notEmpty, Bool.not_false, if_pos rfl]
          refine visited.bind fun w' walks' => ih walks' fun c member => ?_
          rcases List.mem_append.mp member with old | new
          · exact all c (List.mem_cons_of_mem _ old)
          · have child := List.mem_of_mem_take new
            exact ⟨(List.mem_filter.mp child).2, (next c child).1⟩

theorem MakesQueue.capacity {undefined : Nat → Nat} {maxDepth : Nat}
    (makes : MakesQueue undefined maxDepth) :
    (Queue.create (T := Nat) undefined maxDepth).capacity =
      2 ^ (Queue.create (T := Nat) undefined maxDepth).capacity.log2 := by
  rcases makes with ⟨scale, equal⟩
  have capacity : (Queue.create (T := Nat) undefined maxDepth).capacity = 2 ^ scale := equal
  rw [capacity, Nat.log2_two_pow]

/-- The function succeeds and leaves the runtime alone, as `addPage` does. -/
def Watches (runtime : State → Runtime) (fn : Nat → State → Option State) : Prop :=
  ∀ m s, ∃ s', fn m s = some s' ∧ runtime s' = runtime s

theorem Watches.keeps (watches : Watches runtime fn) :
    Keeps runtime fn (fun _ => True) (fun _ _ => True) where
  call s _ m s' _ _ _ called := by
    rcases watches m s with ⟨after, found, same⟩
    obtain rfl := Option.some.inj (found.symm.trans called)
    refine ⟨trivial, ?_, fun other _ => ?_⟩
    · rw [same]
      exact Runtime.SameGraph.refl _
    · rw [same]
      exact Runtime.SamePlace.refl _ _

end Walk

end Alaska
