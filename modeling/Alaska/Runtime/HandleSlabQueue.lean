import Alaska.Lib.DoublyLinked
import Alaska.Lib.Run

/-!
# Queues of handle slabs

`HandleSlabQueue` of `HandleTable.cpp`: a queue is two pointers, and the slabs in it are
linked through fields of their own. The fields are kept as functions from slabs and from
queues, and a slab or a queue is identified by a number. There may be any number of queues
over the same slabs.
-/

namespace Alaska

/-- The fields of the slabs that queues use, and the fields of the queues; null is `none`. -/
structure SlabQueues where
  next : Nat → Option Nat
  prev : Nat → Option Nat
  currentQueue : Nat → Option Nat
  head : Nat → Option Nat
  tail : Nat → Option Nat

namespace SlabQueues

/-- Slabs that have just been constructed, and empty queues. -/
def initial : SlabQueues :=
  ⟨fun _ => none, fun _ => none, fun _ => none, fun _ => none, fun _ => none⟩

/-- `push`; `none` is the dereference of a null tail. -/
def push (s : SlabQueues) (queue slab : Nat) : Option SlabQueues :=
  let s := { s with currentQueue := Function.update s.currentQueue slab (some queue) }
  if s.head queue = none ∧ s.tail queue = none then
    some { s with
      head := Function.update s.head queue (some slab)
      tail := Function.update s.tail queue (some slab) }
  else
    (s.tail queue).map fun last =>
      { s with
        next := Function.update s.next last (some slab)
        prev := Function.update s.prev slab (some last)
        tail := Function.update s.tail queue (some slab) }

/-- The last lines of `pop` and `remove`. -/
def forget (s : SlabQueues) (slab : Nat) : SlabQueues :=
  { s with
    next := Function.update s.next slab none
    prev := Function.update s.prev slab none
    currentQueue := Function.update s.currentQueue slab none }

def pop (s : SlabQueues) (queue : Nat) : Option Nat × SlabQueues :=
  match s.head queue with
  | none => (none, s)
  | some slab =>
      let s := { s with head := Function.update s.head queue (s.next slab) }
      let s :=
        match s.head queue with
        | some first => { s with prev := Function.update s.prev first none }
        | none => { s with tail := Function.update s.tail queue none }
      (some slab, s.forget slab)

def remove (s : SlabQueues) (queue slab : Nat) : SlabQueues :=
  let s :=
    match s.prev slab with
    | some before => { s with next := Function.update s.next before (s.next slab) }
    | none => { s with head := Function.update s.head queue (s.next slab) }
  let s :=
    match s.next slab with
    | some after => { s with prev := Function.update s.prev after (s.prev slab) }
    | none => { s with tail := Function.update s.tail queue (s.prev slab) }
  s.forget slab

/-! ## What the queues stand for -/

/-- Every queue as a list, the slab to be popped next first. -/
abbrev QueueLists := Nat → List Nat

/-- The queues are the lists, in both directions, and a slab knows the queue it is in. -/
structure Represents (s : SlabQueues) (lists : QueueLists) : Prop where
  describes : ∀ queue,
    DoublyLinked.Describes s.next s.prev (s.head queue) (s.tail queue) (lists queue)
  member : ∀ slab queue, s.currentQueue slab = some queue ↔ slab ∈ lists queue
  idle : ∀ slab, s.currentQueue slab = none → s.next slab = none ∧ s.prev slab = none

variable {s s' : SlabQueues} {lists : QueueLists} {queue other slab : Nat} {before after : List Nat}

namespace Represents

theorem initial : SlabQueues.initial.Represents fun _ => [] where
  describes _ := .nil
  member := by simp [SlabQueues.initial]
  idle _ _ := ⟨rfl, rfl⟩

/-- A slab is in one queue at most. -/
theorem notMem_other (represents : s.Represents lists) (inQueue : slab ∈ lists queue)
    (ne : other ≠ queue) : slab ∉ lists other := by
  intro inOther
  rw [← represents.member] at inQueue inOther
  exact ne (Option.some.inj (inOther.symm.trans inQueue))

/-- The links of a slab lead to slabs of the same queue. -/
theorem neighbors (represents : s.Represents lists) (split : lists queue = before ++ slab :: after) :
    s.prev slab = before.getLast? ∧ s.next slab = after.head? := by
  have describes := represents.describes queue
  rw [split] at describes
  exact ⟨describes.prev_eq, describes.next_eq⟩

/-- What `push` writes. -/
theorem push_fields (represents : s.Represents lists) (idle : s.prev slab = none) (queue : Nat) :
    ∃ s', s.push queue slab = some s' ∧
      s'.currentQueue = Function.update s.currentQueue slab (some queue) ∧
      s'.head = Function.update s.head queue
        (if lists queue = [] then some slab else s.head queue) ∧
      s'.tail = Function.update s.tail queue (some slab) ∧
      (∀ x, s'.next x = if s.tail queue = some x then some slab else s.next x) ∧
      ∀ x, s'.prev x = if x = slab then s.tail queue else s.prev x := by
  have isHead := (represents.describes queue).head_eq
  have isTail := (represents.describes queue).tail_eq
  cases atTail : s.tail queue with
  | none =>
      have empty : lists queue = [] := List.getLast?_eq_none_iff.mp (isTail.symm.trans atTail)
      rw [empty, List.head?_nil] at isHead
      refine ⟨{ s with
        currentQueue := Function.update s.currentQueue slab (some queue)
        head := Function.update s.head queue (some slab)
        tail := Function.update s.tail queue (some slab) }, ?_, rfl, ?_, rfl, ?_, ?_⟩
      · simp [SlabQueues.push, isHead, atTail]
      · rw [if_pos empty]
      · simp
      · intro x
        split
        · next same => rw [same, idle]
        · rfl
  | some last =>
      have nonempty : lists queue ≠ [] := by
        intro empty
        rw [isTail, empty] at atTail
        exact nomatch atTail
      refine ⟨{ s with
        next := Function.update s.next last (some slab)
        prev := Function.update s.prev slab (some last)
        currentQueue := Function.update s.currentQueue slab (some queue)
        tail := Function.update s.tail queue (some slab) }, ?_, rfl, ?_, rfl, ?_, ?_⟩
      · simp [SlabQueues.push, atTail]
      · rw [if_neg nonempty, Function.update_eq_self]
      · simp [Function.update_apply, eq_comm]
      · simp [Function.update_apply]

/-- `push` of a slab in no queue puts it behind the others. -/
theorem push (represents : s.Represents lists) (fresh : ∀ queue, slab ∉ lists queue)
    (queue : Nat) : ∃ s', s.push queue slab = some s' ∧
      s'.Represents (Function.update lists queue (lists queue ++ [slab])) := by
  have out : s.currentQueue slab = none := by
    by_contra present
    rcases Option.ne_none_iff_exists'.mp present with ⟨other, isIn⟩
    exact fresh other ((represents.member slab other).mp isIn)
  have idle := represents.idle slab out
  have describes := represents.describes queue
  have isTail := describes.tail_eq
  rcases represents.push_fields idle.2 queue with
    ⟨s', result, currentQueue, head, tail, next, prev⟩
  -- the last slab of the queue is in no other queue
  have inQueue : ∀ x, s.tail queue = some x → x ∈ lists queue := by
    intro x isLast
    rw [isTail] at isLast
    exact List.mem_of_getLast? isLast
  refine ⟨s', result, ?_, ?_, ?_⟩
  · intro other
    by_cases same : other = queue
    · subst same
      rw [Function.update_self, head, tail, Function.update_self, Function.update_self]
      refine describes.concat (fresh other) ?_ ?_ ?_ ?_ ?_
      · intro x _ notLast
        rw [next, if_neg notLast]
      · intro x isLast
        rw [next, if_pos isLast]
      · intro x member
        rw [prev, if_neg]
        rintro rfl
        exact fresh other member
      · rw [next, if_neg, idle.1]
        intro isLast
        exact fresh other (inQueue slab isLast)
      · rw [prev, if_pos rfl]
    · rw [Function.update_of_ne same, head, tail, Function.update_of_ne same,
        Function.update_of_ne same]
      refine (represents.describes other).congr (fun x member => ?_) fun x member => ?_
      · rw [next, if_neg]
        intro isLast
        exact represents.notMem_other (inQueue x isLast) same member
      · rw [prev, if_neg]
        rintro rfl
        exact fresh other member
  · intro x other
    rw [currentQueue]
    by_cases sameSlab : x = slab
    · subst sameSlab
      rw [Function.update_self, Option.some.injEq]
      constructor
      · rintro rfl
        simp
      · intro member
        by_contra ne
        rw [Function.update_of_ne (Ne.symm ne)] at member
        exact fresh other member
    · rw [Function.update_of_ne sameSlab, represents.member]
      by_cases same : other = queue
      · subst same
        simp [sameSlab]
      · rw [Function.update_of_ne same]
  · intro x isOut
    rw [currentQueue] at isOut
    have notSlab : x ≠ slab := by
      rintro rfl
      simp at isOut
    rw [Function.update_of_ne notSlab] at isOut
    have links := represents.idle x isOut
    rw [next, prev, if_neg notSlab, if_neg]
    · exact links
    · intro isLast
      have isIn := (represents.member x queue).mpr (inQueue x isLast)
      rw [isOut] at isIn
      exact nomatch isIn

/-- What `remove` writes. -/
theorem remove_fields (represents : s.Represents lists) (inQueue : slab ∈ lists queue) :
    (s.remove queue slab).head = Function.update s.head queue
        (if s.prev slab = none then s.next slab else s.head queue) ∧
      (s.remove queue slab).tail = Function.update s.tail queue
        (if s.next slab = none then s.prev slab else s.tail queue) ∧
      (∀ x, (s.remove queue slab).next x =
        if x = slab then none else if s.prev slab = some x then s.next slab else s.next x) ∧
      (∀ x, (s.remove queue slab).prev x =
        if x = slab then none else if s.next slab = some x then s.prev slab else s.prev x) ∧
      (s.remove queue slab).currentQueue = Function.update s.currentQueue slab none := by
  rcases List.append_of_mem inQueue with ⟨before, after, split⟩
  have nodup := (represents.describes queue).nodup
  rw [split, List.nodup_append, List.nodup_cons] at nodup
  rcases represents.neighbors split with ⟨isPrev, isNext⟩
  have notPrev : s.prev slab ≠ some slab := by
    rw [isPrev]
    intro same
    exact nodup.2.2 slab (List.mem_of_getLast? same) slab List.mem_cons_self rfl
  have notNext : s.next slab ≠ some slab := by
    rw [isNext]
    intro same
    exact nodup.2.1.1 (List.mem_of_head? same)
  cases atPrev : s.prev slab with
  | none =>
      cases atNext : s.next slab with
      | none =>
          simp only [SlabQueues.remove, forget, atPrev, atNext]
          simp [Function.update_apply]
      | some next =>
          simp only [SlabQueues.remove, forget, atPrev, atNext]
          simp [Function.update_apply, eq_comm]
  | some prev =>
      have other : slab ≠ prev := by
        rintro rfl
        exact notPrev atPrev
      cases atNext : s.next slab with
      | none =>
          simp only [SlabQueues.remove, forget, atPrev, atNext, Function.update_of_ne other]
          simp [Function.update_apply, eq_comm]
      | some next =>
          simp only [SlabQueues.remove, forget, atPrev, atNext, Function.update_of_ne other]
          simp [Function.update_apply, eq_comm]

/-- `remove` takes a slab out of its queue, wherever it is. -/
theorem remove (represents : s.Represents lists) (inQueue : slab ∈ lists queue) :
    (s.remove queue slab).Represents
      (Function.update lists queue ((lists queue).erase slab)) := by
  rcases represents.remove_fields inQueue with ⟨head, tail, next, prev, currentQueue⟩
  rcases List.append_of_mem inQueue with ⟨before, after, split⟩
  have describes := represents.describes queue
  rw [split] at describes
  have nodup := describes.nodup
  rw [List.nodup_append, List.nodup_cons] at nodup
  have notBefore : slab ∉ before := fun member =>
    nodup.2.2 slab member slab List.mem_cons_self rfl
  have erased : (lists queue).erase slab = before ++ after := by
    rw [split, List.erase_append_right _ notBefore, List.erase_cons_head]
  have missing : slab ∉ before ++ after := by
    rw [List.mem_append, not_or]
    exact ⟨notBefore, nodup.2.1.1⟩
  rcases represents.neighbors split with ⟨isPrev, isNext⟩
  have prevMem : ∀ x, s.prev slab = some x → x ∈ lists queue := by
    intro x isX
    rw [split]
    exact List.mem_append_left _ (List.mem_of_getLast? (isPrev ▸ isX))
  have nextMem : ∀ x, s.next slab = some x → x ∈ lists queue := by
    intro x isX
    rw [split]
    exact List.mem_append_right _ (List.mem_cons_of_mem _ (List.mem_of_head? (isNext ▸ isX)))
  refine ⟨?_, ?_, ?_⟩
  · intro other
    by_cases same : other = queue
    · subst same
      rw [Function.update_self, head, tail, Function.update_self, Function.update_self, erased]
      have ne : ∀ x ∈ before ++ after, x ≠ slab := by
        rintro x member rfl
        exact missing member
      refine describes.remove ?_ ?_ ?_ ?_
      · intro x member notPrev
        rw [next, if_neg (ne x member), if_neg notPrev]
      · intro x member notNext
        rw [prev, if_neg (ne x member), if_neg notNext]
      · intro x isX
        have member := List.mem_append_left after (List.mem_of_getLast? (isPrev ▸ isX))
        rw [next, if_neg (ne x member), if_pos isX]
      · intro x isX
        have member := List.mem_append_right before (List.mem_of_head? (isNext ▸ isX))
        rw [prev, if_neg (ne x member), if_pos isX]
    · rw [Function.update_of_ne same, head, tail, Function.update_of_ne same,
        Function.update_of_ne same]
      refine (represents.describes other).congr (fun x member => ?_) fun x member => ?_
      · rw [next, if_neg, if_neg]
        · exact fun isX => represents.notMem_other (prevMem x isX) same member
        · rintro rfl
          exact represents.notMem_other inQueue same member
      · rw [prev, if_neg, if_neg]
        · exact fun isX => represents.notMem_other (nextMem x isX) same member
        · rintro rfl
          exact represents.notMem_other inQueue same member
  · intro x other
    rw [currentQueue]
    by_cases sameSlab : x = slab
    · subst sameSlab
      rw [Function.update_self]
      refine iff_of_false (fun isIn => nomatch isIn) ?_
      by_cases same : other = queue
      · rw [same, Function.update_self, erased]
        exact missing
      · rw [Function.update_of_ne same]
        exact represents.notMem_other inQueue same
    · rw [Function.update_of_ne sameSlab, represents.member]
      by_cases same : other = queue
      · rw [same, Function.update_self, List.mem_erase_of_ne sameSlab]
      · rw [Function.update_of_ne same]
  · intro x isOut
    rw [currentQueue] at isOut
    rw [next, prev]
    by_cases sameSlab : x = slab
    · rw [if_pos sameSlab, if_pos sameSlab]
      exact ⟨rfl, rfl⟩
    · rw [Function.update_of_ne sameSlab] at isOut
      have notIn : ∀ {y}, y ∈ lists queue → x ≠ y := by
        rintro y member rfl
        have isIn := (represents.member x queue).mpr member
        rw [isOut] at isIn
        exact nomatch isIn
      rw [if_neg sameSlab, if_neg sameSlab, if_neg, if_neg]
      · exact represents.idle x isOut
      · exact fun isX => notIn (nextMem x isX) rfl
      · exact fun isX => notIn (prevMem x isX) rfl

/-- `pop` is `remove` of the oldest slab. -/
theorem pop_eq (represents : s.Represents lists) (queue : Nat) :
    s.pop queue = ((lists queue).head?, ((lists queue).head?.map (s.remove queue)).getD s) := by
  have isHead := (represents.describes queue).head_eq
  rw [SlabQueues.pop, isHead]
  cases entries : lists queue with
  | nil => rfl
  | cons slab after =>
      have split : lists queue = [] ++ slab :: after := entries
      rcases represents.neighbors split with ⟨isPrev, isNext⟩
      rw [List.getLast?_nil] at isPrev
      simp only [List.head?_cons, Option.map_some, Option.getD_some, SlabQueues.remove, isPrev,
        Function.update_self]

/-- `pop` takes the oldest slab out. -/
theorem pop (represents : s.Represents lists) (queue : Nat) :
    (s.pop queue).1 = (lists queue).head? ∧
      (s.pop queue).2.Represents (Function.update lists queue (lists queue).tail) := by
  rw [represents.pop_eq queue]
  refine ⟨rfl, ?_⟩
  cases entries : lists queue with
  | nil =>
      rw [List.tail_nil, ← entries, Function.update_eq_self, entries]
      exact represents
  | cons slab after =>
      have first : slab ∈ lists queue := by simp [entries]
      have removed := represents.remove first
      rw [entries, List.erase_cons_head] at removed
      exact removed

end Represents

/-! ## Sequences of operations -/

inductive SlabOp
  | push (queue slab : Nat)
  | pop (queue : Nat)
  | remove (queue slab : Nat)
  deriving DecidableEq, Repr

/-- What an operation returns and leaves; `push` and `remove` return nothing. -/
def apply (s : SlabQueues) : SlabOp → Option (Option Nat × SlabQueues)
  | .push queue slab => (s.push queue slab).map fun s => (none, s)
  | .pop queue => some (s.pop queue)
  | .remove queue slab => some (none, s.remove queue slab)

/-- The steps of the code, labelled by an operation and what it returned. -/
def Step (s : SlabQueues) (label : SlabOp × Option Nat) (s' : SlabQueues) : Prop :=
  s.apply label.1 = some (label.2, s')

/--
First in, first out, except that any member may be removed. Only a slab that is in no queue
may be pushed, and only a member may be removed.
-/
inductive QueueLists.Step (lists : QueueLists) : SlabOp × Option Nat → QueueLists → Prop where
  | push {queue slab : Nat} (fresh : ∀ other, slab ∉ lists other) :
      Step lists (.push queue slab, none)
        (Function.update lists queue (lists queue ++ [slab]))
  | pop {queue : Nat} :
      Step lists (.pop queue, (lists queue).head?)
        (Function.update lists queue (lists queue).tail)
  | remove {queue slab : Nat} (inQueue : slab ∈ lists queue) :
      Step lists (.remove queue slab, none)
        (Function.update lists queue ((lists queue).erase slab))

/-- The code matches every step of the lists. -/
theorem Represents.step (represents : s.Represents lists) {label : SlabOp × Option Nat}
    {lists' : QueueLists} (step : QueueLists.Step lists label lists') :
    ∃ s', s.Step label s' ∧ s'.Represents lists' := by
  cases step with
  | @push queue slab fresh =>
      rcases represents.push fresh queue with ⟨s', result, represents'⟩
      refine ⟨s', ?_, represents'⟩
      simp [SlabQueues.Step, apply, result]
  | @pop queue =>
      rcases represents.pop queue with ⟨result, represents'⟩
      refine ⟨(s.pop queue).2, ?_, represents'⟩
      rw [SlabQueues.Step, apply, ← result]
  | @remove queue slab inQueue => exact ⟨s.remove queue slab, rfl, represents.remove inQueue⟩

/--
Over every sequence of operations on the lists, the code returns what the lists return, and
its links, heads, tails and queue fields describe the lists.
-/
theorem refines_lists {labels : List (SlabOp × Option Nat)}
    (run : Lts.Run QueueLists.Step (fun _ => []) labels lists) :
    ∃ s, Lts.Run SlabQueues.Step initial labels s ∧ s.Represents lists := by
  refine run.simulate Represents ?_ .initial
  intro s lists label lists' represents step
  exact represents.step step

/-- Three slabs are pushed, the second one is removed, and the first one is popped. -/
theorem refines_lists_removed : ∃ lists s,
    Lts.Run SlabQueues.Step initial
      [(.push 0 1, none), (.push 0 2, none), (.push 0 3, none), (.remove 0 2, none),
        (.pop 0, some 1)] s ∧ s.Represents lists ∧ lists 0 = [3] := by
  have run : Lts.Run QueueLists.Step (fun _ => [])
      [(.push 0 1, none), (.push 0 2, none), (.push 0 3, none), (.remove 0 2, none),
        (.pop 0, some 1)] _ :=
    .cons (.push (by simp)) (.cons (.push (by rintro (_ | other) <;> simp))
      (.cons (.push (by rintro (_ | other) <;> simp)) (.cons (.remove (by simp))
        (.cons .pop (.nil _)))))
  rcases refines_lists run with ⟨s, performed, represents⟩
  exact ⟨_, s, performed, represents, by simp⟩

end SlabQueues

end Alaska
