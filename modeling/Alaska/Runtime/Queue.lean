import Mathlib.Algebra.Group.Nat.Defs
import Mathlib.Data.List.ReduceOption
import Mathlib.Data.Nat.Basic
import Mathlib.Logic.Function.Basic

/-!
# The work queue

`ck/queue.h`: a first-in first-out queue in a ring buffer. The two indices only grow, and an
index is reduced to a slot by a mask, so the capacity has to be a power of two. The
constructor computes it by a shift of a 32-bit one, which no scale from 31 on survives.
-/

namespace Alaska

/-- `ck::queue`. -/
structure Queue (T : Type) where
  front : Nat
  back : Nat
  capacity : Nat
  backing : Nat → T

namespace Queue

variable {T : Type}

/--
`1 << scale`, the shift of a 32-bit `int` that is stored in a `size_t`: a one in the sign bit
is extended. From 32 on the shift is undefined, and `undefined` is what the build makes of it.
-/
def shiftedOne (undefined : Nat → Nat) (scale : Nat) : Nat :=
  if scale < 31 then 2 ^ scale else if scale = 31 then 2 ^ 64 - 2 ^ 31 else undefined scale

/-- The constructor. -/
def create [Inhabited T] (undefined : Nat → Nat) (initialCapScale : Nat) : Queue T where
  front := 0
  back := 0
  capacity := shiftedOne undefined initialCapScale
  backing := fun _ => default

def off (q : Queue T) (o : Nat) : Nat := o &&& (q.capacity - 1)

/-- `grow`: the elements are copied to the start of a buffer twice the size. -/
def grow [Inhabited T] (q : Queue T) : Queue T where
  front := q.front - q.back
  back := 0
  capacity := q.capacity * 2
  backing := fun count => if count < q.front - q.back then q.backing (q.off (q.back + count)) else default

def isFull (q : Queue T) : Bool := q.front - q.back == q.capacity

def isEmpty (q : Queue T) : Bool := q.front == q.back

def push [Inhabited T] (q : Queue T) (value : T) : Queue T :=
  let q := if q.isFull then q.grow else q
  { q with
    front := q.front + 1
    backing := Function.update q.backing (q.off q.front) value }

def pop (q : Queue T) : Option (T × Queue T) :=
  if q.isEmpty then none else some (q.backing (q.off q.back), { q with back := q.back + 1 })

def size (q : Queue T) : Nat := q.front - q.back

/-- The elements, the one to be popped next first. -/
def toList (q : Queue T) : List T :=
  (List.range q.size).map fun index => q.backing (q.off (q.back + index))

structure Holds (q : Queue T) : Prop where
  back_le : q.back ≤ q.front
  fits : q.size ≤ q.capacity
  power : ∃ scale, q.capacity = 2 ^ scale

variable {q : Queue T} {value : T}

@[simp]
theorem length_toList : q.toList.length = q.size := by
  simp [toList]

theorem isEmpty_iff (holds : q.Holds) : q.isEmpty = true ↔ q.toList = [] := by
  have back_le := holds.back_le
  rw [isEmpty, beq_iff_eq, ← List.length_eq_zero_iff, length_toList, size]
  omega

namespace Holds

theorem capacity_pos (holds : q.Holds) : 0 < q.capacity := by
  rcases holds.power with ⟨scale, equal⟩
  rw [equal]
  exact Nat.two_pow_pos scale

theorem off_eq (holds : q.Holds) (o : Nat) : q.off o = o % q.capacity := by
  rcases holds.power with ⟨scale, equal⟩
  rw [off, equal, Nat.and_two_pow_sub_one_eq_mod]

/-- Two indices less than the capacity apart have different slots. -/
theorem off_ne (holds : q.Holds) {low high : Nat} (lt : low < high)
    (near : high - low < q.capacity) : q.off low ≠ q.off high := by
  rw [holds.off_eq, holds.off_eq]
  intro equal
  have multiple := Nat.sub_mod_eq_zero_of_mod_eq equal.symm
  rw [Nat.mod_eq_of_lt near] at multiple
  omega

theorem create [Inhabited T] {undefined : Nat → Nat} {initialCapScale : Nat}
    (power : ∃ scale, shiftedOne undefined initialCapScale = 2 ^ scale) :
    (Queue.create (T := T) undefined initialCapScale).Holds where
  back_le := Nat.le_refl _
  fits := Nat.zero_le _
  power := power

theorem pop {first : T} {rest : List T} (holds : q.Holds) (elements : q.toList = first :: rest) :
    ∃ q', q.pop = some (first, q') ∧ q'.Holds ∧ q'.toList = rest := by
  have size_eq : q.size = rest.length + 1 := by
    rw [← length_toList, elements, List.length_cons]
  have split : q.toList = q.backing (q.off q.back) ::
      (List.range rest.length).map fun index => q.backing (q.off (q.back + 1 + index)) := by
    rw [toList, size_eq, List.range_succ_eq_map, List.map_cons, List.map_map]
    simp [Function.comp_def, Nat.add_assoc, Nat.add_comm 1]
  have notEmpty : q.isEmpty = false := by
    rw [← Bool.not_eq_true, isEmpty_iff holds, elements]
    simp
  have fits := holds.fits
  have size_eq' : q.front - (q.back + 1) = rest.length := by
    rw [size] at size_eq
    omega
  rw [elements, List.cons.injEq] at split
  refine ⟨{ q with back := q.back + 1 }, ?_, ⟨?_, ?_, holds.power⟩, ?_⟩
  · rw [Queue.pop, notEmpty, split.1]
    rfl
  · rw [size] at size_eq
    show q.back + 1 ≤ q.front
    omega
  · show q.front - (q.back + 1) ≤ q.capacity
    omega
  · rw [split.2, toList, size, size_eq']
    rfl

theorem grow [Inhabited T] (holds : q.Holds) :
    q.grow.Holds ∧ q.grow.toList = q.toList ∧ q.grow.size < q.grow.capacity := by
  have pos := holds.capacity_pos
  have fits := holds.fits
  have holds' : q.grow.Holds := by
    refine ⟨Nat.zero_le _, ?_, ?_⟩
    · show q.front - q.back - 0 ≤ q.capacity * 2
      rw [size] at fits
      omega
    · rcases holds.power with ⟨scale, equal⟩
      exact ⟨scale + 1, by rw [Queue.grow, equal, Nat.pow_succ]⟩
  refine ⟨holds', ?_, ?_⟩
  · apply List.map_congr_left
    intro index member
    have lt : index < q.front - q.back := List.mem_range.mp member
    have slot : q.grow.off (q.grow.back + index) = index := by
      rw [holds'.off_eq]
      show (0 + index) % (q.capacity * 2) = index
      rw [Nat.zero_add, Nat.mod_eq_of_lt]
      rw [size] at fits
      omega
    rw [slot]
    exact if_pos lt
  · show q.front - q.back - 0 < q.capacity * 2
    rw [size] at fits
    omega

/-- A push into a queue with a free slot. -/
theorem append (holds : q.Holds) (room : q.size < q.capacity) :
    let q' := { q with
      front := q.front + 1
      backing := Function.update q.backing (q.off q.front) value }
    q'.Holds ∧ q'.toList = q.toList ++ [value] := by
  have back_le := holds.back_le
  rw [size] at room
  refine ⟨⟨?_, ?_, holds.power⟩, ?_⟩
  · show q.back ≤ q.front + 1
    omega
  · show q.front + 1 - q.back ≤ q.capacity
    omega
  · have size_eq : q.front + 1 - q.back = q.size + 1 := by
      rw [size]
      omega
    simp only [toList]
    rw [show size { q with
      front := q.front + 1
      backing := Function.update q.backing (q.off q.front) value } = q.size + 1 from size_eq,
      List.range_succ, List.map_append, List.map_singleton]
    congr 1
    · apply List.map_congr_left
      intro index member
      have lt : index < q.front - q.back := List.mem_range.mp member
      exact Function.update_of_ne (holds.off_ne (by omega) (by omega)) _ _
    · have last : q.back + q.size = q.front := by
        rw [size]
        omega
      rw [last]
      exact congrArg (fun element => [element]) (Function.update_self _ _ _)

theorem push [Inhabited T] (holds : q.Holds) (value : T) :
    (q.push value).Holds ∧ (q.push value).toList = q.toList ++ [value] := by
  rw [Queue.push]
  cases full : q.isFull with
  | true =>
      rcases holds.grow with ⟨holds', same, room⟩
      rw [← same]
      exact holds'.append room
  | false =>
      have fits := holds.fits
      have ne : q.front - q.back ≠ q.capacity := by simpa [isFull] using full
      apply holds.append
      rw [size] at fits ⊢
      omega

end Holds

/-! ## Runs -/

/-- An operation of a client of the queue. -/
inductive Op (T : Type) where
  | push (value : T)
  | pop

/-- The queue after a sequence of operations, with what the pops returned. -/
def run [Inhabited T] (q : Queue T) : List (Op T) → List (Option T) × Queue T
  | [] => ([], q)
  | .push value :: ops => (q.push value).run ops
  | .pop :: ops =>
      match q.pop with
      | none => (none :: (q.run ops).1, (q.run ops).2)
      | some (value, q') => (some value :: (q'.run ops).1, (q'.run ops).2)

/-- A first-in first-out list after the same operations. -/
def runList : List T → List (Op T) → List (Option T) × List T
  | elements, [] => ([], elements)
  | elements, .push value :: ops => runList (elements ++ [value]) ops
  | [], .pop :: ops => (none :: (runList [] ops).1, (runList [] ops).2)
  | value :: elements, .pop :: ops =>
      (some value :: (runList elements ops).1, (runList elements ops).2)

/-- The values that are pushed, in order. -/
def pushed (ops : List (Op T)) : List T :=
  ops.filterMap fun
    | .push value => some value
    | .pop => none

/-- The popped values are the pushed ones in order, and the rest is still in the list. -/
theorem runList_pushed (elements : List T) (ops : List (Op T)) :
    (runList elements ops).1.reduceOption ++ (runList elements ops).2 = elements ++ pushed ops := by
  induction ops generalizing elements with
  | nil => simp [runList, pushed]
  | cons op ops ih =>
      cases op with
      | push value =>
          have rest : pushed (.push value :: ops) = value :: pushed ops := rfl
          rw [runList, ih, rest, List.append_assoc, List.singleton_append]
      | pop =>
          have rest : pushed (.pop :: ops) = pushed ops := rfl
          cases elements with
          | nil => rw [runList, List.reduceOption_cons_of_none, ih, rest]
          | cons value elements =>
              rw [runList, List.reduceOption_cons_of_some, List.cons_append, ih, rest]
              rfl

/-- The ring buffer runs as the list of its elements. -/
theorem Holds.run [Inhabited T] (holds : q.Holds) (ops : List (Op T)) :
    (q.run ops).1 = (runList q.toList ops).1 ∧ (q.run ops).2.Holds ∧
      (q.run ops).2.toList = (runList q.toList ops).2 := by
  induction ops generalizing q with
  | nil => exact ⟨rfl, holds, rfl⟩
  | cons op ops ih =>
      cases op with
      | push value =>
          rcases holds.push value with ⟨holds', elements⟩
          rw [Queue.run, runList, ← elements]
          exact ih holds'
      | pop =>
          cases elements : q.toList with
          | nil =>
              have missing : q.pop = none := by
                rw [Queue.pop, (isEmpty_iff holds).mpr elements]
                rfl
              rw [Queue.run, missing, runList, ← elements]
              rcases ih holds with ⟨results, after, rest⟩
              exact ⟨congrArg (none :: ·) results, after, rest⟩
          | cons first rest =>
              rcases holds.pop elements with ⟨q', popped, holds', elements'⟩
              rw [Queue.run, popped, runList, ← elements']
              rcases ih holds' with ⟨results, after, left⟩
              exact ⟨congrArg (some first :: ·) results, after, left⟩

/-- The queue that the constructor makes for a scale: first in, first out, of capacity `2 ^ scale`. -/
structure Correct (T : Type) [Inhabited T] (undefined : Nat → Nat) (scale : Nat) : Prop where
  fifo : ∀ ops : List (Op T), ((create undefined scale).run ops).1 = (runList [] ops).1 ∧
    ((create undefined scale).run ops).1.reduceOption ++
      ((create undefined scale).run ops).2.toList = pushed ops
  inRange : scale < 32
  capacity : (create (T := T) undefined scale).capacity = 2 ^ scale

/-- The constructor is correct for the scales whose power of two is a positive `int`. -/
theorem correct_iff [Inhabited T] (undefined : Nat → Nat) (scale : Nat) :
    Correct T undefined scale ↔ scale < 31 := by
  constructor
  · rintro ⟨_, inRange, capacity⟩
    by_contra large
    obtain rfl : scale = 31 := by omega
    have negative : shiftedOne undefined 31 = 2 ^ 64 - 2 ^ 31 := by
      rw [shiftedOne, if_neg (Nat.lt_irrefl 31), if_pos rfl]
    have power : shiftedOne undefined 31 = 2 ^ 31 := capacity
    rw [negative] at power
    omega
  · intro small
    have power : shiftedOne undefined scale = 2 ^ scale := if_pos small
    refine ⟨fun ops => ?_, by omega, power⟩
    rcases (Holds.create (T := T) ⟨scale, power⟩).run ops with ⟨results, _, rest⟩
    have empty : (create (T := T) undefined scale).toList = [] := rfl
    rw [empty] at results rest
    refine ⟨results, ?_⟩
    rw [results, rest]
    exact runList_pushed [] ops

/-- The shift for the depth that `get_page_count_for_structure` walks with is out of range. -/
theorem not_correct_walk : ¬ ∃ undefined, Correct Nat undefined 256 := by
  rintro ⟨undefined, correct⟩
  exact absurd correct.inRange (by decide)

end Queue

end Alaska
