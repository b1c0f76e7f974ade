import Alaska.Runtime.ThreadCache

/-!
# Clients of the runtime

The operations of a program that uses the runtime, as one step each, and what they mean to
the client: `Objects` is a map from client pointers to byte strings, where a byte the
client never wrote is unknown. `ClientState.next` runs the runtime and the map side by
side, as long as the client keeps to live objects and to the sizes it asked for.
-/

namespace Alaska

open Memory

/-- An object as the client knows it. -/
structure Object where
  size : Nat
  data : Nat → Option UInt8

/-- The live objects by the pointer the client holds. -/
abbrev Objects := Nat → Option Object

/-- One operation; `address` is where `mmap` would put a huge object. -/
inductive RuntimeOp where
  | newThreadcache
  | halloc (tid size : Nat) (zero : Bool) (address : Nat)
  | hfree (tid handle : Nat)
  | hrealloc (tid handle newSize address : Nat)
  | localize (tid m epoch : Nat)
  | compact (n : Nat)
  | jumble (n : Nat)
  | setPinned (handle : Nat) (pinned : Bool)
  | write (handle offset : Nat) (value : UInt8)

namespace Objects

def insert (objects : Objects) (p : Nat) (object : Object) : Objects :=
  Function.update objects p (some object)

def remove (objects : Objects) (p : Nat) : Objects := Function.update objects p none

theorem insert_eq_some {objects : Objects} {p q : Nat} {object other : Object} :
    objects.insert p object q = some other ↔
      q = p ∧ other = object ∨ q ≠ p ∧ objects q = some other := by
  by_cases equal : q = p
  · subst equal
    simp only [insert, Function.update_self, Option.some.injEq, ne_eq, not_true_eq_false,
      false_and, or_false, true_and]
    exact eq_comm
  · simp [insert, equal]

@[simp]
theorem insert_self (objects : Objects) (p : Nat) (object : Object) :
    objects.insert p object p = some object :=
  Function.update_self _ _ _

theorem remove_eq_some {objects : Objects} {p q : Nat} {object : Object} :
    objects.remove p q = some object ↔ q ≠ p ∧ objects q = some object := by
  by_cases equal : q = p
  · subst equal
    simp [remove]
  · simp [remove, equal]

@[simp]
theorem remove_self (objects : Objects) (p : Nat) : objects.remove p p = none :=
  Function.update_self _ _ _

theorem exists_insert {objects : Objects} {p q : Nat} {object : Object} :
    (∃ other, objects.insert p object q = some other) ↔
      q = p ∨ ∃ other, objects q = some other := by
  by_cases equal : q = p
  · simp [insert, equal]
  · simp [insert, equal]

theorem exists_remove {objects : Objects} {p q : Nat} :
    (∃ other, objects.remove p q = some other) ↔ q ≠ p ∧ ∃ other, objects q = some other := by
  by_cases equal : q = p
  · simp [remove, equal]
  · simp [remove, equal]

theorem remove_insert {objects : Objects} {p q : Nat} {object : Object} (ne : q ≠ p) :
    (objects.insert q object).remove p = (objects.remove p).insert q object :=
  Function.update_comm ne _ _ _

/-- The object after `hrealloc`: the common prefix is kept. -/
def resize (object : Object) (newSize : Nat) : Object where
  size := newSize
  data := fun index => if index < min object.size newSize then object.data index else none

/-- A size that fits the `size_t` of the interface. -/
def ValidSize (size : Nat) : Prop := 0 < size ∧ size < 2 ^ 64

instance (size : Nat) : Decidable (ValidSize size) := inferInstanceAs (Decidable (_ ∧ _))

/--
The abstract step for an operation that returned `result`; `none` when the client breaks
the contract of the interface.
-/
def step (objects : Objects) (op : RuntimeOp) (result : Nat) : Option Objects :=
  match op with
  | .newThreadcache => some objects
  | .halloc _ size zero _ =>
      if ValidSize size then
        some (objects.insert result ⟨size, fun _ => if zero then some 0 else none⟩)
      else
        none
  | .hfree _ handle => (objects handle).map fun _ => objects.remove handle
  | .hrealloc _ handle newSize _ =>
      if ValidSize newSize then
        (objects handle).map fun object =>
          (objects.remove handle).insert result (resize object newSize)
      else
        none
  | .localize _ _ _ => some objects
  | .compact _ => some objects
  | .jumble _ => some objects
  | .setPinned handle _ => (objects handle).map fun _ => objects
  | .write handle offset value =>
      (objects handle).bind fun object =>
        if offset < object.size then
          some (objects.insert handle
            { object with data := Function.update object.data offset (some value) })
        else
          none

end Objects

namespace Runtime

/-- The address a client pointer stands for. -/
def backing (rt : Runtime) (p : Nat) : Nat :=
  match Mapping.fromHandleSafe p with
  | none => p
  | some m => (rt.store.mappings m).getPointer

/-- `set_pinned` on the mapping of a handle; a huge pointer has none. -/
def setPinned (rt : Runtime) (p : Nat) (pinned : Bool) : Runtime :=
  match Mapping.fromHandleSafe p with
  | none => rt
  | some m => { rt with store := rt.store.setPinned m pinned }

/-- The program stores one byte at `offset` of the object of `p`. -/
def storeByte (rt : Runtime) (p offset : Nat) (value : UInt8) : Runtime :=
  rt.setBytes (Function.update rt.store.bytes (rt.backing p + offset) value)

/-- Runs `operation` on a thread cache that exists. -/
def onCache {α : Type} (rt : Runtime) (tid : Nat) (operation : Option α) : Option α :=
  if tid < rt.cacheCount then operation else none

/-- The effect of an operation, with the pointer it returns or null. -/
def perform (rt : Runtime) : RuntimeOp → Option (Nat × Runtime)
  | .newThreadcache => some (0, rt.newThreadcache)
  | .halloc tid size zero address => rt.onCache tid (rt.halloc tid size zero address)
  | .hfree tid handle => rt.onCache tid ((rt.hfree tid handle).map (0, ·))
  | .hrealloc tid handle newSize address =>
      rt.onCache tid (rt.hrealloc tid handle newSize address)
  | .localize tid m epoch => rt.onCache tid ((rt.localize tid m epoch).map fun r => (0, r.2))
  | .compact n => if n < rt.heap.allocCount then (rt.compactPage n).map (0, ·) else none
  | .jumble n => if n < rt.heap.allocCount then (rt.jumblePage n).map (0, ·) else none
  | .setPinned handle pinned => some (0, rt.setPinned handle pinned)
  | .write handle offset value => some (0, rt.storeByte handle offset value)

end Runtime

/-- The runtime beside the map it is to represent. -/
structure ClientState where
  runtime : Runtime
  objects : Objects

namespace ClientState

/-- A fresh runtime whose heap is at `heapStart`, without objects. -/
def initial (heapStart : Nat) : ClientState := ⟨Runtime.create heapStart, fun _ => none⟩

def next (s : ClientState) (op : RuntimeOp) : Option ClientState := do
  let (result, runtime) ← s.runtime.perform op
  let objects ← s.objects.step op result
  some ⟨runtime, objects⟩

end ClientState

end Alaska
