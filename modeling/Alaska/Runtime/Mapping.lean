import Alaska.Lib.Memory

/-!
# Handle-table mappings

A mapping is one 64-bit word of the handle table (`alaska.hpp`). The class reads the
word in two ways, as a raw pointer and as a bit field; the structure below is the
bit field, and `ptr`/`ofPtr` are the raw view. A handle is the address of a mapping,
squeezed into the upper bits of a pointer, plus a byte offset.
-/

namespace Alaska

/-- `ALASKA_SIZE_BITS`: the width of the offset field of a handle. -/
def sizeBits : Nat := 24

/-- `ALASKA_SQUEEZE_BITS`: mappings are eight-byte aligned. -/
def squeezeBits : Nat := 3

/-- `Configuration::handle_table_location`. -/
def handleTableLocation : Nat := 2 ^ 63 / 2 ^ (sizeBits - squeezeBits)

/-- The bit-field view of a mapping word. -/
@[ext]
structure Mapping where
  misc : Nat
  pinned : Bool
  invl : Bool
  swap : Bool
  misc_lt : misc < 2 ^ 61
  deriving DecidableEq

namespace Mapping

/-- The raw view of the word. -/
def ptr (m : Mapping) : Nat :=
  m.misc + 2 ^ 61 * m.pinned.toNat + 2 ^ 62 * m.invl.toNat + 2 ^ 63 * m.swap.toNat

/-- The bit fields of a raw word. -/
def ofPtr (word : Nat) : Mapping where
  misc := word % 2 ^ 61
  pinned := word / 2 ^ 61 % 2 == 1
  invl := word / 2 ^ 62 % 2 == 1
  swap := word / 2 ^ 63 % 2 == 1
  misc_lt := Nat.mod_lt _ (by decide)

def getPointer (m : Mapping) : Nat := m.misc

def getPointerFast (m : Mapping) : Nat := m.ptr

/-- `reset`: the pointer is nulled through the union, so every bit is cleared. -/
def reset (_ : Mapping) : Mapping := { ofPtr 0 with invl := false, swap := false }

def setPointer (_ : Mapping) (pointer : Nat) : Mapping := { ofPtr pointer with invl := false }

def setNext (m : Mapping) (next : Nat) : Mapping :=
  { m.reset with misc := next % 2 ^ 61, invl := true, misc_lt := Nat.mod_lt _ (by decide) }

def isFree (m : Mapping) : Bool := m.invl

def isPinned (m : Mapping) : Bool := m.pinned

def setPinned (m : Mapping) (pin : Bool) : Mapping := { m with pinned := pin }

/-- The word of freshly mapped handle-table memory. -/
def zero : Mapping := ofPtr 0

variable {m : Mapping} {word pointer : Nat}

theorem ptr_lt (m : Mapping) : m.ptr < 2 ^ 64 := by
  have small := m.misc_lt
  have := Bool.toNat_le m.pinned
  have := Bool.toNat_le m.invl
  have := Bool.toNat_le m.swap
  simp only [ptr]
  omega

theorem ptr_ofPtr (small : word < 2 ^ 64) : (ofPtr word).ptr = word := by
  have bit : ∀ n : Nat, (n % 2 == 1).toNat = n % 2 := by
    intro n
    rcases Nat.mod_two_eq_zero_or_one n with h | h <;> simp [h]
  simp only [ptr, ofPtr, bit]
  omega

theorem getPointer_ofPtr (small : word < 2 ^ 61) : (ofPtr word).getPointer = word :=
  Nat.mod_eq_of_lt small

@[simp]
theorem getPointer_setPointer (small : pointer < 2 ^ 61) :
    (m.setPointer pointer).getPointer = pointer :=
  getPointer_ofPtr small

@[simp]
theorem isFree_setPointer : (m.setPointer pointer).isFree = false :=
  rfl

theorem isPinned_setPointer (small : pointer < 2 ^ 61) :
    (m.setPointer pointer).isPinned = false := by
  simp only [setPointer, isPinned, ofPtr, Nat.div_eq_of_lt small]
  rfl

@[simp]
theorem getPointer_setPinned {pin : Bool} : (m.setPinned pin).getPointer = m.getPointer :=
  rfl

@[simp]
theorem isPinned_setPinned {pin : Bool} : (m.setPinned pin).isPinned = pin :=
  rfl

@[simp]
theorem isFree_setPinned {pin : Bool} : (m.setPinned pin).isFree = m.isFree :=
  rfl

@[simp]
theorem isFree_setNext {next : Nat} : (m.setNext next).isFree = true :=
  rfl

/-- A mapping whose flag bits are clear is its own pointer. -/
theorem ptr_eq_getPointer (pinned : m.pinned = false) (invl : m.invl = false)
    (swap : m.swap = false) : m.ptr = m.getPointer := by
  simp [ptr, getPointer, pinned, invl, swap]

/-! ## Handles -/

/-- `Mapping::encode`, on the address of the mapping. -/
def encode (mapping : Nat) : Nat := mapping / 2 ^ squeezeBits

/-- `Mapping::to_handle`; the sum is a 64-bit sum. -/
def toHandle (mapping : Nat) (offset : Nat := 0) : Nat :=
  (encode mapping * 2 ^ sizeBits + offset) % 2 ^ 64

/-- `Mapping::handle_id`. -/
def handleId (mapping : Nat) : Nat :=
  encode mapping * 2 ^ sizeBits % 2 ^ 63 / 2 ^ sizeBits

/-- `Mapping::from_handle`. -/
def fromHandle (handle : Nat) : Nat := handle / 2 ^ (sizeBits - squeezeBits)

/-- `Mapping::is_handle`: the sign bit of the pointer. -/
def isHandle (pointer : Nat) : Bool := decide (2 ^ 63 ≤ pointer)

/-- `Mapping::from_handle_safe`; `none` is the null pointer. -/
def fromHandleSafe (pointer : Nat) : Option Nat :=
  if isHandle pointer then some (fromHandle pointer) else none

/-- The mapping addresses that a handle can name. -/
def InTable (mapping : Nat) : Prop :=
  2 ^ 42 ≤ mapping ∧ mapping < 2 ^ 43 ∧ mapping % 8 = 0

variable {mapping offset : Nat}

theorem toHandle_eq (inTable : InTable mapping) (small : offset < 2 ^ 24) :
    toHandle mapping offset = mapping * 2 ^ 21 + offset := by
  rcases inTable with ⟨lower, upper, aligned⟩
  simp only [toHandle, encode, squeezeBits, sizeBits]
  omega

theorem fromHandle_toHandle (inTable : InTable mapping) (small : offset < 2 ^ 21) :
    fromHandle (toHandle mapping offset) = mapping := by
  rw [toHandle_eq inTable (by omega)]
  simp only [fromHandle, squeezeBits, sizeBits]
  omega

theorem isHandle_toHandle (inTable : InTable mapping) (small : offset < 2 ^ 24) :
    isHandle (toHandle mapping offset) = true := by
  rw [toHandle_eq inTable small]
  rcases inTable with ⟨lower, upper, aligned⟩
  simp only [isHandle, decide_eq_true_eq]
  omega

@[simp]
theorem fromHandleSafe_toHandle (inTable : InTable mapping) :
    fromHandleSafe (toHandle mapping) = some mapping := by
  simp [fromHandleSafe, isHandle_toHandle inTable (show 0 < 2 ^ 24 by decide),
    fromHandle_toHandle inTable (show 0 < 2 ^ 21 by decide)]

/-- User addresses are no handles. -/
theorem fromHandleSafe_of_lt (small : pointer < 2 ^ 63) : fromHandleSafe pointer = none := by
  have notHandle : isHandle pointer = false := decide_eq_false (Nat.not_le.mpr small)
  simp [fromHandleSafe, notHandle]

theorem toHandle_injective {other : Nat} (left : InTable mapping) (right : InTable other)
    (equal : toHandle mapping = toHandle other) : mapping = other := by
  have := congrArg fromHandle equal
  rwa [fromHandle_toHandle left (by decide), fromHandle_toHandle right (by decide)] at this

end Mapping

/-- The memory of the handle table, by the address of the mapping. -/
abbrev Mappings := Nat → Mapping

open Memory in
/-- A free mapping holds a raw `Block *`: the free list writes the whole word. -/
instance : LinkCells Mapping where
  next mem block := (mem block).ptr
  setNext mem block link := Function.update mem block (Mapping.ofPtr link)
  next_setNext mem block link small := by simp [Mapping.ptr_ofPtr small]
  setNext_apply mem block link address outside := by
    rw [Function.update_of_ne (by omega)]
  next_congr mem mem' block same := by rw [same block le_rfl (by omega)]

end Alaska
