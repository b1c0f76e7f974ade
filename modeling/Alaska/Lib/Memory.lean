import Mathlib.Algebra.Group.Nat.Defs
import Mathlib.Data.Nat.Basic
import Mathlib.Logic.Function.Basic

/-!
# Byte memory and intrusive lists

A memory is a function from addresses to cells. `Bytes` is the memory of bytes, with
the block operations of the C library. A free block stores the address of the next free
block in its own first eight bytes; `LinkCells` is what a memory must provide for that,
and `IsList` says that the blocks reachable from a head pointer are a given list.
-/

namespace Memory

universe u

/-- A memory in which an eight-byte block can hold the address of another block. -/
class LinkCells (Cell : Type u) where
  /-- Reads the link stored in the block at an address. -/
  next : (Nat → Cell) → Nat → Nat
  /-- Stores a link in the block at an address. -/
  setNext : (Nat → Cell) → Nat → Nat → Nat → Cell
  next_setNext : ∀ (mem : Nat → Cell) (block link : Nat),
    link < 2 ^ 64 → next (setNext mem block link) block = link
  setNext_apply : ∀ (mem : Nat → Cell) (block link address : Nat),
    address < block ∨ block + 8 ≤ address → setNext mem block link address = mem address
  next_congr : ∀ (mem mem' : Nat → Cell) (block : Nat),
    (∀ address, block ≤ address → address < block + 8 → mem address = mem' address) →
      next mem block = next mem' block

open LinkCells

variable {Cell : Type u} [LinkCells Cell]

/-- The eight bytes of the two blocks do not overlap. -/
def Apart (left right : Nat) : Prop :=
  left + 8 ≤ right ∨ right + 8 ≤ left

theorem next_setNext_of_apart {mem : Nat → Cell} {block other link : Nat}
    (apart : Apart block other) : next (setNext mem block link) other = next mem other := by
  apply next_congr
  intro address lower upper
  apply setNext_apply
  unfold Apart at apart
  omega

/-- `IsList mem head blocks`: following links from `head` visits exactly `blocks`. -/
def IsList (mem : Nat → Cell) : Nat → List Nat → Prop
  | head, [] => head = 0
  | head, block :: blocks => head = block ∧ block ≠ 0 ∧ IsList mem (next mem block) blocks

namespace IsList

variable {mem mem' : Nat → Cell} {head : Nat} {blocks : List Nat}

@[simp]
theorem nil_iff : IsList mem head [] ↔ head = 0 :=
  Iff.rfl

@[simp]
theorem zero_iff : IsList mem 0 blocks ↔ blocks = [] := by
  cases blocks with
  | nil => simp
  | cons block blocks =>
      simp only [IsList, List.cons_ne_nil, iff_false]
      rintro ⟨equal, nonzero, _⟩
      exact nonzero equal.symm

/-- A non-null head is the first block of the list. -/
theorem cons_of_ne_zero (list : IsList mem head blocks) (nonzero : head ≠ 0) :
    ∃ rest, blocks = head :: rest ∧ IsList mem (next mem head) rest := by
  cases blocks with
  | nil => exact absurd list nonzero
  | cons block rest =>
      rcases list with ⟨rfl, _, tail⟩
      exact ⟨rest, rfl, tail⟩

/-- A list only depends on the links of its own blocks. -/
theorem congr (list : IsList mem head blocks)
    (same : ∀ block ∈ blocks, next mem' block = next mem block) : IsList mem' head blocks := by
  induction blocks generalizing head with
  | nil => exact list
  | cons block blocks ih =>
      rcases list with ⟨rfl, nonzero, tail⟩
      refine ⟨rfl, nonzero, ?_⟩
      rw [same _ List.mem_cons_self]
      exact ih tail fun other member => same other (List.mem_cons_of_mem _ member)

/-- The head is null or one of the blocks. -/
theorem head_eq_zero_or_mem (list : IsList mem head blocks) : head = 0 ∨ head ∈ blocks := by
  cases blocks with
  | nil => exact Or.inl list
  | cons block blocks => exact Or.inr (by simp [list.1])

/-- Linking a new block in front of a list. -/
theorem push {block : Nat} (list : IsList mem head blocks) (nonzero : block ≠ 0)
    (small : ∀ other ∈ blocks, other < 2 ^ 64) (apart : ∀ other ∈ blocks, Apart block other) :
    IsList (setNext mem block head) block (block :: blocks) := by
  have headSmall : head < 2 ^ 64 := by
    rcases list.head_eq_zero_or_mem with rfl | member
    · decide
    · exact small head member
  refine ⟨rfl, nonzero, ?_⟩
  rw [next_setNext _ _ _ headSmall]
  exact list.congr fun other member => next_setNext_of_apart (apart other member)

end IsList

/-- The memory of bytes. -/
abbrev Bytes := Nat → UInt8

namespace Bytes

/-- `memset(destination, value, size)`. -/
def memset (mem : Bytes) (destination : Nat) (value : UInt8) (size : Nat) : Bytes :=
  fun address => if destination ≤ address ∧ address < destination + size then value else mem address

/-- `memmove(destination, source, size)`; `memcpy` when the two do not overlap. -/
def memmove (mem : Bytes) (destination source size : Nat) : Bytes :=
  fun address =>
    if destination ≤ address ∧ address < destination + size then
      mem (source + (address - destination))
    else
      mem address

/-- Copies a buffer of its own to `destination`. -/
def write (mem : Bytes) (destination : Nat) (buffer : Nat → UInt8) (size : Nat) : Bytes :=
  fun address =>
    if destination ≤ address ∧ address < destination + size then
      buffer (address - destination)
    else
      mem address

/-- Reads eight bytes, least significant first. -/
def load64 (mem : Bytes) (address : Nat) : Nat :=
  (List.range 8).foldr (fun index rest => (mem (address + index)).toNat + 256 * rest) 0

/-- Writes eight bytes, least significant first. -/
def store64 (mem : Bytes) (destination value : Nat) : Bytes :=
  fun address =>
    if destination ≤ address ∧ address < destination + 8 then
      UInt8.ofNat (value / 256 ^ (address - destination))
    else
      mem address

variable {mem mem' : Bytes} {destination source size address : Nat} {value : UInt8}

@[simp]
theorem memset_inside (lower : destination ≤ address) (upper : address < destination + size) :
    memset mem destination value size address = value := by
  simp [memset, lower, upper]

@[simp]
theorem memset_outside (outside : address < destination ∨ destination + size ≤ address) :
    memset mem destination value size address = mem address := by
  simp only [memset]
  rw [if_neg (by omega)]

@[simp]
theorem memmove_inside (lower : destination ≤ address) (upper : address < destination + size) :
    memmove mem destination source size address = mem (source + (address - destination)) := by
  simp [memmove, lower, upper]

@[simp]
theorem memmove_outside (outside : address < destination ∨ destination + size ≤ address) :
    memmove mem destination source size address = mem address := by
  simp only [memmove]
  rw [if_neg (by omega)]

@[simp]
theorem write_inside {buffer : Nat → UInt8} (lower : destination ≤ address)
    (upper : address < destination + size) :
    write mem destination buffer size address = buffer (address - destination) := by
  simp [write, lower, upper]

@[simp]
theorem write_outside {buffer : Nat → UInt8}
    (outside : address < destination ∨ destination + size ≤ address) :
    write mem destination buffer size address = mem address := by
  simp only [write]
  rw [if_neg (by omega)]

theorem load64_store64 {word : Nat} (small : word < 2 ^ 64) :
    load64 (store64 mem destination word) destination = word := by
  simp [load64, store64, List.range, List.range.loop]
  omega

theorem store64_outside {word : Nat}
    (outside : address < destination ∨ destination + 8 ≤ address) :
    store64 mem destination word address = mem address := by
  simp only [store64]
  rw [if_neg (by omega)]

/-- The same eight bytes at two addresses. -/
theorem load64_eq {address' : Nat}
    (same : ∀ index < 8, mem (address + index) = mem' (address' + index)) :
    load64 mem address = load64 mem' address' := by
  simp only [load64, List.range, List.range.loop, List.foldr]
  rw [same 0 (by decide), same 1 (by decide), same 2 (by decide), same 3 (by decide),
    same 4 (by decide), same 5 (by decide), same 6 (by decide), same 7 (by decide)]

theorem load64_congr
    (same : ∀ other, address ≤ other → other < address + 8 → mem other = mem' other) :
    load64 mem address = load64 mem' address :=
  load64_eq fun index lt => same (address + index) (by omega) (by omega)

end Bytes

instance : LinkCells UInt8 where
  next := Bytes.load64
  setNext := Bytes.store64
  next_setNext _ _ _ small := Bytes.load64_store64 small
  setNext_apply _ _ _ _ outside := Bytes.store64_outside outside
  next_congr _ _ _ same := Bytes.load64_congr same

end Memory
