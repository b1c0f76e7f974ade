import Alaska.Lib.Memory
import Mathlib.Data.List.Basic

/-!
# Huge objects

`HugeObjectAllocator.cpp` with the mmap-backed strategy: every huge object has a mapping
of its own, which starts with a header that is linked into the list `allocations`. The
headers are kept beside the bytes. Where `mmap` puts a mapping is up to the kernel, so
`allocate` takes the address.
-/

namespace Alaska

/-- A `HugeHeader`, at the address it lives at. -/
structure HugeHeader where
  address : Nat
  mappingSize : Nat
  allocationSize : Nat
  deriving DecidableEq

namespace HugeHeader

/-- `sizeof(HugeHeader)`. -/
def bytes : Nat := 32

def data (header : HugeHeader) : Nat := header.address + bytes

end HugeHeader

/-- The list `allocations`, newest first. -/
abbrev HugeObjectAllocator := List HugeHeader

namespace HugeObjectAllocator

/-- The size of the mapping for a request; all sums wrap at 64 bits. -/
def mappingSize (size : Nat) : Nat :=
  let rounded := ((size + HugeHeader.bytes) % 2 ^ 64 + 4095) % 2 ^ 64 / 4096 * 4096
  if rounded < 4096 then 4096 else rounded

/-- `allocate`, when `mmap` returns `address`. -/
def allocate (huge : HugeObjectAllocator) (size address : Nat) : Nat × HugeObjectAllocator :=
  let header : HugeHeader := ⟨address, mappingSize size, size⟩
  (header.data, header :: huge)

def findHeader (huge : HugeObjectAllocator) (ptr : Nat) : Option HugeHeader :=
  huge.find? fun header => header.data == ptr

def free (huge : HugeObjectAllocator) (ptr : Nat) : Bool × HugeObjectAllocator :=
  match huge.findHeader ptr with
  | none => (false, huge)
  | some header => (true, huge.erase header)

def sizeOf (huge : HugeObjectAllocator) (ptr : Nat) : Nat :=
  match huge.findHeader ptr with
  | none => 0
  | some header => header.allocationSize

def owns (huge : HugeObjectAllocator) (ptr : Nat) : Bool := (huge.findHeader ptr).isSome

theorem owns_iff {huge : HugeObjectAllocator} {ptr : Nat} :
    huge.owns ptr = true ↔ ∃ header ∈ huge, header.data = ptr := by
  simp [owns, findHeader, List.find?_isSome]

/-- The sums of `allocate` do not wrap. -/
def FitsMapping (size : Nat) : Prop := size + HugeHeader.bytes + 4095 < 2 ^ 64

instance (size : Nat) : Decidable (FitsMapping size) := inferInstanceAs (Decidable (_ < _))

theorem mappingSize_ge {size : Nat} (fits : FitsMapping size) :
    size + HugeHeader.bytes ≤ mappingSize size := by
  have bytes : HugeHeader.bytes = 32 := rfl
  unfold FitsMapping at fits
  unfold mappingSize
  generalize HugeHeader.bytes = b at *
  subst bytes
  dsimp only
  split <;> omega

/-- When a sum wraps, one page is mapped. -/
theorem mappingSize_of_wraps {size : Nat} (small : size < 2 ^ 64) (wraps : ¬ FitsMapping size) :
    mappingSize size = 4096 := by
  have bytes : HugeHeader.bytes = 32 := rfl
  unfold FitsMapping at wraps
  unfold mappingSize
  generalize HugeHeader.bytes = b at *
  subst bytes
  dsimp only
  split <;> omega

theorem mappingSize_pos (size : Nat) : 4096 ≤ mappingSize size := by
  unfold mappingSize
  dsimp only
  split <;> omega

/-! ## What is mapped -/

/-- The bytes that `mmap_alloc` asks the kernel for. -/
def mmapBytes (bytes : Nat) : Nat := (bytes + 4095) % 2 ^ 64 / 4096 * 4096

/-- `mmap_alloc`: the address and the length of the mapping, unless `mmap` fails. -/
def mmapAlloc (mmap : Nat → Option Nat) (bytes : Nat) : Option (Nat × Nat) :=
  (mmap (mmapBytes bytes)).map fun address => (address, mmapBytes bytes)

/-- `allocate` fails, or the header and the object it returns lie in what is mapped for them. -/
def AllocatesInside (mmap : Nat → Option Nat) (huge : HugeObjectAllocator) (size : Nat) : Prop :=
  ∀ address bytes, mmapAlloc mmap (mappingSize size) = some (address, bytes) →
    size + HugeHeader.bytes ≤ bytes ∧ address ≤ (huge.allocate size address).1 ∧
      (huge.allocate size address).1 + size ≤ address + bytes

/-- The mapping size is a whole number of pages already, so it is not rounded again. -/
theorem mmapBytes_mappingSize {size : Nat} (small : size < 2 ^ 64) :
    mmapBytes (mappingSize size) = mappingSize size := by
  by_cases fits : FitsMapping size
  · have bytes : HugeHeader.bytes = 32 := rfl
    unfold FitsMapping at fits
    unfold mmapBytes mappingSize
    generalize HugeHeader.bytes = b at *
    subst bytes
    dsimp only
    split <;> omega
  · rw [mappingSize_of_wraps small fits]
    rfl

/-- The object lies in its mapping unless the sums wrap and the page that is left is mapped. -/
theorem allocatesInside_iff {mmap : Nat → Option Nat} {huge : HugeObjectAllocator} {size : Nat}
    (small : size < 2 ^ 64) :
    AllocatesInside mmap huge size ↔ FitsMapping size ∨ mmap 4096 = none := by
  have header : HugeHeader.bytes = 32 := rfl
  unfold AllocatesInside mmapAlloc
  rw [mmapBytes_mappingSize small]
  by_cases fits : FitsMapping size
  · have ge := mappingSize_ge fits
    simp only [fits, true_or, iff_true, Option.map_eq_some_iff, Prod.mk.injEq]
    rintro address bytes ⟨_, _, rfl, rfl⟩
    simp only [allocate, HugeHeader.data]
    omega
  · rw [mappingSize_of_wraps small fits]
    have wraps := fits
    unfold FitsMapping at wraps
    simp only [fits, false_or]
    constructor
    · intro inside
      cases mapped : mmap 4096 with
      | none => rfl
      | some address =>
          have room := (inside address 4096 (by rw [mapped]; rfl)).1
          omega
    · intro fails address bytes mapped
      rw [fails] at mapped
      cases mapped

theorem allocatesInside_iff_megabyte :
    2 ^ 20 < 2 ^ 64 ∧ (AllocatesInside (fun _ => some (2 ^ 40)) [] (2 ^ 20) ↔
      FitsMapping (2 ^ 20) ∨ (some (2 ^ 40) : Option Nat) = none) :=
  ⟨by decide, allocatesInside_iff (by decide)⟩

/-- A request for all but one of the bytes of the address space gets one page. -/
theorem not_allocatesInside_max :
    2 ^ 64 - 1 < 2 ^ 64 ∧ ¬ AllocatesInside (fun _ => some (2 ^ 40)) [] (2 ^ 64 - 1) := by
  have wraps : ¬ FitsMapping (2 ^ 64 - 1) := by decide
  have page : mappingSize (2 ^ 64 - 1) = 4096 := mappingSize_of_wraps (by decide) wraps
  refine ⟨by decide, fun inside => ?_⟩
  have room := (inside (2 ^ 40) 4096 (by rw [mmapAlloc, page]; rfl)).1
  exact absurd room (by decide)

end HugeObjectAllocator

end Alaska
