import Alaska.Lib.Memory
import Mathlib.Algebra.Order.Group.Unbundled.Int
import Mathlib.Data.List.Basic

/-!
# The internal allocator

`liballoc.c`, which serves the data structures of the runtime itself. Blocks of pages from
the kernel, the majors, are cut into minors. The headers of both are kept beside the bytes;
the lists that their links form are lists here. What `mmap` returns is up to the kernel.
`none` is an operation that has no defined outcome: the kernel maps nothing, which the code
does not notice because `MAP_FAILED` is not null, or a pointer is none of the allocator's.
-/

namespace Alaska

open Memory

/-- A `liballoc_minor`, at the address it lives at. -/
structure LiballocMinor where
  address : Nat
  size : Nat
  reqSize : Nat
  deriving DecidableEq

/-- A `liballoc_major`, at the address it lives at, with the list that `first` starts. -/
structure LiballocMajor where
  address : Nat
  pages : Nat
  size : Nat
  usage : Nat
  minors : List LiballocMinor
  deriving DecidableEq

/-- The list that `l_memRoot` starts, the address in `l_bestBet`, and the memory. -/
structure Liballoc where
  majors : List LiballocMajor
  bestBet : Option Nat
  bytes : Bytes

/-- Where the kernel puts a number of pages, when some majors are there. -/
abbrev Mmap := List LiballocMajor → Nat → Option Nat

/-- The difference of two `unsigned int`. -/
def sub32 (a b : Nat) : Nat := (a + 2 ^ 32 - b) % 2 ^ 32

/-- The difference of two `uintptr_t`. -/
def sub64 (a b : Nat) : Nat := (a + 2 ^ 64 - b) % 2 ^ 64

/-- An `unsigned int` in an `int`. -/
def toInt32 (a : Nat) : Int := Int.bmod a (2 ^ 32)

/-- `ALIGN`: what it adds to the address `p` of the space of a minor. -/
def Liballoc.alignment (p : Nat) : Nat :=
  let diff := (p + 16) % 16
  16 + if diff ≠ 0 then 16 - diff else diff

namespace LiballocMinor

/-- `sizeof(struct liballoc_minor)`. -/
def bytes : Nat := 40

/-- The aligned pointer to the space of a minor. -/
def pointer (min : LiballocMinor) : Nat :=
  min.address + bytes + Liballoc.alignment (min.address + bytes)

end LiballocMinor

namespace LiballocMajor

/-- `sizeof(struct liballoc_major)`. -/
def bytes : Nat := 40

/-- The free bytes of a major, in however many pieces. -/
def available (maj : LiballocMajor) : Nat := sub32 maj.size maj.usage

/-- The bytes that a request of `size` takes. -/
def need (size : Nat) : Nat := (size + LiballocMinor.bytes) % 2 ^ 64

/-- The fields of a new minor. -/
def newMinor (address size reqSize : Nat) : LiballocMinor :=
  ⟨address, size % 2 ^ 32, reqSize % 2 ^ 32⟩

/-- `usage` and the list with a minor for `size` more. -/
def grow (maj : LiballocMajor) (size : Nat) (minors : List LiballocMinor) : LiballocMajor :=
  { maj with usage := (maj.usage + size + LiballocMinor.bytes) % 2 ^ 32, minors := minors }

/-- The major without one of its minors. -/
def without (maj : LiballocMajor) (min : LiballocMinor) : LiballocMajor :=
  { maj with
    usage := sub32 maj.usage (min.size + LiballocMinor.bytes), minors := maj.minors.erase min }

/-- The major with another request for one of its minors. -/
def withRequest (maj : LiballocMajor) (min : LiballocMinor) (reqSize : Nat) : LiballocMajor :=
  { maj with minors := maj.minors.replace min { min with reqSize := reqSize } }

/-- Case 2, a major without minors. -/
def placeFirst (maj : LiballocMajor) (size reqSize : Nat) : LiballocMajor × LiballocMinor :=
  let min := newMinor (maj.address + bytes) size reqSize
  (maj.grow size [min], min)

/-- The end of a minor. -/
def endOf (min : LiballocMinor) : Nat := min.address + LiballocMinor.bytes + min.size

/-- Case 4, the loop along the minors of a major that ends at `limit`. -/
def placeAfter (limit size reqSize : Nat) :
    List LiballocMinor → Option (List LiballocMinor × LiballocMinor)
  | [] => none
  | [min] =>
      if need size ≤ sub64 (sub64 (sub64 limit min.address) LiballocMinor.bytes) min.size then
        let new := newMinor (endOf min) size reqSize
        some ([min, new], new)
      else
        none
  | min :: next :: rest =>
      if need size ≤
          sub64 (sub64 (sub64 next.address min.address) LiballocMinor.bytes) min.size then
        let new := newMinor (endOf min) size reqSize
        some (min :: new :: next :: rest, new)
      else
        (placeAfter limit size reqSize (next :: rest)).map fun r => (min :: r.1, r.2)

/-- Cases 2 to 4: a major in which there may be enough space, and its new minor. -/
def place (maj : LiballocMajor) (size reqSize : Nat) : Option (LiballocMajor × LiballocMinor) :=
  match maj.minors with
  | [] => some (maj.placeFirst size reqSize)
  | first :: rest =>
      if need size ≤ sub64 (sub64 first.address maj.address) bytes then
        let min := newMinor (maj.address + bytes) size reqSize
        some (maj.grow size (min :: first :: rest), min)
      else
        (placeAfter (maj.address + maj.size) size reqSize (first :: rest)).map fun r =>
          (maj.grow size r.1, r.2)

end LiballocMajor

namespace Liballoc

open LiballocMajor

/-- The pages that a new major has, `st` in `allocate_new_page`. -/
def pageCount (size : Nat) : Nat :=
  let st := ((size + LiballocMajor.bytes) % 2 ^ 32 + LiballocMinor.bytes) % 2 ^ 32
  let st := if st % 4096 = 0 then st / 4096 else st / 4096 + 1
  if st < 16 then 16 else st

def allocateNewPage (mmap : Mmap) (majors : List LiballocMajor) (size : Nat) :
    Option LiballocMajor :=
  let st := pageCount size
  (mmap majors st).map fun address => ⟨address, st, st * 4096 % 2 ^ 32, LiballocMajor.bytes, []⟩

/-- `l_bestBet` with the local `bestSize`. -/
structure Best where
  bestSize : Nat
  bestBet : Option Nat

/-- A major with more memory than the best bet becomes the best bet. -/
def Best.remember (best : Best) (maj : LiballocMajor) : Best :=
  if best.bestSize < maj.available then ⟨maj.available, some maj.address⟩ else best

/-- How a walk along the majors ends: with a new minor, or after a last case 1 or case 5. -/
inductive Walk where
  | placed (majors : List LiballocMajor) (min : LiballocMinor)
  | exhausted (insufficient : Bool)

def Walk.after (maj : LiballocMajor) : Walk → Walk
  | .placed majors min => .placed (maj :: majors) min
  | .exhausted insufficient => .exhausted insufficient

/-- The loop of `malloc` over the majors up to the last one. -/
def walk (size reqSize : Nat) : Best → Bool → List LiballocMajor → Best × Walk
  | best, insufficient, [] => (best, .exhausted insufficient)
  | best, _, maj :: rest =>
      let best := best.remember maj
      if maj.available < need size then
        let (best, walked) := walk size reqSize best true rest
        (best, walked.after maj)
      else
        match maj.place size reqSize with
        | some (maj', min) => (best, .placed (maj' :: rest) min)
        | none =>
            let (best, walked) := walk size reqSize best false rest
            (best, walked.after maj)

/-- The rest of the loop with a new major at the end of the list. -/
def useNext (mmap : Mmap) (size reqSize : Nat) (best : Best) (insufficient : Bool)
    (majors : List LiballocMajor) (next : LiballocMajor) :
    Option (Best × List LiballocMajor × LiballocMinor) :=
  if insufficient then
    let placed := next.placeFirst size reqSize
    some (best, majors ++ [placed.1], placed.2)
  else
    match walk size reqSize best false [next] with
    | (best, .placed next min) => some (best, majors ++ next, min)
    | (best, .exhausted _) =>
        (allocateNewPage mmap (majors ++ [next]) size).map fun last =>
          let placed := last.placeFirst size reqSize
          (best, majors ++ [next, placed.1], placed.2)

/--
The end of the loop, after all majors: a new one. After a case 1 it is used at once, after a
case 5 it is looked at like the others.
-/
def extend (mmap : Mmap) (size reqSize : Nat) (best : Best) (insufficient : Bool)
    (majors : List LiballocMajor) : Option (Best × List LiballocMajor × LiballocMinor) :=
  (allocateNewPage mmap majors size).bind (useNext mmap size reqSize best insufficient majors)

/-- The loop of `malloc`, from the root or from the best bet, and then once more from the root. -/
def search (mmap : Mmap) (size reqSize : Nat) (best : Best) (startedBet : Option Nat)
    (majors : List LiballocMajor) : Option (Best × List LiballocMajor × LiballocMinor) :=
  match startedBet with
  | none =>
      match walk size reqSize best false majors with
      | (best, .placed majors min) => some (best, majors, min)
      | (best, .exhausted insufficient) => extend mmap size reqSize best insufficient majors
  | some bet =>
      let isBefore := fun maj : LiballocMajor => maj.address != bet
      match walk size reqSize best false (majors.dropWhile isBefore) with
      | (best, .placed rest min) => some (best, majors.takeWhile isBefore ++ rest, min)
      | (best, .exhausted _) =>
          match walk size reqSize best false majors with
          | (best, .placed majors min) => some (best, majors, min)
          | (best, .exhausted insufficient) => extend mmap size reqSize best insufficient majors

/-- `UNALIGN`. -/
def unalign (mem : Bytes) (ptr : Nat) : Nat :=
  let diff := (mem (ptr - 16)).toNat
  if diff < 32 then ptr - diff else ptr

/-- The root of the list, which the first request maps. -/
def memRoot (mmap : Mmap) (s : Liballoc) (size : Nat) : Option (List LiballocMajor) :=
  match s.majors with
  | [] => (allocateNewPage mmap [] size).map fun maj => [maj]
  | maj :: rest => some (maj :: rest)

/-- The best bet to begin with, and whether the search starts there. -/
def firstBet (s : Liballoc) (majors : List LiballocMajor) (size : Nat) :
    Option (Best × Option Nat) :=
  match s.bestBet with
  | none => some (⟨0, none⟩, none)
  | some bet =>
      (majors.find? fun maj => maj.address == bet).map fun maj =>
        (⟨maj.available, some bet⟩, if need size < maj.available then some bet else none)

/-- The end of `malloc`: `ALIGN` notes before the pointer how far it has moved it. -/
def handOut (s : Liballoc) (found : Best × List LiballocMajor × LiballocMinor) : Nat × Liballoc :=
  let min := found.2.2
  let moved := UInt8.ofNat (alignment (min.address + LiballocMinor.bytes))
  (min.pointer,
    ⟨found.2.1, found.1.bestBet, Function.update s.bytes (min.pointer - 16) moved⟩)

/-- `malloc` for a size with the room for the alignment. -/
def allocate (mmap : Mmap) (s : Liballoc) (size reqSize : Nat) : Option (Nat × Liballoc) :=
  (s.memRoot mmap size).bind fun majors =>
    (s.firstBet majors size).bind fun first =>
      (search mmap size reqSize first.1 first.2 majors).map s.handOut

def malloc (mmap : Mmap) (s : Liballoc) (reqSize : Nat) : Option (Nat × Liballoc) :=
  let size := (reqSize + 32) % 2 ^ 64
  if size = 0 then allocate mmap s 33 1 else allocate mmap s size reqSize

/-- The major and the minor whose space a pointer is to. -/
def findMinor (s : Liballoc) (ptr : Nat) : Option (LiballocMajor × LiballocMinor) :=
  let address := unalign s.bytes ptr - LiballocMinor.bytes
  (s.majors.find? fun maj => maj.minors.any fun min => min.address == address).bind fun maj =>
    (maj.minors.find? fun min => min.address == address).map fun min => (maj, min)

/-- The best bet when `maj` has more space than before. -/
def betterBet (majors : List LiballocMajor) (maj : LiballocMajor) :
    Option Nat → Option (Option Nat)
  | none => some none
  | some bet =>
      (majors.find? fun maj => maj.address == bet).map fun best =>
        if toInt32 best.available < toInt32 maj.available then some maj.address else some bet

/-- Takes a minor out of its major; the last one of a major takes the major with it. -/
def release (s : Liballoc) (maj : LiballocMajor) (min : LiballocMinor) : Option Liballoc :=
  let rest := maj.without min
  if rest.minors.isEmpty then
    let bestBet := if s.bestBet = some maj.address then none else s.bestBet
    some { s with majors := s.majors.erase maj, bestBet := bestBet }
  else
    let majors := s.majors.replace maj rest
    (betterBet majors rest s.bestBet).map fun bestBet =>
      { s with majors := majors, bestBet := bestBet }

def free (s : Liballoc) (ptr : Nat) : Option Liballoc :=
  if ptr = 0 then
    some s
  else
    (s.findMinor ptr).bind fun found => s.release found.1 found.2

/--
`calloc`: the product goes through an `int`. The loop that clears the object has an
`unsigned int` for its index and does not end for a size that is negative.
-/
def calloc (mmap : Mmap) (s : Liballoc) (nobj size : Nat) : Option (Nat × Liballoc) :=
  let realSize := toInt32 (nobj * size % 2 ^ 64)
  if realSize < 0 then
    none
  else
    (s.malloc mmap realSize.toNat).map fun result =>
      (result.1, { result.2 with bytes := result.2.bytes.memset result.1 0 realSize.toNat })

/-- The state in which a minor holds a smaller request. -/
def shrink (s : Liballoc) (maj : LiballocMajor) (min : LiballocMinor) (size : Nat) : Liballoc :=
  { s with majors := s.majors.replace maj (maj.withRequest min (size % 2 ^ 32)) }

def realloc (mmap : Mmap) (s : Liballoc) (p size : Nat) : Option (Nat × Liballoc) :=
  if size = 0 then
    (s.free p).map fun s => (0, s)
  else if p = 0 then
    s.malloc mmap size
  else
    (s.findMinor p).bind fun found =>
      if size ≤ found.2.reqSize then
        some (p, s.shrink found.1 found.2 size)
      else
        (s.malloc mmap size).bind fun result =>
          let copied := result.2.bytes.memmove result.1 p found.2.reqSize
          ({ result.2 with bytes := copied }.free p).map fun s => (result.1, s)

end Liballoc

end Alaska
