import Alaska.Lib.ByteString

/-!
# The string functions of the runtime

`strcpy` and `stpcpy` of `stub.c`, which share `__stpcpy`: where source and destination are
aligned alike, it copies bytes up to a word boundary and then words, as long as they have no
zero byte; the rest is copied byte by byte. Each loop has a bound on its iterations.
-/

namespace Alaska

open Memory ByteString

namespace Stub

/-- `ALIGN`, the size of a word. -/
def align : Nat := 8

/-- `ONES`. -/
def ones : Nat := (2 ^ 64 - 1) / 255

/-- `HIGHS`. -/
def highs : Nat := ones * (255 / 2 + 1)

/-- `HASZERO`. -/
def hasZero (x : Nat) : Nat := (x + (2 ^ 64 - ones)) % 2 ^ 64 &&& (2 ^ 64 - 1 - x) &&& highs

/-- The memory, and the pointers `d` and `s`. -/
structure Copying where
  mem : Bytes
  d : Nat
  s : Nat

/-- The first loop, and whether it returned from the function. -/
def copyUnaligned : Nat → Copying → Option (Bool × Copying)
  | 0, _ => none
  | fuel + 1, c =>
      if c.s % align = 0 then
        some (false, c)
      else
        let mem := Function.update c.mem c.d (c.mem c.s)
        if c.mem c.s = 0 then
          some (true, { c with mem := mem })
        else
          copyUnaligned fuel ⟨mem, c.d + 1, c.s + 1⟩

/-- The loop over words. -/
def copyWords : Nat → Copying → Option Copying
  | 0, _ => none
  | fuel + 1, c =>
      if hasZero (c.mem.load64 c.s) = 0 then
        copyWords fuel ⟨c.mem.store64 c.d (c.mem.load64 c.s), c.d + align, c.s + align⟩
      else
        some c

/-- The last loop. -/
def copyBytes : Nat → Copying → Option Copying
  | 0, _ => none
  | fuel + 1, c =>
      let mem := Function.update c.mem c.d (c.mem c.s)
      if c.mem c.s = 0 then
        some { c with mem := mem }
      else
        copyBytes fuel ⟨mem, c.d + 1, c.s + 1⟩

/-- `__stpcpy`: the pointer that it returns, and the memory. -/
def stpcpyImpl (fuel : Nat) (mem : Bytes) (d s : Nat) : Option (Nat × Bytes) :=
  let last (c : Copying) := (copyBytes fuel c).map fun c => (c.d, c.mem)
  if s % align = d % align then
    (copyUnaligned fuel ⟨mem, d, s⟩).bind fun (returned, c) =>
      if returned then some (c.d, c.mem) else (copyWords fuel c).bind last
  else
    last ⟨mem, d, s⟩

def strcpy (fuel : Nat) (mem : Bytes) (dest src : Nat) : Option (Nat × Bytes) :=
  (stpcpyImpl fuel mem dest src).map fun (_, mem) => (dest, mem)

def stpcpy (fuel : Nat) (mem : Bytes) (dest src : Nat) : Option (Nat × Bytes) :=
  (stpcpyImpl fuel mem dest src).map fun (_, mem) => (dest, mem)

/-! ## The loops -/

theorem hasZero_eq (x : Nat) : hasZero x = ByteString.hasZero 8 x := rfl

namespace Copying

/-- The next bytes are copied. -/
def advance (c : Copying) (count : Nat) : Copying :=
  ⟨c.mem.memmove c.d c.s count, c.d + count, c.s + count⟩

/-- The bytes and the zero byte behind them are copied, and the pointers are at the zero byte. -/
def finish (c : Copying) (count : Nat) : Copying :=
  ⟨c.mem.memmove c.d c.s (count + 1), c.d + count, c.s + count⟩

/-- `s` points to a string, and `d` to room for it elsewhere. -/
structure Ready (c : Copying) (x : List UInt8) : Prop where
  string : IsString c.mem c.s x
  separate : Separate c.s (x.length + 1) c.d (x.length + 1)

variable {c : Copying} {x : List UInt8} {fuel count more : Nat}

@[simp]
theorem advance_zero (c : Copying) : c.advance 0 = c := by
  rw [advance, memmove_zero, Nat.add_zero, Nat.add_zero]

theorem advance_byte (c : Copying) :
    (⟨Function.update c.mem c.d (c.mem c.s), c.d + 1, c.s + 1⟩ : Copying) = c.advance 1 := by
  rw [update_eq_memmove, advance]

theorem advance_word (c : Copying) :
    (⟨c.mem.store64 c.d (c.mem.load64 c.s), c.d + align, c.s + align⟩ : Copying) =
      c.advance align := by
  rw [store64_load64]
  rfl

/-- The zero byte is the last one to copy. -/
theorem finish_zero (c : Copying) (empty : x.length = 0) :
    ({ c with mem := Function.update c.mem c.d (c.mem c.s) } : Copying) = c.finish x.length := by
  rw [update_eq_memmove, empty]
  rfl

namespace Ready

theorem memmove_memmove (ready : c.Ready x) (le : count + more ≤ x.length + 1) :
    (c.advance count).mem.memmove (c.d + count) (c.s + count) more =
      c.mem.memmove c.d c.s (count + more) := by
  have separate := ready.separate
  unfold Separate at separate
  refine ByteString.memmove_memmove ?_
  unfold Separate
  omega

theorem advance_advance (ready : c.Ready x) (le : count + more ≤ x.length + 1) :
    (c.advance count).advance more = c.advance (count + more) := by
  rw [advance, advance, advance, ← ready.memmove_memmove le, advance, Nat.add_assoc, Nat.add_assoc]

theorem finish_advance (ready : c.Ready x) (le : count ≤ x.length) :
    (c.advance count).finish (x.drop count).length = c.finish x.length := by
  rw [List.length_drop]
  have memory := @memmove_memmove c x count (x.length - count + 1) ready (by omega)
  have total : count + (x.length - count + 1) = x.length + 1 := by omega
  rw [total] at memory
  have position : ∀ address, address + count + (x.length - count) = address + x.length := by
    omega
  simp only [finish, advance] at memory ⊢
  rw [memory, position, position]

/-- The rest of the string is still to be copied. -/
theorem advance (ready : c.Ready x) (le : count ≤ x.length) :
    (c.advance count).Ready (x.drop count) := by
  have separate := ready.separate
  unfold Separate at separate
  constructor
  · refine (ready.string.drop le).congr fun index inside => ?_
    rw [List.length_drop] at inside
    exact Bytes.memmove_outside (by omega)
  · rw [List.length_drop]
    unfold Separate Copying.advance
    dsimp only
    omega

/-- The next byte is zero at the end of the string only. -/
theorem byte_eq_zero_iff (ready : c.Ready x) : c.mem c.s = 0 ↔ x.length = 0 := by
  constructor
  · intro zero
    by_contra nonempty
    exact ready.string.byte_ne_zero (Nat.pos_of_ne_zero nonempty) zero
  · intro empty
    have terminated := ready.string.terminated
    rwa [empty] at terminated

/-- A word without a zero byte is a part of the string. -/
theorem word_le (ready : c.Ready x) (noZero : hasZero (c.mem.load64 c.s) = 0) :
    align ≤ x.length := by
  rw [hasZero_eq, hasZero_load64] at noZero
  by_contra short
  exact noZero x.length (Nat.lt_of_not_le short) ready.string.terminated

theorem copyBytes (ready : c.Ready x) (enough : x.length < fuel) :
    copyBytes fuel c = some (c.finish x.length) := by
  induction fuel generalizing c x with
  | zero => exact nomatch enough
  | succ fuel ih =>
      rw [Stub.copyBytes]
      split
      · next zero => rw [finish_zero c (ready.byte_eq_zero_iff.mp zero)]
      · next nonzero =>
          have nonempty : 1 ≤ x.length :=
            Nat.pos_of_ne_zero fun empty => nonzero (ready.byte_eq_zero_iff.mpr empty)
          rw [advance_byte, ih (ready.advance nonempty) (by rw [List.length_drop]; omega),
            ready.finish_advance nonempty]

theorem copyWords (ready : c.Ready x) (enough : x.length < fuel) :
    ∃ count ≤ x.length, copyWords fuel c = some (c.advance count) := by
  induction fuel generalizing c x with
  | zero => exact nomatch enough
  | succ fuel ih =>
      rw [Stub.copyWords]
      split
      · next noZero =>
          have le := ready.word_le noZero
          have shorter : (x.drop align).length < fuel := by
            rw [List.length_drop]
            unfold align at le ⊢
            omega
          rcases ih (ready.advance le) shorter with ⟨count, rest, result⟩
          rw [List.length_drop] at rest
          refine ⟨align + count, by omega, ?_⟩
          rw [advance_word, result, ready.advance_advance (by omega)]
      · exact ⟨0, Nat.zero_le _, by rw [advance_zero]⟩

theorem copyUnaligned (ready : c.Ready x) (enough : x.length < fuel) :
    copyUnaligned fuel c = some (true, c.finish x.length) ∨
      ∃ count ≤ x.length, copyUnaligned fuel c = some (false, c.advance count) := by
  induction fuel generalizing c x with
  | zero => exact nomatch enough
  | succ fuel ih =>
      rw [Stub.copyUnaligned]
      split
      · exact .inr ⟨0, Nat.zero_le _, by rw [advance_zero]⟩
      · dsimp only
        split
        · next zero =>
            left
            rw [finish_zero c (ready.byte_eq_zero_iff.mp zero)]
        · next nonzero =>
            have nonempty : 1 ≤ x.length :=
              Nat.pos_of_ne_zero fun empty => nonzero (ready.byte_eq_zero_iff.mpr empty)
            have shorter : (x.drop 1).length < fuel := by
              rw [List.length_drop]
              omega
            rw [advance_byte]
            rcases ih (ready.advance nonempty) shorter with result | ⟨count, rest, result⟩
            · left
              rw [result, ready.finish_advance nonempty]
            · right
              rw [List.length_drop] at rest
              refine ⟨1 + count, by omega, ?_⟩
              rw [result, ready.advance_advance (by omega)]

end Ready

end Copying

/-- The string is copied, and the pointer to its end is returned, for each alignment. -/
theorem stpcpyImpl_eq {mem : Bytes} {d s fuel : Nat} {x : List UInt8} (string : IsString mem s x)
    (separate : Separate s (x.length + 1) d (x.length + 1)) (enough : x.length < fuel) :
    stpcpyImpl fuel mem d s = some (d + x.length, mem.memmove d s (x.length + 1)) := by
  have ready : Copying.Ready ⟨mem, d, s⟩ x := ⟨string, separate⟩
  rw [stpcpyImpl]
  split
  · rcases ready.copyUnaligned enough with result | ⟨count, le, result⟩
    · rw [result]
      rfl
    · have ready' := ready.advance le
      have enough' : (x.drop count).length < fuel := by
        rw [List.length_drop]
        omega
      rcases ready'.copyWords enough' with ⟨more, le', words⟩
      have enough'' : ((x.drop count).drop more).length < fuel := by
        rw [List.length_drop]
        omega
      simp only [result, Option.bind_some, words, Bool.false_eq_true, if_false,
        (ready'.advance le').copyBytes enough'', ready'.finish_advance le', ready.finish_advance le]
      rfl
  · dsimp only
    rw [ready.copyBytes enough]
    rfl

/-! ## The two functions -/

/--
The string and its zero byte are copied, nothing else changes, `strcpy` returns the start of
the copy, and `stpcpy` its end, where another string can be appended.
-/
structure CopiesString (mem : Bytes) (dest src : Nat) (x : List UInt8) : Prop where
  strcpy : ∀ fuel, x.length < fuel →
    strcpy fuel mem dest src = some (dest, mem.memmove dest src (x.length + 1))
  stpcpy : ∀ fuel, x.length < fuel →
    stpcpy fuel mem dest src = some (dest + x.length, mem.memmove dest src (x.length + 1))
  append : ∀ src' y, IsString mem src' y →
    Separate src' (y.length + 1) dest (x.length + y.length + 1) →
      ∀ fuel, x.length + y.length < fuel → ∃ d mem' d' mem'',
        Stub.stpcpy fuel mem dest src = some (d, mem') ∧
          Stub.stpcpy fuel mem' d src' = some (d', mem'') ∧ IsString mem'' dest (x ++ y)

variable {mem : Bytes} {dest src : Nat} {x : List UInt8}

/-- `stpcpy` does not return what `__stpcpy` does. -/
theorem stpcpy_eq {fuel : Nat} (string : IsString mem src x)
    (separate : Separate src (x.length + 1) dest (x.length + 1)) (enough : x.length < fuel) :
    stpcpy fuel mem dest src = some (dest, mem.memmove dest src (x.length + 1)) := by
  rw [stpcpy, stpcpyImpl_eq string separate enough]
  rfl

/-- A string is appended to the empty one. -/
theorem append_nil {src' fuel : Nat} {y : List UInt8} (string : IsString mem src [])
    (separate : Separate src 1 dest 1) (string' : IsString mem src' y)
    (separate' : Separate src' (y.length + 1) dest (y.length + 1)) (enough : y.length < fuel) :
    ∃ d mem' d' mem'', stpcpy fuel mem dest src = some (d, mem') ∧
      stpcpy fuel mem' d src' = some (d', mem'') ∧ IsString mem'' dest y := by
  have kept : IsString (mem.memmove dest src 1) src' y := by
    refine string'.congr fun index le => ?_
    unfold Separate at separate'
    exact Bytes.memmove_outside (by omega)
  exact ⟨dest, _, dest, _, stpcpy_eq string separate (by simp; omega),
    stpcpy_eq kept separate' enough, kept.memmove⟩

/-- Both functions copy the string, but only for an empty string does `stpcpy` return its end. -/
theorem copiesString_iff (string : IsString mem src x)
    (separate : Separate src (x.length + 1) dest (x.length + 1)) :
    (∀ fuel, x.length < fuel →
      strcpy fuel mem dest src = some (dest, mem.memmove dest src (x.length + 1)) ∧
        stpcpy fuel mem dest src = some (dest, mem.memmove dest src (x.length + 1))) ∧
      (CopiesString mem dest src x ↔ x = []) := by
  have copies : ∀ fuel, x.length < fuel →
      strcpy fuel mem dest src = some (dest, mem.memmove dest src (x.length + 1)) ∧
        stpcpy fuel mem dest src = some (dest, mem.memmove dest src (x.length + 1)) := by
    intro fuel enough
    rw [strcpy, stpcpy, stpcpyImpl_eq string separate enough]
    exact ⟨rfl, rfl⟩
  refine ⟨copies, ?_, ?_⟩
  · intro correct
    have returned := correct.stpcpy (x.length + 1) (Nat.lt_succ_self _)
    rw [stpcpy_eq string separate (Nat.lt_succ_self _)] at returned
    have pointer := (Prod.mk.inj (Option.some.inj returned)).1
    exact List.length_eq_zero_iff.mp (by omega)
  · rintro rfl
    refine ⟨fun fuel enough => (copies fuel enough).1, fun fuel enough => (copies fuel enough).2,
      fun src' y string' separate' fuel enough => ?_⟩
    rw [List.length_nil, Nat.zero_add] at separate' enough
    exact append_nil string separate string' separate' enough

/-- The string of one letter. -/
def letter : Bytes := Function.update (fun _ => 0) 17 97

theorem isString_letter : IsString letter 17 [97] :=
  .of_bytes (by decide) (by decide) (by decide)

theorem copiesString_iff_letter :
    strcpy 2 letter 41 17 = some (41, letter.memmove 41 17 2) ∧
      ¬ CopiesString letter 41 17 [97] := by
  have separate : Separate 17 2 41 2 := Or.inl (by decide)
  have copies := copiesString_iff isString_letter separate
  exact ⟨(copies.1 2 (by decide)).1, fun correct => nomatch copies.2.mp correct⟩

/-- The function returns the start of the copy. -/
theorem not_copiesString : ¬ ∀ (mem : Bytes) (dest src : Nat) (x : List UInt8),
    IsString mem src x → Separate src (x.length + 1) dest (x.length + 1) →
      CopiesString mem dest src x := by
  intro correct
  have copies := correct letter 41 17 [97] isString_letter (Or.inl (by decide))
  have returned := congrArg (Option.map Prod.fst) (copies.stpcpy 2 (by decide))
  exact absurd returned (by decide)

end Stub

end Alaska
