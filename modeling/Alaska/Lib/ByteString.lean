import Alaska.Lib.Memory
import Mathlib.Tactic.NormNum.Basic

/-!
# Strings in a memory of bytes

A string ends with a zero byte. It may be copied byte by byte, or word by word up to the
first word with a zero byte. `hasZero` finds out whether a word has one without looking at
each of its bytes, by borrowing from the highest bit of a zero byte.
-/

namespace ByteString

open Memory

/-! ## Words with a zero byte -/

/-- The word with these bytes, least significant first. -/
def word : List UInt8 → Nat
  | [] => 0
  | byte :: bytes => byte.toNat + 256 * word bytes

/-- The word whose bytes are all one. -/
def ones : Nat → Nat
  | 0 => 0
  | count + 1 => 1 + 256 * ones count

/-- Nonzero if and only if one of the bytes of the word is zero. -/
def hasZero (count x : Nat) : Nat :=
  (x + (256 ^ count - ones count)) % 256 ^ count &&& (256 ^ count - 1 - x) &&& 128 * ones count

variable {byte : UInt8} {bytes : List UInt8} {count : Nat}

theorem word_lt (bytes : List UInt8) : word bytes < 256 ^ bytes.length := by
  induction bytes with
  | nil => exact Nat.one_pos
  | cons byte bytes ih =>
      have small := byte.toNat_lt
      rw [word, List.length_cons, Nat.pow_succ]
      omega

theorem ones_lt (count : Nat) : ones count < 256 ^ count := by
  induction count with
  | zero => exact Nat.one_pos
  | succ count ih =>
      rw [ones, Nat.pow_succ]
      omega

/-- Byte `index` of a word. -/
theorem word_div {index : Nat} (lt : index < bytes.length) :
    word bytes / 256 ^ index % 256 = bytes[index].toNat := by
  induction index generalizing bytes with
  | zero =>
      cases bytes with
      | nil => exact nomatch lt
      | cons byte bytes =>
          have small := byte.toNat_lt
          simp only [word, pow_zero, Nat.div_one, List.getElem_cons_zero]
          omega
  | succ index ih =>
      cases bytes with
      | nil => exact nomatch lt
      | cons byte bytes =>
          have small := byte.toNat_lt
          have shift : (byte.toNat + 256 * word bytes) / 256 = word bytes := by omega
          rw [word, Nat.pow_succ', ← Nat.div_div_eq_div_mul, shift, List.getElem_cons_succ]
          exact ih (Nat.lt_of_succ_lt_succ lt)

/-- The lowest bytes of two words meet, and so do the rests. -/
theorem and_byte {low low' high high' : Nat} (lt : low < 256) (lt' : low' < 256) :
    (low + 256 * high) &&& (low' + 256 * high') = (low &&& low') + 256 * (high &&& high') := by
  have and_lt : low &&& low' < 2 ^ 8 := Nat.and_lt_two_pow _ lt'
  have lowest : ((low + 256 * high) &&& (low' + 256 * high')) % 2 ^ 8 = low &&& low' := by
    rw [Nat.and_mod_two_pow, Nat.add_mul_mod_self_left, Nat.add_mul_mod_self_left,
      Nat.mod_eq_of_lt lt, Nat.mod_eq_of_lt lt']
  have rest : ((low + 256 * high) &&& (low' + 256 * high')) / 2 ^ 8 = high &&& high' := by
    rw [Nat.and_div_two_pow]
    congr 1 <;> omega
  omega

/-- One less than a byte and its complement do not share the highest bit. -/
theorem highest_meet : ∀ value < 2 ^ 8, 0 < value → (value - 1) &&& (255 - value) &&& 128 = 0 := by
  decide +kernel

/-- Below a byte that is not zero, nothing is borrowed, and its highest bit meets no bit. -/
theorem hasZero_cons (nonzero : byte ≠ 0) :
    hasZero (bytes.length + 1) (word (byte :: bytes)) =
      256 * hasZero bytes.length (word bytes) := by
  have small := byte.toNat_lt
  have pos : 0 < byte.toNat := by
    refine Nat.pos_of_ne_zero fun zero => nonzero ?_
    exact UInt8.toNat_inj.mp zero
  have fits := word_lt bytes
  have below := ones_lt bytes.length
  have minus : (word (byte :: bytes) + (256 ^ (bytes.length + 1) - ones (bytes.length + 1))) %
      256 ^ (bytes.length + 1) =
      (byte.toNat - 1) + 256 *
        ((word bytes + (256 ^ bytes.length - ones bytes.length)) % 256 ^ bytes.length) := by
    have split : word (byte :: bytes) + (256 ^ (bytes.length + 1) - ones (bytes.length + 1)) =
        (byte.toNat - 1) + 256 * (word bytes + (256 ^ bytes.length - ones bytes.length)) := by
      rw [word, ones, Nat.pow_succ]
      omega
    rw [split, Nat.pow_succ', Nat.mod_mul]
    congr 1
    · omega
    · congr 2
      omega
  have complement : 256 ^ (bytes.length + 1) - 1 - word (byte :: bytes) =
      (255 - byte.toNat) + 256 * (256 ^ bytes.length - 1 - word bytes) := by
    rw [word, Nat.pow_succ]
    omega
  have highs : 128 * ones (bytes.length + 1) = 128 + 256 * (128 * ones bytes.length) := by
    rw [ones]
    omega
  have meet := highest_meet byte.toNat small pos
  have and_lt : (byte.toNat - 1) &&& (255 - byte.toNat) < 2 ^ 8 :=
    Nat.and_lt_two_pow _ (by omega)
  rw [hasZero, minus, complement, highs, and_byte (by omega) (by omega), and_byte and_lt (by omega),
    meet, Nat.zero_add]
  rfl

/-- A zero byte borrows from its highest bit. -/
theorem hasZero_zero_cons : hasZero (bytes.length + 1) (word (0 :: bytes)) ≠ 0 := by
  have fits := word_lt bytes
  have below := ones_lt bytes.length
  have zero : (0 : UInt8).toNat = 0 := rfl
  have minus : (word (0 :: bytes) + (256 ^ (bytes.length + 1) - ones (bytes.length + 1))) %
      256 ^ (bytes.length + 1) % 2 ^ 8 = 255 := by
    have divides : 2 ^ 8 ∣ 256 ^ (bytes.length + 1) :=
      Dvd.intro_left (256 ^ bytes.length) (Nat.pow_succ ..).symm
    rw [Nat.mod_mod_of_dvd _ divides, word, ones, Nat.pow_succ, zero]
    omega
  have complement : (256 ^ (bytes.length + 1) - 1 - word (0 :: bytes)) % 2 ^ 8 = 255 := by
    rw [word, Nat.pow_succ, zero]
    omega
  have highs : 128 * ones (bytes.length + 1) % 2 ^ 8 = 128 := by
    rw [ones]
    omega
  have lowest : hasZero (bytes.length + 1) (word (0 :: bytes)) % 2 ^ 8 = 128 := by
    rw [hasZero, Nat.and_mod_two_pow, Nat.and_mod_two_pow, minus, complement, highs]
    rfl
  intro isZero
  rw [isZero] at lowest
  exact nomatch lowest

theorem hasZero_eq_zero_iff (bytes : List UInt8) :
    hasZero bytes.length (word bytes) = 0 ↔ 0 ∉ bytes := by
  induction bytes with
  | nil => simp [hasZero, ones]
  | cons byte bytes ih =>
      rcases eq_or_ne byte 0 with rfl | nonzero
      · simpa using hasZero_zero_cons
      · rw [List.length_cons, hasZero_cons nonzero, List.mem_cons, not_or, ← ih]
        simp [nonzero.symm]

/-! ## Words in memory -/

variable {mem mem' : Bytes} {address source destination size : Nat}

/-- The bytes from an address on. -/
def bytesAt (mem : Bytes) (address size : Nat) : List UInt8 :=
  (List.range size).map fun index => mem (address + index)

@[simp]
theorem length_bytesAt : (bytesAt mem address size).length = size := by simp [bytesAt]

theorem load64_eq_word (mem : Bytes) (address : Nat) :
    mem.load64 address = word (bytesAt mem address 8) := rfl

theorem hasZero_load64 :
    hasZero 8 (mem.load64 address) = 0 ↔ ∀ index < 8, mem (address + index) ≠ 0 := by
  have exact := hasZero_eq_zero_iff (bytesAt mem address 8)
  rw [length_bytesAt, ← load64_eq_word] at exact
  rw [exact]
  simp [bytesAt]

/-! ## Copies -/

/-- The two regions have no byte in common. -/
def Separate (left leftSize right rightSize : Nat) : Prop :=
  left + leftSize ≤ right ∨ right + rightSize ≤ left

/-- Storing a word that was loaded copies its bytes. -/
theorem store64_load64 (mem : Bytes) (destination source : Nat) :
    mem.store64 destination (mem.load64 source) = mem.memmove destination source 8 := by
  funext address
  rw [Bytes.store64, Bytes.memmove]
  split
  · next inside =>
      have lt : address - destination < (bytesAt mem source 8).length := by
        rw [length_bytesAt]
        omega
      have byte := word_div lt
      rw [← load64_eq_word] at byte
      rw [← UInt8.ofNat_mod_size, byte, UInt8.ofNat_toNat]
      simp [bytesAt]
  · rfl

theorem update_eq_memmove (mem : Bytes) (destination source : Nat) :
    Function.update mem destination (mem source) = mem.memmove destination source 1 := by
  funext address
  rw [Bytes.memmove]
  by_cases same : address = destination
  · subst same
    rw [Function.update_self, if_pos (by omega), Nat.sub_self, Nat.add_zero]
  · rw [Function.update_of_ne same, if_neg (by omega)]

theorem memmove_zero (mem : Bytes) (destination source : Nat) :
    mem.memmove destination source 0 = mem := by
  funext address
  rw [Bytes.memmove, if_neg (by omega)]

/-- A copy may be made in two parts. -/
theorem memmove_memmove {first second : Nat}
    (separate : Separate source (first + second) destination (first + second)) :
    (mem.memmove destination source first).memmove (destination + first) (source + first) second =
      mem.memmove destination source (first + second) := by
  unfold Separate at separate
  funext address
  by_cases later : destination + first ≤ address ∧ address < destination + first + second
  · rw [Bytes.memmove_inside later.1 later.2, Bytes.memmove_outside (by omega),
      Bytes.memmove_inside (by omega) (by omega)]
    congr 1
    omega
  · rw [Bytes.memmove_outside (by omega)]
    by_cases earlier : destination ≤ address ∧ address < destination + first
    · rw [Bytes.memmove_inside earlier.1 earlier.2, Bytes.memmove_inside earlier.1 (by omega)]
    · rw [Bytes.memmove_outside (by omega), Bytes.memmove_outside (by omega)]

/-! ## Strings -/

/-- The string that starts at an address. -/
structure IsString (mem : Bytes) (address : Nat) (x : List UInt8) : Prop where
  bytes : bytesAt mem address x.length = x
  nonzero : 0 ∉ x
  terminated : mem (address + x.length) = 0

namespace IsString

variable {x y : List UInt8} {index count : Nat}

theorem byte_eq (string : IsString mem address x) (lt : index < x.length) :
    mem (address + index) = x[index] := by
  have bytes := string.bytes
  have byte : (bytesAt mem address x.length)[index]? = some x[index] := by
    rw [bytes, List.getElem?_eq_getElem lt]
  simpa [bytesAt, lt] using byte

theorem byte_ne_zero (string : IsString mem address x) (lt : index < x.length) :
    mem (address + index) ≠ 0 := by
  rw [string.byte_eq lt]
  intro zero
  exact string.nonzero (zero ▸ List.getElem_mem lt)

/-- A string is known by its bytes. -/
theorem of_bytes (bytes : ∀ (index : Nat) (lt : index < x.length), mem (address + index) = x[index])
    (nonzero : 0 ∉ x) (terminated : mem (address + x.length) = 0) : IsString mem address x where
  bytes := by
    refine List.ext_getElem length_bytesAt fun index _ lt => ?_
    simp [bytesAt, bytes index lt]
  nonzero := nonzero
  terminated := terminated

/-- Only the bytes of the string and the zero byte matter. -/
theorem congr (string : IsString mem address x)
    (same : ∀ index ≤ x.length, mem' (address + index) = mem (address + index)) :
    IsString mem' address x := by
  refine of_bytes (fun index lt => ?_) string.nonzero ?_
  · rw [same index (Nat.le_of_lt lt), string.byte_eq lt]
  · rw [same _ le_rfl, string.terminated]

/-- The end of a string. -/
theorem drop (string : IsString mem address x) (le : count ≤ x.length) :
    IsString mem (address + count) (x.drop count) := by
  refine of_bytes (fun index lt => ?_) (fun zero => string.nonzero (List.mem_of_mem_drop zero)) ?_
  · rw [List.length_drop] at lt
    rw [Nat.add_assoc, string.byte_eq (by omega), List.getElem_drop]
  · rw [List.length_drop, Nat.add_assoc, Nat.add_sub_cancel' le, string.terminated]

/-- The copy of a string, with the zero byte. -/
theorem memmove (string : IsString mem source x) :
    IsString (mem.memmove destination source (x.length + 1)) destination x := by
  have copied : ∀ index ≤ x.length,
      mem.memmove destination source (x.length + 1) (destination + index) =
        mem (source + index) := by
    intro index le
    rw [Bytes.memmove_inside (by omega) (by omega), Nat.add_sub_cancel_left]
  refine of_bytes (fun index lt => ?_) string.nonzero ?_
  · rw [copied index (Nat.le_of_lt lt), string.byte_eq lt]
  · rw [copied _ le_rfl, string.terminated]

end IsString

end ByteString
