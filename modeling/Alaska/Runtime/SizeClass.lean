import Alaska.Lib.BitScan
import Mathlib.Algebra.Group.Nat.Defs
import Mathlib.Data.Nat.Basic

/-!
# Size classes

`SizeClass.cpp` maps a request to one of 72 size classes and a class to the size of its
objects. The bit scan uses multiplication by a de Bruijn constant, and `MI_INTPTR_BITS`
is 128 there, so the scan is 64 too large; the shift by it wraps (as the hardware shift
does) and the final `uint8_t` drops the excess.
-/

namespace Alaska

/-- `HeapPage.hpp`'s `page_size`. -/
def pageSize : Nat := 2 ^ 21

def hugeObjectThresh : Nat := 0xFFFF

/-- `alaska::alignment`. -/
def alignment : Nat := 16

def numSizeClasses : Nat := 72

/-- The macro `round_up`. -/
def roundUp (x y : Nat) : Nat := (x + y - 1) / y * y

/-- `AlignedSize`: the sum wraps at 64 bits. -/
def alignedSize (size : Nat) : Nat := (size + 15) % 2 ^ 64 / 16 * 16

def shouldBeHugeObject (size : Nat) : Bool := decide (size ≥ hugeObjectThresh)

/-- `cls_sizes`, in words of 16 bytes; the last entry is the huge class. -/
def clsWords : List Nat :=
  [1, 2, 3, 4, 5, 6, 7, 8,
    10, 12, 14, 16, 20, 24, 28, 32,
    40, 48, 56, 64, 80, 96, 112, 128,
    160, 192, 224, 256, 320, 384, 448, 512,
    640, 768, 896, 1024, 1280, 1536, 1792, 2048,
    2560, 3072, 3584, 4096, 5120, 6144, 7168, 8192,
    10240, 12288, 14336, 16384, 20480, 24576, 28672, 32768,
    40960, 49152, 57344, 65536, 81920, 98304, 114688, 131072,
    163840, 196608, 229376, 262144, 327680, 393216, 458752, 524288,
    0]

def classToSize (cls : Nat) : Nat := clsWords.getD cls 0 * 16

/-- The table of `mi_clz32`. -/
def debruijn : List Nat :=
  [31, 22, 30, 21, 18, 10, 29, 2, 20, 17, 15, 13, 9, 6, 28, 1,
    23, 19, 11, 3, 16, 14, 7, 24, 12, 4, 8, 25, 5, 26, 27, 0]

/-- `mi_clz32`, on a 32-bit value. -/
def miClz32 (x : Nat) : Nat :=
  if x = 0 then
    32
  else
    let x := x ||| x >>> 1
    let x := x ||| x >>> 2
    let x := x ||| x >>> 4
    let x := x ||| x >>> 8
    let x := x ||| x >>> 16
    debruijn.getD ((x * 0x07C4ACDD % 2 ^ 32) >>> 27) 0

/-- `mi_clz`, on a 64-bit value. -/
def miClz (x : Nat) : Nat :=
  if x = 0 then
    128
  else
    let count := miClz32 (x >>> 32 % 2 ^ 32)
    if count < 32 then count else 32 + miClz32 (x % 2 ^ 32)

/-- `mi_bsr`. -/
def miBsr (x : Nat) : Nat := if x = 0 then 128 else 128 - 1 - miClz x

/-- `_mi_wsize_from_size`. -/
def wsizeFromSize (size : Nat) : Nat := (size + 16 - 1) % 2 ^ 64 / 16

/-- The class of a non-zero number of words. -/
def wsizeToClass (wsize : Nat) : Nat :=
  if wsize < 8 then
    wsize - 1
  else
    let wsize := wsize - 1
    let b := miBsr wsize % 256
    ((b <<< 2) + (wsize >>> ((b - 2) % 64) &&& 0x03) - 4) % 256

def sizeToClass (sz : Nat) : Nat :=
  wsizeToClass (if wsizeFromSize sz = 0 then 1 else wsizeFromSize sz)

/-- What the table gives for every class: aligned sizes that fit the header's slack field. -/
theorem classToSize_spec :
    ∀ cls < numSizeClasses, classToSize cls % 16 = 0 ∧ 16 ≤ classToSize cls ∧
      classToSize cls < 2 ^ 24 := by
  decide

/-- The classes and their sizes agree, so a page found by its object size has that class. -/
theorem sizeToClass_classToSize :
    ∀ cls < numSizeClasses, sizeToClass (classToSize cls) = cls := by
  decide +kernel

/-! ## The bit scan -/

variable {x k wsize cls : Nat}

/-- The de Bruijn table on the words that the shifts can leave. -/
theorem debruijn_filled :
    ∀ k < 32, debruijn.getD (((2 ^ (k + 1) - 1) * 0x07C4ACDD % 2 ^ 32) >>> 27) 0 = 31 - k := by
  decide +kernel

theorem miClz32_eq (lower : 2 ^ k ≤ x) (upper : x < 2 ^ (k + 1)) (small : k < 32) :
    miClz32 x = 31 - k := by
  have filled := (BitScan.filled_one lower upper).shift.shift.shift.shift.shift
  have nonzero : x ≠ 0 := (Nat.two_pow_pos k |>.trans_le lower).ne'
  rw [miClz32, if_neg nonzero]
  simp only
  rw [filled.eq small]
  exact debruijn_filled k small

/-- The scan returns the index of the highest bit, and 64 more. -/
theorem miBsr_eq (lower : 2 ^ k ≤ x) (upper : x < 2 ^ (k + 1)) (small : k < 32) :
    miBsr x = 64 + k := by
  have nonzero : x ≠ 0 := (Nat.two_pow_pos k |>.trans_le lower).ne'
  have narrow : x < 2 ^ 32 := upper.trans_le (Nat.pow_le_pow_right (by decide) small)
  have high : x >>> 32 = 0 := by
    rw [Nat.shiftRight_eq_div_pow]
    exact Nat.div_eq_of_lt narrow
  have clz : miClz x = 63 - k := by
    rw [miClz, if_neg nonzero, high, Nat.mod_eq_of_lt narrow, miClz32_eq lower upper small]
    simp only [Nat.zero_mod, miClz32, if_true, Nat.lt_irrefl, if_false]
    omega
  rw [miBsr, if_neg nonzero, clz]
  omega

/-! ## Classes -/

/-- Between two powers of two there are four classes, of equal width. -/
theorem wsizeToClass_eq (lower : 2 ^ k < wsize) (upper : wsize ≤ 2 ^ (k + 1)) (two_le : 2 ≤ k)
    (small : k < 32) : ∃ q < 4, wsizeToClass wsize = 4 * k + q - 4 ∧
      (q + 4) * 2 ^ (k - 2) < wsize ∧ wsize ≤ (q + 5) * 2 ^ (k - 2) := by
  obtain ⟨j, rfl⟩ : ∃ j, k = j + 2 := ⟨k - 2, by omega⟩
  have unit := Nat.two_pow_pos j
  have four : 2 ^ (j + 2) = 2 ^ j * 4 := Nat.pow_add 2 j 2
  have eight : 2 ^ (j + 2 + 1) = 2 ^ j * 8 := Nat.pow_add 2 j 3
  have quarters : (wsize - 1) / 2 ^ j / 4 = 1 := by
    rw [Nat.div_div_eq_div_mul]
    apply Nat.div_eq_of_lt_le
    · omega
    · omega
  have lower_div := Nat.div_mul_le_self (wsize - 1) (2 ^ j)
  have upper_div := Nat.lt_div_mul_add (a := wsize - 1) unit
  refine ⟨(wsize - 1) / 2 ^ j - 4, by omega, ?_, ?_, ?_⟩
  · by_cases first : wsize < 8
    · have : j = 0 := by
        by_contra ne
        have := Nat.pow_le_pow_right (show 0 < 2 by decide) (show 3 ≤ j + 2 by omega)
        omega
      subst j
      rw [wsizeToClass, if_pos first]
      simp
      omega
    · rw [wsizeToClass, if_neg first]
      simp only
      rw [miBsr_eq (k := j + 2) (by omega) (by omega) small,
        show (0x03 : Nat) = 2 ^ 2 - 1 from rfl, Nat.and_two_pow_sub_one_eq_mod,
        Nat.shiftRight_eq_div_pow, Nat.shiftLeft_eq,
        show ((64 + (j + 2)) % 256 - 2) % 64 = j by omega]
      omega
  · rw [show j + 2 - 2 = j by omega,
      show (wsize - 1) / 2 ^ j - 4 + 4 = (wsize - 1) / 2 ^ j by omega]
    omega
  · rw [show j + 2 - 2 = j by omega,
      show (wsize - 1) / 2 ^ j - 4 + 5 = (wsize - 1) / 2 ^ j + 1 by omega, Nat.add_mul]
    omega

/-- The table follows the same four classes, and those before are smaller. -/
theorem clsWords_quarter :
    ∀ k < 19, 2 ≤ k → ∀ q < 4, 4 * k + q - 4 < numSizeClasses ∧
      clsWords.getD (4 * k + q - 4) 0 = (q + 5) * 2 ^ (k - 2) ∧
      ∀ other < 4 * k + q - 4, clsWords.getD other 0 ≤ (q + 4) * 2 ^ (k - 2) := by
  decide +kernel

/-- The class of a number of words is the first one whose objects hold them. -/
theorem wsizeToClass_spec (pos : 0 < wsize) (small : wsize ≤ 2 ^ 19) :
    wsizeToClass wsize < numSizeClasses ∧ wsize ≤ clsWords.getD (wsizeToClass wsize) 0 ∧
      ∀ other < wsizeToClass wsize, clsWords.getD other 0 < wsize := by
  by_cases few : wsize ≤ 4
  · obtain rfl | rfl | rfl | rfl : wsize = 1 ∨ wsize = 2 ∨ wsize = 3 ∨ wsize = 4 := by omega
    all_goals decide
  · have nonzero : wsize - 1 ≠ 0 := by omega
    have at_least := Nat.log2_self_le nonzero
    have lower : 2 ^ (wsize - 1).log2 < wsize := by omega
    have below : wsize - 1 < 2 ^ ((wsize - 1).log2 + 1) := Nat.lt_log2_self
    have upper : wsize ≤ 2 ^ ((wsize - 1).log2 + 1) := by omega
    have two_le : 2 ≤ (wsize - 1).log2 := (Nat.le_log2 nonzero).mpr (by omega)
    have lt : (wsize - 1).log2 < 19 := (Nat.log2_lt nonzero).mpr (by omega)
    rcases wsizeToClass_eq lower upper two_le (by omega) with
      ⟨q, q_lt, cls, above, holds⟩
    rcases clsWords_quarter _ lt two_le q q_lt with ⟨cls_lt, words, before⟩
    rw [cls]
    exact ⟨cls_lt, words ▸ holds, fun other other_lt => (before other other_lt).trans_lt above⟩

theorem lt_of_not_huge {size : Nat} (small : shouldBeHugeObject size = false) : size < 65535 := by
  simpa [shouldBeHugeObject, hugeObjectThresh] using small

/-- Every request below the huge threshold has a class whose objects hold it. -/
theorem sizeToClass_spec {size : Nat} (size_pos : 0 < size)
    (small : shouldBeHugeObject size = false) :
    sizeToClass size < 44 ∧ alignedSize size ≤ classToSize (sizeToClass size) := by
  have bound := lt_of_not_huge small
  have words : wsizeFromSize size = (size + 15) / 16 := by
    rw [wsizeFromSize, Nat.mod_eq_of_lt (by omega)]
    omega
  have nonzero : wsizeFromSize size ≠ 0 := by omega
  have aligned : alignedSize size = wsizeFromSize size * 16 := by
    rw [alignedSize, words, Nat.mod_eq_of_lt (by omega)]
  have pos : 0 < wsizeFromSize size := Nat.pos_of_ne_zero nonzero
  rcases wsizeToClass_spec pos (by omega) with ⟨_, holds, before⟩
  simp only [sizeToClass, if_neg nonzero, classToSize, aligned]
  refine ⟨?_, Nat.mul_le_mul_right _ holds⟩
  by_contra above
  have : 4096 < wsizeFromSize size := before 43 (by omega)
  omega

/-! ## The cover -/

/-- `size_to_class` returns the first class whose objects hold the size. -/
theorem sizeToClass_first {sz : Nat} (le : sz ≤ classToSize (numSizeClasses - 1)) :
    sizeToClass sz < numSizeClasses ∧ sz ≤ classToSize (sizeToClass sz) ∧
      ∀ cls < sizeToClass sz, classToSize cls < sz := by
  have le : sz ≤ 2 ^ 23 := le
  have words : wsizeFromSize sz = (sz + 15) / 16 := by
    rw [wsizeFromSize, Nat.mod_eq_of_lt (by omega)]
    omega
  by_cases zero : sz = 0
  · subst sz
    decide
  · have nonzero : wsizeFromSize sz ≠ 0 := by omega
    rcases wsizeToClass_spec (Nat.pos_of_ne_zero nonzero) (by omega) with ⟨lt, holds, before⟩
    simp only [sizeToClass, if_neg nonzero, classToSize]
    refine ⟨lt, by omega, fun cls below => ?_⟩
    have := before cls below
    omega

theorem sizeToClass_mono {sz sz' : Nat} (le : sz ≤ sz')
    (small : sz' ≤ classToSize (numSizeClasses - 1)) : sizeToClass sz ≤ sizeToClass sz' := by
  by_contra gt
  have before := (sizeToClass_first (le.trans small)).2.2 _ (Nat.lt_of_not_le gt)
  have holds := (sizeToClass_first small).2.1
  omega

/-- The size classes cover the sizes up to the largest class tightly and monotonically. -/
theorem sizeClasses_cover :
    (∀ sz ≤ classToSize (numSizeClasses - 1), sizeToClass sz < numSizeClasses ∧
      sz ≤ classToSize (sizeToClass sz) ∧
      ∀ cls < sizeToClass sz, ¬ sz ≤ classToSize cls) ∧
    (∀ sz sz', sz ≤ sz' → sz' ≤ classToSize (numSizeClasses - 1) →
      sizeToClass sz ≤ sizeToClass sz') ∧
    ∀ cls < numSizeClasses, sizeToClass (classToSize cls) = cls := by
  refine ⟨fun sz le => ?_, fun sz sz' le small => sizeToClass_mono le small,
    sizeToClass_classToSize⟩
  rcases sizeToClass_first le with ⟨lt, holds, before⟩
  exact ⟨lt, holds, fun cls below => Nat.not_le.mpr (before cls below)⟩

/-! ## The shift -/

/-- The bit scan of every non-zero word: `mi_clz` counts in 64 bits and `MI_INTPTR_BITS` is 128. -/
theorem miBsr_eq_log2 (nonzero : x ≠ 0) (word : x < 2 ^ 64) : miBsr x = 64 + x.log2 := by
  have lower := Nat.log2_self_le nonzero
  have upper : x < 2 ^ (x.log2 + 1) := Nat.lt_log2_self
  have log_lt : x.log2 < 64 := (Nat.log2_lt nonzero).mpr word
  by_cases narrow : x.log2 < 32
  · exact miBsr_eq lower upper narrow
  · obtain ⟨j, log⟩ : ∃ j, x.log2 = 32 + j := ⟨x.log2 - 32, by omega⟩
    rw [log] at lower upper log_lt ⊢
    have high : x >>> 32 % 2 ^ 32 = x / 2 ^ 32 := by
      rw [Nat.shiftRight_eq_div_pow]
      exact Nat.mod_eq_of_lt (by omega)
    have high_lower : 2 ^ j ≤ x / 2 ^ 32 := by
      rw [Nat.le_div_iff_mul_le (Nat.two_pow_pos 32), Nat.mul_comm, ← Nat.pow_add]
      exact lower
    have high_upper : x / 2 ^ 32 < 2 ^ (j + 1) := by
      rw [Nat.div_lt_iff_lt_mul (Nat.two_pow_pos 32), Nat.mul_comm, ← Nat.pow_add]
      exact upper
    have clz := miClz32_eq high_lower high_upper (by omega)
    have count_lt : 31 - j < 32 := by omega
    rw [miBsr, if_neg nonzero, miClz, if_neg nonzero, high, clz, if_pos count_lt]
    omega

/-- The shift amount `b - 2` of a request that takes the bit scan path. -/
def scanShift (sz : Nat) : Option Int :=
  let wsize := if wsizeFromSize sz = 0 then 1 else wsizeFromSize sz
  if wsize < 8 then none else some ((miBsr (wsize - 1) % 256 : Nat) - 2)

/-- Every shift is 64 or more places too long: the path is taken from eight words on. -/
theorem scanShift_ge {sz : Nat} {shift : Int} (taken : scanShift sz = some shift) :
    64 ≤ shift ∧ shift < 128 := by
  have words : (if wsizeFromSize sz = 0 then 1 else wsizeFromSize sz) < 2 ^ 60 := by
    rw [wsizeFromSize]
    split
    · decide
    · omega
  unfold scanShift at taken
  generalize (if wsizeFromSize sz = 0 then 1 else wsizeFromSize sz) = wsize at taken words
  by_cases few : wsize < 8
  · simp [few] at taken
  · have nonzero : wsize - 1 ≠ 0 := by omega
    have two_le : 2 ≤ (wsize - 1).log2 := (Nat.le_log2 nonzero).mpr (by omega)
    have lt : (wsize - 1).log2 < 60 := (Nat.log2_lt nonzero).mpr (by omega)
    simp only [if_neg few] at taken
    rw [miBsr_eq_log2 nonzero (by omega), Nat.mod_eq_of_lt (by omega)] at taken
    obtain rfl := Option.some.inj taken
    omega

/-- The class of such a request is computed with this shift, of which the processor takes the
last six bits. -/
theorem sizeToClass_scanShift {sz : Nat} {shift : Int} (taken : scanShift sz = some shift) :
    sizeToClass sz = (((shift.toNat + 2) <<< 2) +
      ((wsizeFromSize sz - 1) >>> (shift.toNat % 64) &&& 0x03) - 4) % 256 := by
  have range := scanShift_ge taken
  unfold scanShift at taken
  unfold sizeToClass wsizeToClass
  by_cases zero : wsizeFromSize sz = 0
  · simp [zero] at taken
  · simp only [if_neg zero] at taken ⊢
    split at taken
    · exact nomatch taken
    · next large =>
        have amount : miBsr (wsizeFromSize sz - 1) % 256 - 2 = shift.toNat := by
          have := Option.some.inj taken
          omega
        have index : miBsr (wsizeFromSize sz - 1) % 256 = shift.toNat + 2 := by omega
        rw [if_neg large, amount, index]

/-- The bit scan is wrong for every word, and the shift of every request that takes its path is
out of range. -/
theorem scan_out_of_range {x : Nat} (word : x < 2 ^ 64) (nonzero : x ≠ 0) :
    miBsr x ≠ x.log2 ∧
      ∀ sz shift, scanShift sz = some shift → ¬ (0 ≤ shift ∧ shift < 64) := by
  constructor
  · rw [miBsr_eq_log2 nonzero word]
    omega
  · intro sz shift taken
    have range := scanShift_ge taken
    omega

theorem scan_out_of_range_one : miBsr 1 ≠ Nat.log2 1 ∧
    ∀ sz shift, scanShift sz = some shift → ¬ (0 ≤ shift ∧ shift < 64) :=
  scan_out_of_range (by decide) (by decide)

theorem scan_not_in_range :
    ¬ ((∀ x < 2 ^ 64, x ≠ 0 → miBsr x = x.log2) ∧
      ∀ sz shift, scanShift sz = some shift → 0 ≤ shift ∧ shift < 64) := by
  rintro ⟨scan, -⟩
  have one := scan 1 (by decide) (by decide)
  exact absurd one (by decide)

theorem le_alignedSize {size : Nat} (small : size + 15 < 2 ^ 64) : size ≤ alignedSize size := by
  rw [alignedSize, Nat.mod_eq_of_lt small]
  omega

end Alaska
