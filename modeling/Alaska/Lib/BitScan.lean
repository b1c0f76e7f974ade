import Mathlib.Data.Nat.Bitwise

/-!
# Filling the bits below the highest one

A bit scan may first copy the highest bit of a word to all positions below it, by shifting the
word by one, two, four places and so on. What is left is one less than a power of two, so the
scan needs a table for one word of each length only.
-/

namespace BitScan

/-- The highest bit of `x` is bit `k`, and the `n` bits from there down are set. -/
structure Filled (x k n : Nat) : Prop where
  above : ∀ i, k < i → x.testBit i = false
  set : ∀ i ≤ k, k < i + n → x.testBit i = true

variable {x k n : Nat}

theorem filled_one (lower : 2 ^ k ≤ x) (upper : x < 2 ^ (k + 1)) : Filled x k 1 where
  above i gt := Nat.testBit_lt_two_pow (upper.trans_le (Nat.pow_le_pow_right (by decide) gt))
  set i le near := by
    obtain rfl : i = k := by omega
    exact Nat.testBit_of_two_pow_le_and_two_pow_add_one_gt lower upper

/-- A shift by as many places as are filled doubles their number. -/
theorem Filled.shift (filled : Filled x k n) : Filled (x ||| x >>> n) k (n + n) where
  above i gt := by
    rw [Nat.testBit_or, Nat.testBit_shiftRight, filled.above i gt, filled.above (n + i) (by omega)]
    rfl
  set i le near := by
    rw [Nat.testBit_or, Nat.testBit_shiftRight, Bool.or_eq_true]
    by_cases high : k < i + n
    · exact .inl (filled.set i le high)
    · exact .inr (filled.set (n + i) (by omega) (by omega))

theorem Filled.eq (filled : Filled x k n) (all : k < n) : x = 2 ^ (k + 1) - 1 := by
  apply Nat.eq_of_testBit_eq
  intro i
  rw [Nat.testBit_two_pow_sub_one]
  by_cases le : i ≤ k
  · rw [filled.set i le (by omega), decide_eq_true (by omega)]
  · rw [filled.above i (by omega), decide_eq_false (by omega)]

end BitScan
