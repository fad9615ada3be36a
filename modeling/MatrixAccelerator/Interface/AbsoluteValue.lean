import MatrixAccelerator.Interface.Magnitude
import Mathlib.Algebra.Order.Field.Basic
import Mathlib.Algebra.Order.Field.Rat
import Mathlib.Tactic.Positivity

/-!
# Absolute values of words

The absolute value of a word as a rational, and the comparisons with a power of two that
turn a bound on rationals into one on magnitudes.  The driver's decoder and the testbench's
differ on the infinities and NaNs only.
-/

set_option autoImplicit false

namespace MatrixAccelerator.Interface

open MatrixAccelerator.Model

/-! ## Comparison with a power of two -/

/-- A quotient is below a power of two if its numerator is below the scaled power. -/
theorem div_lt_two_pow_iff (x j k : ℕ) : (x : ℚ) / 2 ^ j < 2 ^ k ↔ x < 2 ^ (k + j) := by
  rw [div_lt_iff₀ (by positivity), ← pow_add]
  exact_mod_cast Iff.rfl

/-- The same from below. -/
theorem two_pow_le_div_iff (x j k : ℕ) : 2 ^ k ≤ (x : ℚ) / 2 ^ j ↔ 2 ^ (k + j) ≤ x := by
  rw [← not_lt, div_lt_two_pow_iff, not_lt]

/-- Quotients over powers of two are compared by their scaled numerators. -/
theorem div_le_div_iff (y x j k : ℕ) :
    (y : ℚ) / 2 ^ j ≤ (x : ℚ) / 2 ^ (j + k) ↔ y * 2 ^ k ≤ x := by
  rw [pow_add, div_le_div_iff₀ (by positivity) (by positivity), mul_comm (2 ^ j : ℚ), ← mul_assoc,
    mul_le_mul_iff_left₀ (by positivity)]
  exact_mod_cast Iff.rfl

/-- A quotient over `2 ^ (j + k)` is at least `2 ^ -k` if its numerator has more than `j` digits.
-/
theorem one_div_le_div_iff (x j k : ℕ) : 1 / 2 ^ k ≤ (x : ℚ) / 2 ^ (j + k) ↔ 2 ^ j ≤ x := by
  rw [div_le_div_iff₀ (by positivity) (by positivity), one_mul, pow_add,
    mul_le_mul_iff_left₀ (by positivity)]
  exact_mod_cast Iff.rfl

/-- The same from above. -/
theorem div_lt_one_div_iff (x j k : ℕ) : (x : ℚ) / 2 ^ (j + k) < 1 / 2 ^ k ↔ x < 2 ^ j := by
  rw [← not_le, one_div_le_div_iff, not_le]

/-! ## Values -/

/-- The absolute value forgets the sign. -/
theorem abs_withSign (sign : Bool) (x : ℕ) : |withSign sign x| = (x : ℤ) := by
  rw [Int.abs_eq_natAbs, natAbs_withSign]

/-- The absolute value of a zero or a normal word is its magnitude, scaled. -/
theorem abs_fp16ToFloat {w : Word} (h : magnitudeBits w = 0#15 ∨ Normal w) :
    |fp16ToFloat w| = (magnitude w : ℚ) / 2 ^ 25 := by
  rw [fp16ToFloat_eq h, abs_div, abs_of_pos (by positivity : (0 : ℚ) < 2 ^ 25), ← Int.cast_abs,
    signedMagnitude, abs_withSign, Int.cast_natCast]

/-- A word without an exponent counts in units of `2 ^ -24`. -/
theorem abs_fp16ToFloat_subnormal {w : Word} (h : exponent w = 0) :
    |fp16ToFloat w| = ((fracField w).toNat : ℚ) / 2 ^ 24 := by
  have hvalue : ((fracField w).toNat : ℚ) / 1024 * (1 / 16384) =
      ((fracField w).toNat : ℚ) / 2 ^ 24 := by
    ring
  have hpos : (0 : ℚ) ≤ ((fracField w).toNat : ℚ) / 2 ^ 24 := by positivity
  have hexp : (expField w).toNat = 0 := h
  simp only [fp16ToFloat, if_pos hexp, hvalue]
  split
  · next h0 => rw [h0, abs_zero, Nat.cast_zero, zero_div]
  · split
    · rw [abs_neg, abs_of_nonneg hpos]
    · exact abs_of_nonneg hpos

/-- The absolute value of an exact product is the product of the magnitudes, scaled twice. -/
theorem abs_fp16ToFloat_mul {a b : Word} (ha : Normal a) (hb : Normal b) :
    |fp16ToFloat a * fp16ToFloat b| = ((magnitude a * magnitude b : ℕ) : ℚ) / 2 ^ (25 + 25) := by
  rw [abs_mul, abs_fp16ToFloat (Or.inr ha), abs_fp16ToFloat (Or.inr hb), div_mul_div_comm,
    ← pow_add, Nat.cast_mul]

/-- The absolute value of an exact sum of one sign is the sum of the magnitudes, scaled. -/
theorem abs_fp16ToFloat_add {a b : Word} (ha : Normal a) (hb : Normal b)
    (hs : signBit a = signBit b) :
    |fp16ToFloat a + fp16ToFloat b| = ((magnitude a + magnitude b : ℕ) : ℚ) / 2 ^ 25 := by
  rw [fp16ToFloat_eq (Or.inr ha), fp16ToFloat_eq (Or.inr hb), ← add_div, ← Int.cast_add, abs_div,
    abs_of_pos (by positivity : (0 : ℚ) < 2 ^ 25), ← Int.cast_abs, signedMagnitude,
    signedMagnitude, hs, ← withSign_add, abs_withSign, Int.cast_natCast]

/-- A word that is not in the topmost exponent stands for a number below `2 ^ 16`. -/
theorem abs_fp16ToFloat_lt {w : Word} (h : exponent w ≤ 30) : |fp16ToFloat w| < 2 ^ 16 := by
  cases Nat.eq_zero_or_pos (exponent w) with
  | inl hzero =>
    have hfrac := (fracField w).isLt
    rw [abs_fp16ToFloat_subnormal hzero]
    exact (div_lt_two_pow_iff _ 24 16).mpr (by omega)
  | inr hpos =>
    have hmag := (magnitude_bounds ⟨hpos, h⟩).2
    rw [abs_fp16ToFloat (Or.inr ⟨hpos, h⟩)]
    exact (div_lt_two_pow_iff _ 25 16).mpr (by omega)

/-- Below the topmost exponent the two decoders agree. -/
theorem fp16ToReal_eq {w : Word} (h : exponent w ≤ 30) : fp16ToReal w = fp16ToFloat w := by
  have hfull : (expField w).toNat ≠ 0x1F := by
    rw [← exponent]
    omega
  have hfrac : (((fracField w).toNat <<< 13 : ℕ) : ℚ) / 2 ^ 23 = (fracField w).toNat / 1024 := by
    rw [Nat.shiftLeft_eq]
    push_cast
    ring
  have hexp : (((expField w).toNat + 127 - 15 : ℕ) : ℤ) - 127 = (expField w).toNat - 15 := by omega
  have hunit : (2 : ℚ) ^ (-14 : ℤ) = 1 / 16384 := by norm_num
  simp only [fp16ToReal, fp16ToFloat, if_neg hfull, float32, hfrac, hexp, hunit]
  split_ifs <;> ring

/-- In the topmost exponent the decoder of the testbench gives 99999. -/
theorem abs_fp16ToReal_full {w : Word} (h : exponent w = 31) : |fp16ToReal w| = 99999 := by
  have hexp : (expField w).toNat = 31 := h
  simp only [fp16ToReal, hexp]
  cases signBit w <;> norm_num

end MatrixAccelerator.Interface
