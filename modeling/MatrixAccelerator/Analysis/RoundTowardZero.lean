import MatrixAccelerator.Analysis.AdderValue
import MatrixAccelerator.Analysis.MultiplierValue
import MatrixAccelerator.Interface.AbsoluteValue
import Mathlib.Order.Bounds.Defs

/-!
# Rounding toward zero

The numbers a half-precision word can stand for, and the rounding of a rational to the
greatest of them that does not exceed its absolute value.  A result that holds the eleven
leading digits of the exact one is that rounding (`RoundsTowardZero.of_leading`), because
nothing of eleven digits lies between two neighbours; so the multiplier rounds toward zero
in the normal range, and the adder does for operands of like signs.
-/

set_option autoImplicit false

namespace MatrixAccelerator.Analysis

open MatrixAccelerator.Library MatrixAccelerator.Model MatrixAccelerator.Interface

/-- The values of the finite words: zero, subnormal and normal. -/
def finiteValues : Set ℚ := {v | ∃ w, exponent w ≤ 30 ∧ fp16ToFloat w = v}

/-- `r` is normal, and its absolute value is the greatest half-precision number that does
not exceed the absolute value of `x`. -/
structure RoundsTowardZero (x : ℚ) (r : Word) : Prop where
  normal : Normal r
  greatest : IsGreatest {v | v ∈ finiteValues ∧ v ≤ |x|} |fp16ToFloat r|

/-- The absolute value of a normal word is representable. -/
theorem finiteValues_abs {r : Word} (hr : Normal r) : |fp16ToFloat r| ∈ finiteValues := by
  obtain ⟨hlow, hhigh⟩ := magnitude_bounds hr
  obtain ⟨w, hw, hsign, hmag⟩ :=
    exists_normal false (significand_bounds hr.1).2 rfl hlow (lt_of_le_of_lt hhigh (by decide))
  refine ⟨w, hw.2, ?_⟩
  rw [fp16ToFloat_eq (Or.inr hw), signedMagnitude, hsign, hmag, abs_fp16ToFloat (Or.inr hr)]
  rfl

/-- A subnormal is below every normal word. -/
theorem abs_subnormal_le {w r : Word} (hw : exponent w = 0) (hr : Normal r) :
    |fp16ToFloat w| ≤ |fp16ToFloat r| := by
  have hfrac := (fracField w).isLt
  have hmag := (magnitude_bounds hr).1
  rw [abs_fp16ToFloat_subnormal hw, abs_fp16ToFloat (Or.inr hr)]
  exact (div_le_div_iff _ _ 24 1).mpr (by omega)

/-- INTERNAL: Of the normal words, none between the leading digits of a value and the value
itself. -/
theorem abs_normal_le {w r : Word} (hw : Normal w) (hr : Normal r) {x k : ℕ}
    (h : Leading 10 x (significand r) (exponent r + k))
    (hle : |fp16ToFloat w| ≤ (x : ℚ) / 2 ^ (25 + k)) : |fp16ToFloat w| ≤ |fp16ToFloat r| := by
  rw [abs_fp16ToFloat (Or.inr hw), div_le_div_iff] at hle
  rw [abs_fp16ToFloat (Or.inr hw), abs_fp16ToFloat (Or.inr hr)]
  have hbelow : magnitude w ≤ magnitude r := by
    by_contra hgt
    have hnext : (significand r + 1) * 2 ^ exponent r ≤ magnitude w :=
      Leading.not_between h.low (significand_bounds hw.1).2 (Nat.lt_of_not_le hgt)
    have hover : x < magnitude w * 2 ^ k := by
      calc x < (significand r + 1) * 2 ^ (exponent r + k) := h.lt
        _ = (significand r + 1) * 2 ^ exponent r * 2 ^ k := by rw [pow_add, Nat.mul_assoc]
        _ ≤ magnitude w * 2 ^ k := Nat.mul_le_mul_right _ hnext
    omega
  exact (div_le_div_iff _ _ 25 0).mpr (by omega)

/-- **Keeping the leading digits is rounding toward zero.** -/
theorem RoundsTowardZero.of_leading {s : ℚ} {r : Word} {x k : ℕ} (hr : Normal r)
    (h : Leading 10 x (significand r) (exponent r + k)) (hs : |s| = (x : ℚ) / 2 ^ (25 + k)) :
    RoundsTowardZero s r := by
  refine ⟨hr, ⟨finiteValues_abs hr, ?_⟩, ?_⟩
  · rw [hs, abs_fp16ToFloat (Or.inr hr), div_le_div_iff, magnitude, Nat.mul_assoc, ← pow_add]
    exact h.le
  · rintro v ⟨⟨w, hw, rfl⟩, hle⟩
    rw [hs] at hle
    cases le_or_gt (fp16ToFloat w) 0 with
    | inl hneg => exact le_trans hneg (abs_nonneg _)
    | inr hpos =>
      rw [← abs_of_pos hpos] at hle ⊢
      cases Nat.eq_zero_or_pos (exponent w) with
      | inl hzero => exact abs_subnormal_le hzero hr
      | inr hone => exact abs_normal_le ⟨hone, hw⟩ hr h hle

/-- **The multiplier rounds toward zero.**  For normal factors whose exact product is in
the normal range, the result is normal, its sign is that of the product, and its absolute
value is the greatest half-precision number that does not exceed the product's.
RTL: fp16_mult.v:9-48 -/
theorem fp16Mult_rounds_toward_zero (a b : Word) (ha : Normal a) (hb : Normal b)
    (hlow : 1 / 2 ^ 14 ≤ |fp16ToFloat a * fp16ToFloat b|)
    (hhigh : |fp16ToFloat a * fp16ToFloat b| < 2 ^ 16) :
    RoundsTowardZero (fp16ToFloat a * fp16ToFloat b) (fp16Mult a b) ∧
      signBit (fp16Mult a b) = xor (signBit a) (signBit b) := by
  have hproduct := abs_fp16ToFloat_mul ha hb
  rw [hproduct] at hlow hhigh
  have hlowNat := (one_div_le_div_iff _ 36 14).mp hlow
  have hhighNat := (div_lt_two_pow_iff _ 50 16).mp hhigh
  obtain ⟨hnormal, hsign, hlead⟩ := fp16Mult_normal ha hb hlowNat hhighNat
  exact ⟨RoundsTowardZero.of_leading hnormal hlead hproduct, hsign⟩

/-- `1.5` times `-1.5`. -/
theorem fp16Mult_rounds_toward_zero_of_halves :
    RoundsTowardZero (fp16ToFloat 0x3E00#16 * fp16ToFloat 0xBE00#16)
        (fp16Mult 0x3E00#16 0xBE00#16) ∧
      signBit (fp16Mult 0x3E00#16 0xBE00#16) = xor (signBit 0x3E00#16) (signBit 0xBE00#16) := by
  have hproduct := abs_fp16ToFloat_mul (a := 0x3E00#16) (b := 0xBE00#16) (by decide) (by decide)
  rw [show magnitude 0x3E00#16 * magnitude 0xBE00#16 = 9 * 2 ^ 48 by decide] at hproduct
  apply fp16Mult_rounds_toward_zero 0x3E00#16 0xBE00#16 (by decide) (by decide)
  · rw [hproduct]
    norm_num
  · rw [hproduct]
    norm_num

/-- **The adder rounds toward zero on like signs.**  For normal operands of one sign whose
exact sum is below the overflow threshold, the result is normal, has that sign, and its
absolute value is the greatest half-precision number that does not exceed the sum's.
RTL: fp16_add.v:9-84 -/
theorem fp16Add_rounds_toward_zero (a b : Word) (ha : Normal a) (hb : Normal b)
    (hs : signBit a = signBit b) (hhigh : |fp16ToFloat a + fp16ToFloat b| < 2 ^ 16) :
    RoundsTowardZero (fp16ToFloat a + fp16ToFloat b) (fp16Add a b) ∧
      signBit (fp16Add a b) = signBit a := by
  have hsum := abs_fp16ToFloat_add ha hb hs
  rw [hsum] at hhigh
  have hhighNat := (div_lt_two_pow_iff _ 25 16).mp hhigh
  obtain ⟨hnormal, hsign, hlead⟩ := fp16Add_like_signs ha hb hs hhighNat
  exact ⟨RoundsTowardZero.of_leading (k := 0) hnormal hlead hsum, hsign⟩

/-- `1` plus the smallest normal number, over an exponent difference of 14. -/
theorem fp16Add_rounds_toward_zero_of_one :
    RoundsTowardZero (fp16ToFloat 0x3C00#16 + fp16ToFloat 0x0400#16)
        (fp16Add 0x3C00#16 0x0400#16) ∧
      signBit (fp16Add 0x3C00#16 0x0400#16) = signBit 0x3C00#16 := by
  apply fp16Add_rounds_toward_zero 0x3C00#16 0x0400#16 (by decide) (by decide) (by decide)
  rw [abs_fp16ToFloat_add (by decide) (by decide) (by decide),
    show magnitude 0x3C00#16 + magnitude 0x0400#16 = 2 ^ 25 + 2 ^ 11 by decide]
  norm_num

end MatrixAccelerator.Analysis
