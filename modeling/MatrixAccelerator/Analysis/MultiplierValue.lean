import MatrixAccelerator.Interface.Magnitude
import MatrixAccelerator.Interface.MatrixProduct

/-!
# What the multiplier computes

The 22-bit product of two normal mantissas has its leading one at bit 20 or 21; the unit
keeps the ten bits below it and drops the rest.  As long as the product is in the normal
range the exponent does not wrap, and the result is the product cut after eleven digits.
-/

set_option autoImplicit false

namespace MatrixAccelerator.Analysis

open MatrixAccelerator.Library MatrixAccelerator.Model MatrixAccelerator.Interface

/-- INTERNAL: The wires of the multiplier, as numbers.
RTL: fp16_mult.v:25-26 -/
theorem mult_wires (a b : Word) :
    (Fp16Mult.mantMult a b).toNat = significand a * significand b % 2 ^ 22 ∧
      (Fp16Mult.expSum a b).toNat = (exponent a + exponent b + 49) % 64 := by
  have ha := (expField a).isLt
  have hb := (expField b).isLt
  have hma := (mantissa a).isLt
  have hmb := (mantissa b).isLt
  constructor
  · simp only [Fp16Mult.mantMult, BitVec.toNat_mul, BitVec.toNat_setWidth, significand]
    rw [Nat.mod_eq_of_lt (by omega : (mantissa a).toNat < 2 ^ 22),
      Nat.mod_eq_of_lt (by omega : (mantissa b).toNat < 2 ^ 22)]
  · simp only [Fp16Mult.expSum, BitVec.toNat_sub, BitVec.toNat_add, BitVec.toNat_setWidth,
      BitVec.toNat_ofNat, exponent]
    omega

/-- Whether `mant_mult[21]` is set. -/
def productCarry (a b : Word) : ℕ := if 2 ^ 21 ≤ significand a * significand b then 1 else 0

/-- The product of two significands carries once at most. -/
theorem productCarry_le (a b : Word) : productCarry a b ≤ 1 := by
  unfold productCarry
  split
  · exact le_rfl
  · exact Nat.zero_le 1

/-- INTERNAL: The multiplier past its zero test; the exponent is that of the product, kept
to five bits.
RTL: fp16_mult.v:24-45 -/
theorem fp16Mult_fields {a b : Word} (ha : magnitudeBits a ≠ 0#15) (hb : magnitudeBits b ≠ 0#15) :
    signBit (fp16Mult a b) = xor (signBit a) (signBit b) ∧
      exponent (fp16Mult a b) = (exponent a + exponent b + productCarry a b + 17) % 32 ∧
      (fracField (fp16Mult a b)).toNat =
        significand a * significand b / 2 ^ (10 + productCarry a b) % 1024 := by
  obtain ⟨hmant, hexp⟩ := mult_wires a b
  have hproduct : significand a * significand b < 2048 * 2048 :=
    Nat.mul_lt_mul'' (mantissa a).isLt (mantissa b).isLt
  rw [Nat.mod_eq_of_lt (by omega)] at hmant
  have hbit : (Fp16Mult.mantMult a b).getLsbD 21 =
      decide (2 ^ 21 ≤ significand a * significand b) := by
    rw [BitVec.getLsbD, hmant, Nat.testBit_eq_decide_div_mod_eq]
    congr 1
    exact propext (by omega)
  rw [fp16Mult, if_neg (not_or.mpr ⟨ha, hb⟩), hbit]
  unfold productCarry
  by_cases hcarry : 2 ^ 21 ≤ significand a * significand b
  · rw [if_pos (decide_eq_true hcarry), if_pos hcarry, signBit_assemble, fracField_assemble]
    unfold exponent at hexp ⊢
    rw [expField_assemble, BitVec.toNat_add, BitVec.toNat_setWidth, hexp,
      BitVec.extractLsb'_toNat, hmant, Nat.shiftRight_eq_div_pow]
    refine ⟨rfl, ?_, rfl⟩
    rw [BitVec.toNat_ofNat]
    omega
  · rw [if_neg fun h => hcarry (of_decide_eq_true h), if_neg hcarry, signBit_assemble,
      fracField_assemble]
    unfold exponent at hexp ⊢
    rw [expField_assemble, BitVec.toNat_setWidth, hexp, BitVec.extractLsb'_toNat, hmant,
      Nat.shiftRight_eq_div_pow]
    refine ⟨rfl, ?_, rfl⟩
    omega

/-- INTERNAL: The leading one of a product of two mantissas is at bit 20, or at bit 21. -/
theorem leading_product {a b : Word} (ha : 1 ≤ exponent a) (hb : 1 ≤ exponent b) :
    Leading 10 (magnitude a * magnitude b)
      (significand a * significand b / 2 ^ (10 + productCarry a b))
      (10 + productCarry a b + (exponent a + exponent b)) := by
  have hsa := significand_bounds ha
  have hsb := significand_bounds hb
  have hlow : 1024 * 1024 ≤ significand a * significand b := Nat.mul_le_mul hsa.1 hsb.1
  have hhigh : significand a * significand b < 2048 * 2048 := Nat.mul_lt_mul'' hsa.2 hsb.2
  have hproduct : magnitude a * magnitude b =
      significand a * significand b * 2 ^ (exponent a + exponent b) := by
    rw [magnitude, magnitude, pow_add]
    ring
  rw [hproduct]
  apply Leading.scale_iff.mpr
  unfold productCarry
  split
  · next hcarry => exact Leading.of_div hcarry hhigh
  · next hcarry => exact Leading.of_div hlow (Nat.lt_of_not_le hcarry)

/-- **The multiplier rounds toward zero.**  For normal operands with a product in the
normal range the result is normal, its sign is the product of the signs, and its mantissa
is the eleven leading digits of the product.
RTL: fp16_mult.v:9-48 -/
theorem fp16Mult_normal {a b : Word} (ha : Normal a) (hb : Normal b)
    (hlow : 2 ^ 36 ≤ magnitude a * magnitude b) (hhigh : magnitude a * magnitude b < 2 ^ 66) :
    Normal (fp16Mult a b) ∧ signBit (fp16Mult a b) = xor (signBit a) (signBit b) ∧
      Leading 10 (magnitude a * magnitude b) (significand (fp16Mult a b))
        (exponent (fp16Mult a b) + 25) := by
  obtain ⟨hsign, hexp, hfrac⟩ :=
    fp16Mult_fields (magnitudeBits_ne_zero ha.1) (magnitudeBits_ne_zero hb.1)
  have hlead := leading_product ha.1 hb.1
  have hle := hlead.lt_of_le hlow
  have hlt := hlead.lt_of_lt hhigh
  have hnormal : Normal (fp16Mult a b) := ⟨by omega, by omega⟩
  have hdigits := hlead.low
  have hdigits' := hlead.high
  have hsig : significand (fp16Mult a b) =
      significand a * significand b / 2 ^ (10 + productCarry a b) := by
    rw [significand_eq hnormal.1, hfrac]
    omega
  have hweight : exponent (fp16Mult a b) + 25 =
      10 + productCarry a b + (exponent a + exponent b) := by omega
  rw [hsig, hweight]
  exact ⟨hnormal, hsign, hlead⟩

end MatrixAccelerator.Analysis
