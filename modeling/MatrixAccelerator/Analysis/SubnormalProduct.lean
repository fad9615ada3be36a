import MatrixAccelerator.Analysis.MultiplierValue
import MatrixAccelerator.Interface.AbsoluteValue

/-!
# Products with a subnormal factor

A subnormal factor has no mantissa in the multiplier, but its fraction keeps it past the
zero test.  The result then is a power of two (or zero, or an infinity) that depends on the
exponent of the other factor alone; it stays below the exact product only if that exponent
field is 15, where the result is zero, or is greater and the product of the fractions makes
up for the power.
-/

set_option autoImplicit false

namespace MatrixAccelerator.Analysis

open MatrixAccelerator.Library MatrixAccelerator.Model MatrixAccelerator.Interface

/-- Both decoders read a value of at most `x` in absolute value. -/
structure DecodesBelow (x : ℚ) (r : Word) : Prop where
  float : |fp16ToFloat r| ≤ x
  real : |fp16ToReal r| ≤ x

/-- The multiplier commutes. -/
theorem fp16Mult_comm (a b : Word) : fp16Mult a b = fp16Mult b a := by
  have hsum : Fp16Mult.expSum a b = Fp16Mult.expSum b a := by
    unfold Fp16Mult.expSum
    rw [BitVec.add_comm ((expField a).setWidth 6)]
  have hmant : Fp16Mult.mantMult a b = Fp16Mult.mantMult b a := BitVec.mul_comm _ _
  unfold fp16Mult
  simp only [hsum, hmant, Bool.xor_comm (signBit a), or_comm]

section Subnormal

variable {a b : Word} (ha : exponent a = 0) (hfrac : fracField a ≠ 0#10)

include hfrac

/-- A subnormal word is not zero. -/
theorem magnitudeBits_subnormal : magnitudeBits a ≠ 0#15 := fun h0 =>
  hfrac ((magnitudeBits_eq_zero_iff a).mp h0).2

include ha

/-- INTERNAL: The result has no fraction, and its exponent is that of the other factor
moved by the bias.
RTL: fp16_mult.v:15-16, 25-45 -/
theorem fp16Mult_subnormal (hb : magnitudeBits b ≠ 0#15) :
    exponent (fp16Mult a b) = (exponent b + 17) % 32 ∧ fracField (fp16Mult a b) = 0#10 := by
  obtain ⟨-, hexp, hfrac'⟩ := fp16Mult_fields (magnitudeBits_subnormal hfrac) hb
  have hsig := significand_eq_zero ha
  have hcarry : productCarry a b = 0 := by
    unfold productCarry
    rw [hsig, Nat.zero_mul]
    rfl
  rw [hcarry, ha, Nat.zero_add, Nat.add_zero] at hexp
  rw [hsig, Nat.zero_mul, Nat.zero_div, Nat.zero_mod] at hfrac'
  exact ⟨hexp, BitVec.eq_of_toNat_eq hfrac'⟩

omit hfrac in
/-- The exact product with a subnormal is below four. -/
theorem product_lt_four (hb : exponent b ≤ 30) : |fp16ToFloat a| * |fp16ToFloat b| < 4 := by
  have hfrac := (fracField a).isLt
  have hsmall : |fp16ToFloat a| < 1 / 2 ^ 14 := by
    rw [abs_fp16ToFloat_subnormal ha]
    exact (div_lt_one_div_iff _ 10 14).mpr hfrac
  calc |fp16ToFloat a| * |fp16ToFloat b| ≤ |fp16ToFloat a| * 2 ^ 16 :=
        mul_le_mul_of_nonneg_left (abs_fp16ToFloat_lt hb).le (abs_nonneg _)
    _ < 1 / 2 ^ 14 * 2 ^ 16 := mul_lt_mul_of_pos_right hsmall (by positivity)
    _ = 4 := by norm_num

/-- INTERNAL: A result with a finite exponent field, as a power of two. -/
theorem abs_fp16Mult_subnormal (hb : magnitudeBits b ≠ 0#15) {e : ℕ}
    (he : (exponent b + 17) % 32 = e) (hnormal : 1 ≤ e ∧ e ≤ 30) :
    |fp16ToFloat (fp16Mult a b)| = ((2 ^ (10 + e) : ℕ) : ℚ) / 2 ^ 25 := by
  obtain ⟨hexp, hzero⟩ := fp16Mult_subnormal ha hfrac hb
  rw [he] at hexp
  have hr : Normal (fp16Mult a b) := ⟨hexp ▸ hnormal.1, hexp ▸ hnormal.2⟩
  rw [abs_fp16ToFloat (Or.inr hr), magnitude, significand_eq hr.1, hzero, hexp, pow_add]
  rfl

/-- INTERNAL: Below the exponent of one half the result is at least 4, and at it an
infinity. -/
theorem not_decodesBelow_of_lt (hb : magnitudeBits b ≠ 0#15) (hlow : exponent b ≤ 14) :
    ¬ DecodesBelow (|fp16ToFloat a| * |fp16ToFloat b|) (fp16Mult a b) := by
  have hsmall := product_lt_four (a := a) (b := b) ha (by omega)
  intro h
  rcases Nat.eq_or_lt_of_le hlow with hhalf | hbelow
  · have hfull : exponent (fp16Mult a b) = 31 := by
      rw [(fp16Mult_subnormal ha hfrac hb).1, hhalf]
    have hreal := h.real
    rw [abs_fp16ToReal_full hfull] at hreal
    linarith
  · have hfloat := h.float
    rw [abs_fp16Mult_subnormal ha hfrac hb (e := exponent b + 17) (by omega) (by omega)] at hfloat
    have hfour : (2 : ℚ) ^ 2 ≤ ((2 ^ (10 + (exponent b + 17)) : ℕ) : ℚ) / 2 ^ 25 :=
      (two_pow_le_div_iff _ 25 2).mpr (Nat.pow_le_pow_right Nat.two_pos (by omega))
    linarith

/-- INTERNAL: Above the exponent of one the power of two has to fit into the product of the
fraction and the other mantissa. -/
theorem decodesBelow_iff_of_gt (hb : 16 ≤ exponent b) (hhigh : exponent b ≤ 30) :
    DecodesBelow (|fp16ToFloat a| * |fp16ToFloat b|) (fp16Mult a b) ↔
      2 ^ 19 ≤ (fracField a).toNat * (1024 + (fracField b).toNat) := by
  have hone : 1 ≤ exponent b := by omega
  have hbits := magnitudeBits_ne_zero hone
  have hvalue := abs_fp16Mult_subnormal ha hfrac hbits (e := exponent b - 15) (by omega) (by omega)
  have hfinite : exponent (fp16Mult a b) ≤ 30 := by
    rw [(fp16Mult_subnormal ha hfrac hbits).1]
    omega
  obtain ⟨d, hd⟩ := Nat.exists_eq_add_of_le hb
  have hproduct : |fp16ToFloat a| * |fp16ToFloat b| =
      (((fracField a).toNat * (1024 + (fracField b).toNat) * 2 ^ (d + 16) : ℕ) : ℚ) /
        2 ^ (25 + 24) := by
    rw [abs_fp16ToFloat_subnormal ha, abs_fp16ToFloat (Or.inr ⟨hone, hhigh⟩), magnitude,
      significand_eq hone, hd, Nat.add_comm 16 d]
    push_cast
    ring
  have hpower : 2 ^ (10 + (exponent b - 15)) * 2 ^ 24 = 2 ^ 19 * 2 ^ (d + 16) := by
    rw [hd, ← pow_add, ← pow_add]
    congr 1
    omega
  have hle : |fp16ToFloat (fp16Mult a b)| ≤ |fp16ToFloat a| * |fp16ToFloat b| ↔
      2 ^ 19 ≤ (fracField a).toNat * (1024 + (fracField b).toNat) := by
    rw [hvalue, hproduct, div_le_div_iff, hpower]
    exact Nat.mul_le_mul_right_iff (Nat.two_pow_pos (d + 16))
  constructor
  · exact fun h => hle.mp h.float
  · intro h
    refine ⟨hle.mpr h, ?_⟩
    rw [fp16ToReal_eq hfinite]
    exact hle.mpr h

/-- INTERNAL: For one order of the factors.  An exponent field of 15 gives the field 0, and
with it a zero. -/
theorem decodesBelow_iff (hb : exponent b ≤ 30) :
    DecodesBelow (|fp16ToFloat a| * |fp16ToFloat b|) (fp16Mult a b) ↔
      magnitudeBits b = 0#15 ∨ exponent b = 15 ∨
        16 ≤ exponent b ∧ 2 ^ 19 ≤ (fracField a).toNat * (1024 + (fracField b).toNat) := by
  have hnonneg : 0 ≤ |fp16ToFloat a| * |fp16ToFloat b| :=
    mul_nonneg (abs_nonneg _) (abs_nonneg _)
  have hzero : ∀ r, magnitudeBits r = 0#15 →
      DecodesBelow (|fp16ToFloat a| * |fp16ToFloat b|) r := by
    intro r hr
    have hexp := ((magnitudeBits_eq_zero_iff r).mp hr).1
    have hvalue : |fp16ToFloat r| ≤ |fp16ToFloat a| * |fp16ToFloat b| := by
      rw [fp16ToFloat_of_zero hr, abs_zero]
      exact hnonneg
    refine ⟨hvalue, ?_⟩
    rw [fp16ToReal_eq (by omega)]
    exact hvalue
  by_cases hbits : magnitudeBits b = 0#15
  · have hresult : fp16Mult a b = 0#16 := if_pos (Or.inr hbits)
    rw [hresult]
    exact iff_of_true (hzero 0#16 magnitudeBits_zero) (Or.inl hbits)
  -- below 15 the exponent of the product wraps, at 15 the product is a zero
  rcases Nat.lt_trichotomy (exponent b) 15 with hlow | heq | hhigh
  · have hnot := not_decodesBelow_of_lt ha hfrac hbits (Nat.le_of_lt_succ hlow)
    refine iff_of_false hnot ?_
    rintro (h | h | ⟨h, -⟩)
    · exact hbits h
    · omega
    · omega
  · obtain ⟨hexp, hfrac'⟩ := fp16Mult_subnormal ha hfrac hbits
    rw [heq] at hexp
    have hresult := (magnitudeBits_eq_zero_iff (fp16Mult a b)).mpr ⟨hexp, hfrac'⟩
    exact iff_of_true (hzero _ hresult) (Or.inr (Or.inl heq))
  · rw [decodesBelow_iff_of_gt ha hfrac hhigh hb]
    constructor
    · exact fun h => Or.inr (Or.inr ⟨hhigh, h⟩)
    · rintro (h | h | ⟨-, h⟩)
      · exact absurd h hbits
      · omega
      · exact h

end Subnormal

/-- **When a subnormal factor is harmless.**  The product of a subnormal and a finite word,
in either order, decodes to at most the exact product if and only if the other factor is
zero, has the exponent field 15, or has a greater one and its mantissa times the fraction
reaches `2 ^ 19`.
RTL: fp16_mult.v:12-48 -/
theorem subnormal_product_iff (a b : Word) (ha : exponent a = 0) (hfrac : fracField a ≠ 0#10)
    (hb : exponent b ≤ 30) :
    DecodesBelow (|fp16ToFloat a| * |fp16ToFloat b|) (fp16Mult a b) ∧
        DecodesBelow (|fp16ToFloat a| * |fp16ToFloat b|) (fp16Mult b a) ↔
      magnitudeBits b = 0#15 ∨ exponent b = 15 ∨
        16 ≤ exponent b ∧ 2 ^ 19 ≤ (fracField a).toNat * (1024 + (fracField b).toNat) := by
  rw [fp16Mult_comm b a, and_self]
  exact decodesBelow_iff ha hfrac hb

/-- The largest subnormal times `2`. -/
theorem subnormal_product_iff_two :
    DecodesBelow (|fp16ToFloat 0x03FF#16| * |fp16ToFloat 0x4000#16|)
          (fp16Mult 0x03FF#16 0x4000#16) ∧
        DecodesBelow (|fp16ToFloat 0x03FF#16| * |fp16ToFloat 0x4000#16|)
          (fp16Mult 0x4000#16 0x03FF#16) ↔
      magnitudeBits 0x4000#16 = 0#15 ∨ exponent 0x4000#16 = 15 ∨
        16 ≤ exponent 0x4000#16 ∧
          2 ^ 19 ≤ (fracField 0x03FF#16).toNat * (1024 + (fracField 0x4000#16).toNat) :=
  subnormal_product_iff 0x03FF#16 0x4000#16 (by decide) (by decide) (by decide)

/-- The smallest subnormal times `2 ^ -2`, which is `2 ^ -26`, comes out as `2 ^ 15`. -/
theorem subnormal_product_blows_up :
    exponent 0x0001#16 = 0 ∧ fracField 0x0001#16 ≠ 0#10 ∧ exponent 0x3400#16 ≤ 30 ∧
      fp16Mult 0x0001#16 0x3400#16 = 0x7800#16 ∧
      ¬ DecodesBelow (|fp16ToFloat 0x0001#16| * |fp16ToFloat 0x3400#16|)
        (fp16Mult 0x0001#16 0x3400#16) :=
  ⟨by decide, by decide, by decide, by decide,
    not_decodesBelow_of_lt (by decide) (by decide) (by decide) (by decide)⟩

end MatrixAccelerator.Analysis
