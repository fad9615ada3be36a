import MatrixAccelerator.Analysis.Cancellation
import MatrixAccelerator.Analysis.MultiplierValue

/-!
# Results outside the normal range

Both units compute the exponent of their result modulo 32 and test neither end of the
range.  A product beyond the range keeps the fields 31 and 0 for one binade on either side
and wraps outside; a difference below the range comes out with the field 0 in the binade
next to it, and with one of the largest fields below that.
-/

set_option autoImplicit false

namespace MatrixAccelerator.Analysis

open MatrixAccelerator.Library MatrixAccelerator.Model MatrixAccelerator.Interface

/-! ## Products -/

/-- A result for the exact value `x` that saturates: the field of the infinities from
`2 ^ 16` on, and the field of zero and the subnormals below `2 ^ -14`. -/
structure Saturates (x : ℚ) (r : Word) : Prop where
  overflow : 2 ^ 16 ≤ |x| → exponent r = 31
  underflow : 0 < |x| → |x| < 1 / 2 ^ 14 → exponent r = 0

/-- **When the multiplier saturates.**  For normal factors, if and only if the product is
at most one binade outside the normal range.
RTL: fp16_mult.v:25, 34-45 -/
theorem fp16Mult_saturates_iff (a b : Word) (ha : Normal a) (hb : Normal b) :
    Saturates (fp16ToFloat a * fp16ToFloat b) (fp16Mult a b) ↔
      1 / 2 ^ 15 ≤ |fp16ToFloat a * fp16ToFloat b| ∧
        |fp16ToFloat a * fp16ToFloat b| < 2 ^ 17 := by
  obtain ⟨-, hexp, -⟩ := fp16Mult_fields (magnitudeBits_ne_zero ha.1) (magnitudeBits_ne_zero hb.1)
  have hcarry := productCarry_le a b
  have hproduct := abs_fp16ToFloat_mul ha hb
  have hlead := leading_product ha.1 hb.1
  have hpos : 0 < |fp16ToFloat a * fp16ToFloat b| := by
    have := Nat.mul_pos (magnitude_pos ha.1) (magnitude_pos hb.1)
    rw [hproduct]
    positivity
  -- the bounds on the product, as bounds on the weight of its last leading digit
  have hlow : ∀ k, 2 ^ k ≤ magnitude a * magnitude b ↔
      k < 21 + productCarry a b + (exponent a + exponent b) := by
    intro k
    refine ⟨fun h => by have := hlead.lt_of_le h; omega, fun h => ?_⟩
    exact le_trans (Nat.pow_le_pow_right Nat.two_pos (by omega)) hlead.bounds.1
  have hrange := ha.2
  have hrange' := hb.2
  constructor
  · rintro ⟨hover, hunder⟩
    constructor
    · by_contra hsmall
      rw [not_le, hproduct, div_lt_one_div_iff _ 35 15, ← not_le, hlow] at hsmall
      have hzero := hunder hpos (by
        rw [hproduct, div_lt_one_div_iff _ 36 14, ← not_le, hlow]
        omega)
      omega
    · by_contra hlarge
      rw [not_lt, hproduct, two_pow_le_div_iff _ 50 17, hlow] at hlarge
      have hfull := hover (by
        rw [hproduct, two_pow_le_div_iff _ 50 16, hlow]
        omega)
      omega
  · rintro ⟨hleast, hmost⟩
    rw [hproduct, one_div_le_div_iff _ 35 15, hlow] at hleast
    rw [hproduct, div_lt_two_pow_iff _ 50 17, ← not_le, hlow] at hmost
    constructor
    · intro hover
      rw [hproduct, two_pow_le_div_iff _ 50 16, hlow] at hover
      omega
    · intro _ hunder
      rw [hproduct, div_lt_one_div_iff _ 36 14, ← not_le, hlow] at hunder
      omega

/-- `2 ^ 8` times `2 ^ 8` is `2 ^ 16`, an infinity. -/
theorem fp16Mult_saturates_iff_infinity :
    Saturates (fp16ToFloat 0x5C00#16 * fp16ToFloat 0x5C00#16) (fp16Mult 0x5C00#16 0x5C00#16) ↔
      1 / 2 ^ 15 ≤ |fp16ToFloat 0x5C00#16 * fp16ToFloat 0x5C00#16| ∧
        |fp16ToFloat 0x5C00#16 * fp16ToFloat 0x5C00#16| < 2 ^ 17 :=
  fp16Mult_saturates_iff 0x5C00#16 0x5C00#16 (by decide) (by decide)

/-- `2 ^ 15` times `2 ^ 15` comes out as `0.25`. -/
theorem fp16Mult_wraps :
    Normal 0x7800#16 ∧ fp16Mult 0x7800#16 0x7800#16 = 0x3400#16 ∧
      2 ^ 16 ≤ |fp16ToFloat 0x7800#16 * fp16ToFloat 0x7800#16| ∧
      ¬ Saturates (fp16ToFloat 0x7800#16 * fp16ToFloat 0x7800#16)
        (fp16Mult 0x7800#16 0x7800#16) := by
  have hover : 2 ^ 16 ≤ |fp16ToFloat 0x7800#16 * fp16ToFloat 0x7800#16| := by
    rw [abs_fp16ToFloat_mul (by decide) (by decide), two_pow_le_div_iff _ 50 16]
    decide
  exact ⟨by decide, by decide, hover, fun h => absurd (h.overflow hover) (by decide)⟩

/-! ## Differences -/

section Opposite

variable {a b : Word} (ha : Normal a) (hb : Normal b) (hs : signBit a ≠ signBit b)
  (hpos : 0 < magnitude (Fp16Add.large a b) - magnitude (Fp16Add.small a b))

include ha hb hs hpos

/-- INTERNAL: A difference below the normal range is one of neighbouring binades, which the
alignment does not round. -/
theorem guardedSum_of_tiny (hmiss : ¬ EncoderMisses a b)
    (hhigh : magnitude (Fp16Add.large a b) - magnitude (Fp16Add.small a b) < 2 ^ 11) :
    4 ≤ (Fp16Add.mantSum a b).toNat ∧ guardedSum a b =
      4 * (magnitude (Fp16Add.large a b) - magnitude (Fp16Add.small a b)) := by
  have hsign := large_small_opposite hs
  have hsmall := (large_small_normal ha hb).2
  obtain ⟨hm, -⟩ | ⟨-, hsum, hwide⟩ := mantSum_of_opposite ha hb hsign (by omega)
  · exact absurd hm hmiss
  have hguard := guardedSum_eq a b
  rw [if_neg hsign] at hguard
  obtain ⟨-, hceil, hexact⟩ := alignedSmallNat_spec a b
  have hclose : exponent (Fp16Add.large a b) ≤ exponent (Fp16Add.small a b) + 2 := by
    by_contra hfar
    have hweight : 2 ^ 4 ≤ 2 ^ exponent (Fp16Add.large a b) :=
      Nat.pow_le_pow_right Nat.two_pos (by have := hsmall.1; omega)
    have hbig : 2048 * 2 ^ exponent (Fp16Add.large a b) ≤ guardedSum a b :=
      Nat.mul_le_mul_right _ (hwide (Nat.lt_of_not_le hfar))
    rw [Nat.add_mul, Nat.one_mul] at hceil
    omega
  refine ⟨hsum, ?_⟩
  rw [hguard, hexact hclose]
  omega

/-- INTERNAL: The field of such a difference is 0 if its leading one is next to the normal
range, and otherwise wraps.
RTL: fp16_add.v:42-60, 80 -/
theorem exponent_of_tiny (hmiss : ¬ EncoderMisses a b)
    (hhigh : magnitude (Fp16Add.large a b) - magnitude (Fp16Add.small a b) < 2 ^ 11) :
    exponent (fp16Add a b) = 0 ↔
      2 ^ 10 ≤ magnitude (Fp16Add.large a b) - magnitude (Fp16Add.small a b) := by
  obtain ⟨hsum, hguard⟩ := guardedSum_of_tiny ha hb hs hpos hmiss hhigh
  have hlarge := (large_small_normal ha hb).1.1
  have hne := mantSum_ne_zero (lt_of_lt_of_le (Nat.succ_pos 3) hsum)
  have hlead := Nat.pow_log_le_self 2 (by omega : (Fp16Add.mantSum a b).toNat ≠ 0)
  have hnext := Nat.lt_pow_succ_log_self (b := 2) (by decide) (Fp16Add.mantSum a b).toNat
  have htwo : 2 ≤ Nat.log 2 (Fp16Add.mantSum a b).toNat :=
    (Nat.le_log_iff_pow_le Nat.one_lt_two (by omega)).mpr hsum
  rw [exponent_fp16Add (magnitudeBits_ne_zero ha.1) (magnitudeBits_ne_zero hb.1) hne]
  generalize hi : Nat.log 2 (Fp16Add.mantSum a b).toNat = i at *
  have hlow : 2 ^ (i + exponent (Fp16Add.large a b)) ≤ guardedSum a b := by
    rw [pow_add]
    exact Nat.mul_le_mul_right _ hlead
  have hup : guardedSum a b < 2 ^ (i + 1 + exponent (Fp16Add.large a b)) := by
    rw [pow_add]
    exact Nat.mul_lt_mul_of_pos_right hnext (Nat.two_pow_pos _)
  have hbelow : i + exponent (Fp16Add.large a b) < 13 :=
    (Nat.pow_lt_pow_iff_right Nat.one_lt_two).mp (lt_of_le_of_lt hlow (by omega))
  rw [shiftLeft_eq ⟨htwo, by omega⟩ hlead hnext]
  constructor
  · intro hzero
    have htop : i + exponent (Fp16Add.large a b) = 12 := by omega
    rw [htop] at hlow
    omega
  · intro hleast
    have htop : 12 < i + 1 + exponent (Fp16Add.large a b) := by
      apply (Nat.pow_lt_pow_iff_right Nat.one_lt_two).mp
      exact lt_of_le_of_lt (by omega) hup
    omega

omit hpos in
/-- INTERNAL: The missed difference is shifted as its neighbours are, so the field is 0 for
one power of two.
RTL: fp16_add.v:56, 60 -/
theorem exponent_of_missed (hmiss : EncoderMisses a b) :
    exponent (fp16Add a b) = 0 ↔
      magnitude (Fp16Add.large a b) - magnitude (Fp16Add.small a b) = 2 ^ 9 := by
  have hlarge := (large_small_normal ha hb).1.2
  obtain ⟨hexp, -, -⟩ := (encoderMisses_iff ha hb).mp hmiss
  have hsum := mantSum_of_missed ha hb (large_small_opposite hs) hmiss
  rw [difference_of_missed ha hb hmiss, Nat.pow_right_inj (le_refl 2),
    exponent_fp16Add (magnitudeBits_ne_zero ha.1) (magnitudeBits_ne_zero hb.1)
      (by rw [hsum]; decide), hsum, show (Fp16Add.shiftLeft 2#14).toNat = 11 from rfl]
  omega

end Opposite

/-- **When a tiny difference is flushed.**  For normal operands of opposite signs whose
exact sum is not zero and below the normal range, the exponent field of the result is 0 if
and only if the sum is in the binade next to the normal range, or, where the encoder misses
it, is `2 ^ -16`; in all other cases the field wraps.
RTL: fp16_add.v:41-84 -/
theorem fp16Add_flushes_iff (a b : Word) (ha : Normal a) (hb : Normal b)
    (hs : signBit a ≠ signBit b) (hpos : 0 < |fp16ToFloat a + fp16ToFloat b|)
    (htiny : |fp16ToFloat a + fp16ToFloat b| < 1 / 2 ^ 14) :
    exponent (fp16Add a b) = 0 ↔
      if EncoderMisses a b then |fp16ToFloat a + fp16ToFloat b| = 1 / 2 ^ 16
      else 1 / 2 ^ 15 ≤ |fp16ToFloat a + fp16ToFloat b| := by
  have hsum := abs_sum_of_opposite ha hb hs
  rw [hsum] at hpos htiny ⊢
  have hhigh := (div_lt_one_div_iff _ 11 14).mp htiny
  have hpos' : 0 < magnitude (Fp16Add.large a b) - magnitude (Fp16Add.small a b) := by
    apply Nat.pos_of_ne_zero
    intro h0
    rw [h0, Nat.cast_zero, zero_div] at hpos
    exact lt_irrefl _ hpos
  split
  · next hmiss =>
    rw [exponent_of_missed ha hb hs hmiss, div_eq_div_iff (by positivity) (by positivity),
      one_mul]
    constructor
    · intro heq
      rw [heq]
      norm_num
    · intro heq
      have hcast : ((magnitude (Fp16Add.large a b) - magnitude (Fp16Add.small a b) : ℕ) : ℚ) =
          ((2 ^ 9 : ℕ) : ℚ) := by
        push_cast
        linarith
      exact_mod_cast hcast
  · next hmiss =>
    rw [exponent_of_tiny ha hb hs hpos' hmiss hhigh]
    exact (one_div_le_div_iff _ 10 15).symm

/-- A difference that is a power of two below `2 ^ 11` is an exact sum below the normal range. -/
theorem abs_sum_of_neighbours (n : ℕ) {a b : Word} (ha : Normal a) (hb : Normal b)
    (hs : signBit a ≠ signBit b)
    (hn : magnitude (Fp16Add.large a b) - magnitude (Fp16Add.small a b) = 2 ^ n) (hn' : n < 11) :
    0 < |fp16ToFloat a + fp16ToFloat b| ∧ |fp16ToFloat a + fp16ToFloat b| < 1 / 2 ^ 14 := by
  rw [abs_sum_of_opposite ha hb hs, hn]
  refine ⟨by positivity, (div_lt_one_div_iff _ 11 14).mpr ?_⟩
  exact Nat.pow_lt_pow_right Nat.one_lt_two hn'

/-- `1.5` times the smallest normal number, less the smallest normal number. -/
theorem fp16Add_flushes_iff_half :
    exponent (fp16Add 0x0600#16 0x8400#16) = 0 ↔
      if EncoderMisses 0x0600#16 0x8400#16 then
        |fp16ToFloat 0x0600#16 + fp16ToFloat 0x8400#16| = 1 / 2 ^ 16
      else 1 / 2 ^ 15 ≤ |fp16ToFloat 0x0600#16 + fp16ToFloat 0x8400#16| := by
  obtain ⟨hpos, htiny⟩ := abs_sum_of_neighbours 10 (a := 0x0600#16) (b := 0x8400#16) (by decide)
    (by decide) (by decide) (by decide) (by decide)
  exact fp16Add_flushes_iff 0x0600#16 0x8400#16 (by decide) (by decide) (by decide) hpos htiny

/-- The smallest normal number less its neighbour, `-2 ^ -24`, comes out as `-256`. -/
theorem fp16Add_wraps :
    Normal 0x0400#16 ∧ Normal 0x8401#16 ∧ signBit 0x0400#16 ≠ signBit 0x8401#16 ∧
      0 < |fp16ToFloat 0x0400#16 + fp16ToFloat 0x8401#16| ∧
      |fp16ToFloat 0x0400#16 + fp16ToFloat 0x8401#16| < 1 / 2 ^ 14 ∧
      fp16Add 0x0400#16 0x8401#16 = 0xDC00#16 ∧ exponent (fp16Add 0x0400#16 0x8401#16) ≠ 0 := by
  obtain ⟨hpos, htiny⟩ := abs_sum_of_neighbours 1 (a := 0x0400#16) (b := 0x8401#16) (by decide)
    (by decide) (by decide) (by decide) (by decide)
  exact ⟨by decide, by decide, by decide, hpos, htiny, by decide, by decide⟩

end MatrixAccelerator.Analysis
