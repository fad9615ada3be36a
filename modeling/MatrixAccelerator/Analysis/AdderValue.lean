import MatrixAccelerator.Interface.Magnitude
import MatrixAccelerator.Interface.MatrixProduct
import Mathlib.Tactic.IntervalCases

/-!
# What the adder computes

The adder keeps two guard bits and no sticky bit, so the aligned smaller operand is
rounded down to a quarter of the larger one's last place.  `guardedSum` is the sum it
normalises; the result is that sum cut after eleven digits (`fp16Add_normalizes`).  With
like signs cutting twice is cutting once (`fp16Add_like_signs`); with opposite signs the
sum was rounded up before it is cut, which is faithful (`fp16Add_opposite_signs`), except
that the priority encoder has no code for a sum of 2.
-/

set_option autoImplicit false

namespace MatrixAccelerator.Analysis

open MatrixAccelerator.Library MatrixAccelerator.Model MatrixAccelerator.Interface

/-! ## The wires, as numbers -/

/-- INTERNAL: `{exp, mant}`, the key the operands are compared by. -/
theorem toNat_key (w : Word) :
    (expField w ++ mantissa w).toNat = exponent w * 2048 + significand w := by
  rw [BitVec.toNat_append, ← Nat.shiftLeft_add_eq_or_of_lt (mantissa w).isLt, Nat.shiftLeft_eq]
  rfl

/-- Words compared by exponent and then significand are compared by magnitude. -/
theorem magnitude_le_of_key {v w : Word}
    (h : exponent v * 2048 + significand v ≤ exponent w * 2048 + significand w) :
    exponent v ≤ exponent w ∧ magnitude v ≤ magnitude w := by
  have hsv : significand v < 2048 := (mantissa v).isLt
  have hsw : significand w < 2048 := (mantissa w).isLt
  have hexp : exponent v ≤ exponent w := by omega
  refine ⟨hexp, ?_⟩
  rcases Nat.eq_or_lt_of_le hexp with heq | hlt
  · rw [magnitude, magnitude, heq]
    exact Nat.mul_le_mul_right _ (by omega)
  · calc magnitude v ≤ 2048 * 2 ^ exponent v := Nat.mul_le_mul_right _ hsv.le
      _ = 1024 * 2 ^ (exponent v + 1) := by ring
      _ ≤ magnitude w := Nat.mul_le_mul (significand_bounds (Nat.one_le_of_lt hlt)).1
          (Nat.pow_le_pow_right Nat.two_pos hlt)

/-- INTERNAL: The operands in order of magnitude.
RTL: fp16_add.v:18-26 -/
theorem large_small (a b : Word) :
    (Fp16Add.large a b = a ∧ Fp16Add.small a b = b ∨
        Fp16Add.large a b = b ∧ Fp16Add.small a b = a) ∧
      exponent (Fp16Add.small a b) ≤ exponent (Fp16Add.large a b) ∧
      magnitude (Fp16Add.small a b) ≤ magnitude (Fp16Add.large a b) := by
  have hkey : Fp16Add.aIsLarger a b =
      decide (exponent b * 2048 + significand b < exponent a * 2048 + significand a) := by
    simp only [Fp16Add.aIsLarger, BitVec.lt_def, toNat_key]
  by_cases h : exponent b * 2048 + significand b < exponent a * 2048 + significand a
  · rw [decide_eq_true h] at hkey
    have hl : Fp16Add.large a b = a := by rw [Fp16Add.large, if_pos hkey]
    have hs : Fp16Add.small a b = b := by rw [Fp16Add.small, if_pos hkey]
    rw [hl, hs]
    exact ⟨Or.inl ⟨rfl, rfl⟩, magnitude_le_of_key h.le⟩
  · have hkey' : ¬ Fp16Add.aIsLarger a b = true := by rw [hkey, decide_eq_true_eq]; exact h
    have hl : Fp16Add.large a b = b := by rw [Fp16Add.large, if_neg hkey']
    have hs : Fp16Add.small a b = a := by rw [Fp16Add.small, if_neg hkey']
    rw [hl, hs]
    exact ⟨Or.inr ⟨rfl, rfl⟩, magnitude_le_of_key (Nat.le_of_not_lt h)⟩

/-- The aligned mantissa of the smaller operand, as a number. -/
def alignedSmallNat (a b : Word) : ℕ :=
  4 * significand (Fp16Add.small a b) /
    2 ^ (exponent (Fp16Add.large a b) - exponent (Fp16Add.small a b))

/-- The number that the adder normalises, in units of `2 ^ -27`. -/
def guardedSum (a b : Word) : ℕ :=
  (Fp16Add.mantSum a b).toNat * 2 ^ exponent (Fp16Add.large a b)

/-- **The operand rule.**  What holds of the operands in either order holds of the larger
and the smaller. -/
theorem large_small_of {P : Word → Word → Prop} {a b : Word} (h : P a b) (hswap : P b a) :
    P (Fp16Add.large a b) (Fp16Add.small a b) := by
  cases (large_small a b).1 with
  | inl horder => rwa [horder.1, horder.2]
  | inr horder => rwa [horder.1, horder.2]

/-- The swap keeps normal operands normal. -/
theorem large_small_normal {a b : Word} (ha : Normal a) (hb : Normal b) :
    Normal (Fp16Add.large a b) ∧ Normal (Fp16Add.small a b) :=
  large_small_of (P := fun x y => Normal x ∧ Normal y) ⟨ha, hb⟩ ⟨hb, ha⟩

/-- The swap keeps the signs different. -/
theorem large_small_opposite {a b : Word} (hs : signBit a ≠ signBit b) :
    signBit (Fp16Add.large a b) ≠ signBit (Fp16Add.small a b) :=
  large_small_of (P := fun x y => signBit x ≠ signBit y) hs hs.symm

/-- The aligned smaller significand does not exceed the larger one. -/
theorem alignedSmallNat_le (a b : Word) :
    alignedSmallNat a b ≤ 4 * significand (Fp16Add.large a b) := by
  obtain ⟨-, hexp, hmag⟩ := large_small a b
  rw [alignedSmallNat]
  rcases Nat.eq_or_lt_of_le hexp with heq | hlt
  · rw [magnitude, magnitude, heq] at hmag
    have hsig := Nat.le_of_mul_le_mul_right hmag (Nat.two_pow_pos _)
    exact le_trans (Nat.div_le_self _ _) (Nat.mul_le_mul_left 4 hsig)
  · have hsl := (significand_bounds (Nat.one_le_of_lt hlt)).1
    have hss : significand (Fp16Add.small a b) < 2048 := (mantissa (Fp16Add.small a b)).isLt
    have hhalf : 4 * significand (Fp16Add.small a b) /
        2 ^ (exponent (Fp16Add.large a b) - exponent (Fp16Add.small a b)) ≤
          4 * significand (Fp16Add.small a b) / 2 ^ 1 :=
      Nat.div_le_div_left (Nat.pow_le_pow_right Nat.two_pos (by omega)) (by decide)
    omega

/-- INTERNAL: `mant_sum`, as a number.
RTL: fp16_add.v:29-39 -/
theorem toNat_mantSum (a b : Word) :
    (Fp16Add.mantSum a b).toNat =
      if signBit (Fp16Add.large a b) = signBit (Fp16Add.small a b) then
        4 * significand (Fp16Add.large a b) + alignedSmallNat a b
      else 4 * significand (Fp16Add.large a b) - alignedSmallNat a b := by
  obtain ⟨-, hexp, -⟩ := large_small a b
  have hle := alignedSmallNat_le a b
  have hsl := (mantissa (Fp16Add.large a b)).isLt
  have hss := (mantissa (Fp16Add.small a b)).isLt
  have hel := (expField (Fp16Add.large a b)).isLt
  have hdiff : (Fp16Add.expDiff a b).toNat =
      exponent (Fp16Add.large a b) - exponent (Fp16Add.small a b) := by
    simp only [Fp16Add.expDiff, BitVec.toNat_sub, exponent] at hexp ⊢
    omega
  have happend : ∀ w : Word, (mantissa w ++ 0#2).toNat = 4 * significand w := by
    intro w
    rw [BitVec.toNat_append, ← Nat.shiftLeft_add_eq_or_of_lt (0#2).isLt, Nat.shiftLeft_eq,
      Nat.mul_comm, significand]
    rfl
  have hlarge : (Fp16Add.alignedLarge a b).toNat = 4 * significand (Fp16Add.large a b) :=
    happend _
  have hsmall : (Fp16Add.alignedSmall a b).toNat = alignedSmallNat a b := by
    rw [Fp16Add.alignedSmall, BitVec.toNat_ushiftRight, happend, hdiff, Nat.shiftRight_eq_div_pow]
    rfl
  have hsmallLt : alignedSmallNat a b ≤ 4 * significand (Fp16Add.small a b) := Nat.div_le_self _ _
  rw [significand] at hsmallLt
  rw [Fp16Add.mantSum]
  split
  · rw [BitVec.toNat_add, BitVec.toNat_setWidth, BitVec.toNat_setWidth, hlarge, hsmall,
      significand]
    omega
  · rw [BitVec.toNat_sub, BitVec.toNat_setWidth, BitVec.toNat_setWidth, hlarge, hsmall]
    rw [significand] at hle ⊢
    omega

/-- INTERNAL: Alignment rounds the smaller operand down to the guard bits, and is exact
over at most two places. -/
theorem alignedSmallNat_spec (a b : Word) :
    alignedSmallNat a b * 2 ^ exponent (Fp16Add.large a b) ≤
        4 * magnitude (Fp16Add.small a b) ∧
      4 * magnitude (Fp16Add.small a b) <
        (alignedSmallNat a b + 1) * 2 ^ exponent (Fp16Add.large a b) ∧
      (exponent (Fp16Add.large a b) ≤ exponent (Fp16Add.small a b) + 2 →
        alignedSmallNat a b * 2 ^ exponent (Fp16Add.large a b) =
          4 * magnitude (Fp16Add.small a b)) := by
  obtain ⟨d, hd⟩ := Nat.exists_eq_add_of_le (large_small a b).2.1
  have hscale : 2 ^ exponent (Fp16Add.large a b) =
      2 ^ d * 2 ^ exponent (Fp16Add.small a b) := by
    rw [hd, pow_add, Nat.mul_comm]
  have haligned : alignedSmallNat a b = 4 * significand (Fp16Add.small a b) / 2 ^ d := by
    rw [alignedSmallNat, hd, Nat.add_sub_cancel_left]
  have hmag : 4 * magnitude (Fp16Add.small a b) =
      4 * significand (Fp16Add.small a b) * 2 ^ exponent (Fp16Add.small a b) := by
    rw [magnitude, Nat.mul_assoc]
  rw [hscale, haligned, hmag, ← Nat.mul_assoc, ← Nat.mul_assoc]
  refine ⟨Nat.mul_le_mul_right _ (Nat.div_mul_le_self _ _), ?_, fun hle => ?_⟩
  · apply Nat.mul_lt_mul_of_pos_right _ (Nat.two_pow_pos _)
    exact (Nat.lt_mul_div_succ _ (Nat.two_pow_pos d)).trans_eq (Nat.mul_comm _ _)
  · have hdvd : 2 ^ d ∣ 4 * significand (Fp16Add.small a b) :=
      Dvd.dvd.mul_right (pow_dvd_pow 2 (by omega : d ≤ 2)) _
    rw [Nat.div_mul_cancel hdvd]

/-- INTERNAL: The guarded sum, as the larger operand and the aligned smaller one. -/
theorem guardedSum_eq (a b : Word) :
    guardedSum a b =
      if signBit (Fp16Add.large a b) = signBit (Fp16Add.small a b) then
        4 * magnitude (Fp16Add.large a b) +
          alignedSmallNat a b * 2 ^ exponent (Fp16Add.large a b)
      else
        4 * magnitude (Fp16Add.large a b) -
          alignedSmallNat a b * 2 ^ exponent (Fp16Add.large a b) := by
  unfold guardedSum magnitude
  rw [toNat_mantSum, ← Nat.mul_assoc]
  split
  · exact Nat.add_mul _ _ _
  · exact Nat.sub_mul _ _ _

/-- A positive sum is not the zero the adder tests for. -/
theorem mantSum_ne_zero {a b : Word} (h : 0 < (Fp16Add.mantSum a b).toNat) :
    Fp16Add.mantSum a b ≠ 0#14 := by
  intro h0
  rw [h0] at h
  exact absurd h (lt_irrefl 0)

/-! ## Normalisation -/

/-- INTERNAL: The priority encoder, by the position of the leading one.
RTL: fp16_add.v:42-57 -/
theorem shiftLeft_eq {m : BitVec 14} {i : ℕ} (hi : 2 ≤ i ∧ i ≤ 13) (hlow : 2 ^ i ≤ m.toNat)
    (hhigh : m.toNat < 2 ^ (i + 1)) : (Fp16Add.shiftLeft m).toNat = 13 - i := by
  have hone : m.getLsbD i = true := Nat.testBit_of_two_pow_le_and_two_pow_add_one_gt hlow hhigh
  have hzero : ∀ j, i < j → m.getLsbD j = false := fun j hj =>
    Nat.testBit_lt_two_pow (lt_of_lt_of_le hhigh (Nat.pow_le_pow_right Nat.two_pos hj))
  obtain ⟨h2, h13⟩ := hi
  unfold Fp16Add.shiftLeft
  interval_cases i <;>
    simp (disch := decide) only [hone, hzero, Bool.false_eq_true, ↓reduceIte] <;> rfl

/-- INTERNAL: For a sum whose leading one is at bit 12 or below, down to bit 2, the
encoder's shift brings it to bit 12. -/
theorem shiftLeft_spec {m : BitVec 14} (hlow : 4 ≤ m.toNat) (hhigh : m.toNat < 8192) :
    1 ≤ (Fp16Add.shiftLeft m).toNat ∧ (Fp16Add.shiftLeft m).toNat ≤ 11 ∧
      2 ^ 12 ≤ m.toNat * 2 ^ ((Fp16Add.shiftLeft m).toNat - 1) ∧
      m.toNat * 2 ^ ((Fp16Add.shiftLeft m).toNat - 1) < 2 ^ 13 := by
  have hlead := Nat.pow_log_le_self 2 (by omega : m.toNat ≠ 0)
  have hnext := Nat.lt_pow_succ_log_self (b := 2) (by decide) m.toNat
  have h2 : 2 ≤ Nat.log 2 m.toNat := (Nat.le_log_iff_pow_le Nat.one_lt_two (by omega)).mpr hlow
  have h12 : Nat.log 2 m.toNat < 13 := Nat.log_lt_of_lt_pow (by omega) hhigh
  rw [shiftLeft_eq ⟨h2, by omega⟩ hlead hnext]
  obtain ⟨d, hd⟩ := Nat.exists_eq_add_of_le (Nat.le_of_lt_succ h12)
  rw [show 13 - Nat.log 2 m.toNat - 1 = d by omega]
  refine ⟨by omega, by omega, ?_, ?_⟩
  · calc 2 ^ 12 = 2 ^ Nat.log 2 m.toNat * 2 ^ d := by rw [← pow_add, ← hd]
      _ ≤ m.toNat * 2 ^ d := Nat.mul_le_mul_right _ hlead
  · calc m.toNat * 2 ^ d < 2 ^ (Nat.log 2 m.toNat + 1) * 2 ^ d :=
          Nat.mul_lt_mul_of_pos_right hnext (Nat.two_pow_pos d)
      _ = 2 ^ 13 := by rw [← pow_add, Nat.add_right_comm, ← hd]

/-- With its leading one in place the sum is shifted up to it, and nothing falls out. -/
theorem toNat_normalizedMant {m : BitVec 14} (hlow : 4 ≤ m.toNat) (hhigh : m.toNat < 8192) :
    (Fp16Add.normalizedMant m).toNat =
      m.toNat * 2 ^ ((Fp16Add.shiftLeft m).toNat - 1) := by
  obtain ⟨-, -, -, hfits⟩ := shiftLeft_spec hlow hhigh
  have hshift : (if Fp16Add.shiftLeft m = 0 then 0 else (Fp16Add.shiftLeft m).toNat - 1) =
      (Fp16Add.shiftLeft m).toNat - 1 := by
    split
    · next h0 => rw [h0]; rfl
    · rfl
  rw [Fp16Add.normalizedMant, hshift, BitVec.toNat_shiftLeft, Nat.shiftLeft_eq]
  exact Nat.mod_eq_of_lt (by omega)

/-- INTERNAL: The adder past its zero tests.
RTL: fp16_add.v:72-83 -/
theorem fp16Add_of_ne_zero {a b : Word} (ha : magnitudeBits a ≠ 0#15) (hb : magnitudeBits b ≠ 0#15)
    (hne : Fp16Add.mantSum a b ≠ 0#14) :
    fp16Add a b =
      if 2 ^ 13 ≤ (Fp16Add.mantSum a b).toNat then
        assemble (signBit (Fp16Add.large a b)) (expField (Fp16Add.large a b) + 1#5)
          ((Fp16Add.mantSum a b).extractLsb' 3 10)
      else
        assemble (signBit (Fp16Add.large a b)) (Fp16Add.normalizedExp a b)
          ((Fp16Add.normalizedMant (Fp16Add.mantSum a b)).extractLsb' 2 10) := by
  have hbits := (Fp16Add.mantSum a b).isLt
  have hcarry : (Fp16Add.mantSum a b).getLsbD 13 = true ↔
      2 ^ 13 ≤ (Fp16Add.mantSum a b).toNat := by
    rw [BitVec.getLsbD, Nat.testBit_eq_decide_div_mod_eq, decide_eq_true_iff]
    omega
  unfold fp16Add
  rw [if_neg ha, if_neg hb, if_neg hne]
  simp only [hcarry]

/-- INTERNAL: The exponent of a sum, kept to five bits; a carry is a shift by none.
RTL: fp16_add.v:60, 75-81 -/
theorem exponent_fp16Add {a b : Word} (ha : magnitudeBits a ≠ 0#15) (hb : magnitudeBits b ≠ 0#15)
    (hne : Fp16Add.mantSum a b ≠ 0#14) :
    exponent (fp16Add a b) = (exponent (Fp16Add.large a b) + 33 -
      (Fp16Add.shiftLeft (Fp16Add.mantSum a b)).toNat) % 32 := by
  rw [fp16Add_of_ne_zero ha hb hne]
  split
  · next hcarry =>
    rw [shiftLeft_eq (i := 13) (by decide) hcarry (Fp16Add.mantSum a b).isLt]
    unfold exponent
    rw [expField_assemble, BitVec.toNat_add, BitVec.toNat_ofNat]
    omega
  · have hshift := (Fp16Add.shiftLeft (Fp16Add.mantSum a b)).isLt
    unfold exponent
    rw [expField_assemble, Fp16Add.normalizedExp, BitVec.toNat_sub, BitVec.toNat_add,
      BitVec.toNat_setWidth, BitVec.toNat_ofNat]
    omega

section Normalisation

variable {a b : Word} (ha : Normal a) (hb : Normal b)

include ha hb

/-- INTERNAL: With a carry the carry bit becomes the hidden bit, and the exponent is one
higher. -/
theorem fp16Add_carries (hcarry : 2 ^ 13 ≤ (Fp16Add.mantSum a b).toNat)
    (hhigh : guardedSum a b < 2 ^ 43) :
    Normal (fp16Add a b) ∧ signBit (fp16Add a b) = signBit (Fp16Add.large a b) ∧
      Leading 10 (guardedSum a b) (significand (fp16Add a b)) (exponent (fp16Add a b) + 2) := by
  have hne := mantSum_ne_zero (lt_of_lt_of_le (Nat.two_pow_pos 13) hcarry)
  have hlead : Leading 10 (guardedSum a b) ((Fp16Add.mantSum a b).toNat / 2 ^ 3)
      (3 + exponent (Fp16Add.large a b)) :=
    Leading.scale_iff.mpr (Leading.of_div hcarry (Fp16Add.mantSum a b).isLt)
  have hlt := hlead.lt_of_lt hhigh
  have hweight : 3 + exponent (Fp16Add.large a b) = exponent (Fp16Add.large a b) + 1 + 2 := by omega
  rw [hweight] at hlead
  rw [fp16Add_of_ne_zero (magnitudeBits_ne_zero ha.1) (magnitudeBits_ne_zero hb.1) hne,
    if_pos hcarry]
  apply assemble_leading _ _ _ hlead
  · rw [BitVec.extractLsb'_toNat, Nat.shiftRight_eq_div_pow]
  · rw [BitVec.toNat_add, BitVec.toNat_ofNat, ← exponent]
    omega
  · omega

/-- INTERNAL: Without one the encoder brings the leading one to the hidden bit. -/
theorem fp16Add_shifts (hsum : 4 ≤ (Fp16Add.mantSum a b).toNat)
    (hcarry : ¬ 2 ^ 13 ≤ (Fp16Add.mantSum a b).toNat) (hlow : 2 ^ 13 ≤ guardedSum a b) :
    Normal (fp16Add a b) ∧ signBit (fp16Add a b) = signBit (Fp16Add.large a b) ∧
      Leading 10 (guardedSum a b) (significand (fp16Add a b)) (exponent (fp16Add a b) + 2) := by
  have hne := mantSum_ne_zero (lt_of_lt_of_le (Nat.succ_pos 3) hsum)
  have hlarge := (large_small_normal ha hb).1.2
  obtain ⟨hsh1, hsh11, hnormLow, hnormHigh⟩ := shiftLeft_spec hsum (Nat.lt_of_not_le hcarry)
  have hnorm := toNat_normalizedMant hsum (Nat.lt_of_not_le hcarry)
  generalize hσ : (Fp16Add.shiftLeft (Fp16Add.mantSum a b)).toNat = σ at *
  have hscaled : (Fp16Add.mantSum a b).toNat * 2 ^ (σ - 1) * 2 ^ exponent (Fp16Add.large a b) =
      guardedSum a b * 2 ^ (σ - 1) := by
    unfold guardedSum
    ring
  have hlead : Leading 10 (guardedSum a b * 2 ^ (σ - 1))
      ((Fp16Add.mantSum a b).toNat * 2 ^ (σ - 1) / 2 ^ 2)
      (2 + exponent (Fp16Add.large a b)) := by
    rw [← hscaled]
    exact Leading.scale_iff.mpr (Leading.of_div hnormLow hnormHigh)
  have hroom : 13 + (σ - 1) < 10 + 1 + (2 + exponent (Fp16Add.large a b)) :=
    hlead.lt_of_le (by rw [pow_add]; exact Nat.mul_le_mul_right _ hlow)
  have hweight : 2 + exponent (Fp16Add.large a b) =
      exponent (Fp16Add.large a b) + 1 - σ + 2 + (σ - 1) := by omega
  rw [hweight] at hlead
  rw [fp16Add_of_ne_zero (magnitudeBits_ne_zero ha.1) (magnitudeBits_ne_zero hb.1) hne,
    if_neg hcarry]
  apply assemble_leading _ _ _ (Leading.scale_iff.mp hlead)
  · rw [BitVec.extractLsb'_toNat, hnorm, Nat.shiftRight_eq_div_pow]
  · rw [Fp16Add.normalizedExp, BitVec.toNat_sub, BitVec.toNat_add, BitVec.toNat_setWidth,
      BitVec.toNat_ofNat, hσ, ← exponent]
    omega
  · omega

/-- **The adder normalises its guarded sum.**  For normal operands and a guarded sum of at
least one last place, in the normal range, the result is normal, its sign is that of the
larger operand, and its mantissa is the eleven leading digits of the sum.
RTL: fp16_add.v:42-84 -/
theorem fp16Add_normalizes (hsum : 4 ≤ (Fp16Add.mantSum a b).toNat)
    (hlow : 2 ^ 13 ≤ guardedSum a b) (hhigh : guardedSum a b < 2 ^ 43) :
    Normal (fp16Add a b) ∧ signBit (fp16Add a b) = signBit (Fp16Add.large a b) ∧
      Leading 10 (guardedSum a b) (significand (fp16Add a b)) (exponent (fp16Add a b) + 2) := by
  by_cases hcarry : 2 ^ 13 ≤ (Fp16Add.mantSum a b).toNat
  · exact fp16Add_carries ha hb hcarry hhigh
  · exact fp16Add_shifts ha hb hsum hcarry hlow

end Normalisation

/-! ## Sums and differences -/

/-- **Like signs: the adder rounds toward zero.**
RTL: fp16_add.v:36-37, 62-84 -/
theorem fp16Add_like_signs {a b : Word} (ha : Normal a) (hb : Normal b)
    (hs : signBit a = signBit b) (hhigh : magnitude a + magnitude b < 2 ^ 41) :
    Normal (fp16Add a b) ∧ signBit (fp16Add a b) = signBit a ∧
      Leading 10 (magnitude a + magnitude b) (significand (fp16Add a b))
        (exponent (fp16Add a b)) := by
  obtain ⟨hl, -⟩ := large_small_normal ha hb
  have hsign : signBit (Fp16Add.large a b) = signBit a ∧
      signBit (Fp16Add.small a b) = signBit a :=
    large_small_of (P := fun x y => signBit x = signBit a ∧ signBit y = signBit a)
      ⟨rfl, hs.symm⟩ ⟨hs.symm, rfl⟩
  have htotal : magnitude (Fp16Add.large a b) + magnitude (Fp16Add.small a b) =
      magnitude a + magnitude b :=
    large_small_of (P := fun x y => magnitude x + magnitude y = magnitude a + magnitude b)
      rfl (Nat.add_comm _ _)
  have hmant := toNat_mantSum a b
  have hguard := guardedSum_eq a b
  rw [hsign.1, hsign.2, if_pos rfl] at hmant hguard
  have hsig := (significand_bounds hl.1).1
  obtain ⟨hfloor, hceil, -⟩ := alignedSmallNat_spec a b
  have hscaled : (magnitude a + magnitude b) * 2 ^ 2 = 4 * magnitude (Fp16Add.large a b) +
      4 * magnitude (Fp16Add.small a b) := by
    rw [← htotal]
    ring
  rw [Nat.add_mul, Nat.one_mul] at hceil
  have hwide : 2 ^ (12 + exponent (Fp16Add.large a b)) ≤ guardedSum a b := by
    rw [guardedSum, pow_add]
    exact Nat.mul_le_mul_right _ (by omega)
  have hlow : 2 ^ 13 ≤ guardedSum a b :=
    le_trans (Nat.pow_le_pow_right Nat.two_pos (by have := hl.1; omega)) hwide
  obtain ⟨hnormal, hsignr, hlead⟩ :=
    fp16Add_normalizes ha hb (by omega) hlow (by omega)
  have hroom := hlead.lt_of_le hwide
  refine ⟨hnormal, hsignr.trans hsign.1, ?_⟩
  apply (Leading.scale_iff (k := 2)).mp
  refine hlead.of_floor (k := exponent (Fp16Add.large a b)) (by omega) ?_ (by omega) (by omega)
  exact Dvd.intro_left _ rfl

/-- The operands whose difference the priority encoder has no code for: the larger one a
power of two, the smaller one its lower neighbour's mantissa one binade further down. -/
def EncoderMisses (a b : Word) : Prop :=
  exponent a = exponent b + 1 ∧ fracField a = 0#10 ∧ fracField b = 0x3FF#10 ∨
    exponent b = exponent a + 1 ∧ fracField b = 0#10 ∧ fracField a = 0x3FF#10

instance (a b : Word) : Decidable (EncoderMisses a b) := inferInstanceAs (Decidable (_ ∨ _))

/-- The encoder misses the leading one exactly when a power of two meets the largest significand of
the next lower exponent. -/
theorem encoderMisses_iff {a b : Word} (ha : Normal a) (hb : Normal b) :
    EncoderMisses a b ↔
      exponent (Fp16Add.large a b) = exponent (Fp16Add.small a b) + 1 ∧
        significand (Fp16Add.large a b) = 1024 ∧ significand (Fp16Add.small a b) = 2047 := by
  have hfrac : ∀ {w : Word}, Normal w → (fracField w = 0#10 ↔ significand w = 1024) ∧
      (fracField w = 0x3FF#10 ↔ significand w = 2047) := by
    intro w hw
    rw [significand_eq hw.1, ← BitVec.toNat_inj, ← BitVec.toNat_inj]
    simp only [BitVec.toNat_ofNat]
    omega
  obtain ⟨horder, hexp, -⟩ := large_small a b
  rw [EncoderMisses, (hfrac ha).1, (hfrac ha).2, (hfrac hb).1, (hfrac hb).2]
  rcases horder with ⟨hl, hs⟩ | ⟨hl, hs⟩ <;> rw [hl, hs] at hexp ⊢ <;> omega

/-- INTERNAL: The sum of two operands of opposite signs, which do not cancel, is at least
one last place unless the encoder misses it, and then it is 2; over an alignment that drops
bits it is at least half the larger mantissa. -/
theorem mantSum_of_opposite {a b : Word} (ha : Normal a) (hb : Normal b)
    (hs : signBit (Fp16Add.large a b) ≠ signBit (Fp16Add.small a b))
    (hne : magnitude (Fp16Add.small a b) < magnitude (Fp16Add.large a b)) :
    (EncoderMisses a b ∧ (Fp16Add.mantSum a b).toNat = 2) ∨
      (¬ EncoderMisses a b ∧ 4 ≤ (Fp16Add.mantSum a b).toNat ∧
        (exponent (Fp16Add.small a b) + 2 < exponent (Fp16Add.large a b) →
          2048 ≤ (Fp16Add.mantSum a b).toNat)) := by
  obtain ⟨hl, hsm⟩ := large_small_normal ha hb
  have hsl := significand_bounds hl.1
  have hss := significand_bounds hsm.1
  rw [toNat_mantSum a b, if_neg hs, encoderMisses_iff ha hb, alignedSmallNat]
  obtain ⟨d, hd⟩ := Nat.exists_eq_add_of_le (large_small a b).2.1
  rw [hd, Nat.add_sub_cancel_left]
  rcases Nat.lt_or_ge d 3 with hsmall | hbig
  · have hcases : d = 0 ∨ d = 1 ∨ d = 2 := by omega
    rcases hcases with rfl | rfl | rfl
    · have hsig : significand (Fp16Add.small a b) < significand (Fp16Add.large a b) := by
        rw [magnitude, magnitude, hd] at hne
        exact Nat.lt_of_mul_lt_mul_right hne
      omega
    · omega
    · omega
  · have heighth : 4 * significand (Fp16Add.small a b) / 2 ^ d ≤
        4 * significand (Fp16Add.small a b) / 2 ^ 3 :=
      Nat.div_le_div_left (Nat.pow_le_pow_right Nat.two_pos hbig) (by decide)
    omega

/-- Where the encoder misses, the difference is two. -/
theorem mantSum_of_missed {a b : Word} (ha : Normal a) (hb : Normal b)
    (hs : signBit (Fp16Add.large a b) ≠ signBit (Fp16Add.small a b)) (hmiss : EncoderMisses a b) :
    Fp16Add.mantSum a b = 2#14 := by
  obtain ⟨hexp, hl, hsm⟩ := (encoderMisses_iff ha hb).mp hmiss
  apply BitVec.eq_of_toNat_eq
  rw [toNat_mantSum, if_neg hs, alignedSmallNat, hexp, hl, hsm, Nat.add_sub_cancel_left]
  rfl

/-- **Opposite signs: the adder is faithful**, unless the encoder misses the sum.
RTL: fp16_add.v:36-60, 62-84 -/
theorem fp16Add_opposite_signs {a b : Word} (ha : Normal a) (hb : Normal b)
    (hs : signBit a ≠ signBit b) (hmiss : ¬ EncoderMisses a b)
    (hlow : 2 ^ 11 ≤ magnitude (Fp16Add.large a b) - magnitude (Fp16Add.small a b)) :
    Normal (fp16Add a b) ∧ signBit (fp16Add a b) = signBit (Fp16Add.large a b) ∧
      Faithful 10 (magnitude (Fp16Add.large a b) - magnitude (Fp16Add.small a b))
        (magnitude (fp16Add a b)) := by
  obtain ⟨hl, hsm⟩ := large_small_normal ha hb
  have hsign := large_small_opposite hs
  have hne : magnitude (Fp16Add.small a b) < magnitude (Fp16Add.large a b) := by omega
  obtain ⟨hm, -⟩ | ⟨-, hsum, hwide⟩ := mantSum_of_opposite ha hb hsign hne
  · exact absurd hm hmiss
  have hguard := guardedSum_eq a b
  rw [if_neg hsign] at hguard
  obtain ⟨hfloor, hceil, hexact⟩ := alignedSmallNat_spec a b
  have hscaled : (magnitude (Fp16Add.large a b) - magnitude (Fp16Add.small a b)) * 2 ^ 2 =
      4 * magnitude (Fp16Add.large a b) - 4 * magnitude (Fp16Add.small a b) := by omega
  have hhigh : magnitude (Fp16Add.large a b) < 2 ^ 41 := by
    refine lt_of_lt_of_le (leading_magnitude hl.1).bounds.2 (Nat.pow_le_pow_right Nat.two_pos ?_)
    have := hl.2
    omega
  rw [Nat.add_mul, Nat.one_mul] at hceil
  obtain ⟨hnormal, hsignr, hlead⟩ :=
    fp16Add_normalizes ha hb hsum (by omega) (by omega)
  refine ⟨hnormal, hsignr, Faithful.of_scale (k := 2) (le_trans (by decide) hlow) ?_⟩
  have hresult : magnitude (fp16Add a b) * 2 ^ 2 =
      significand (fp16Add a b) * 2 ^ (exponent (fp16Add a b) + 2) := by
    rw [magnitude, pow_add, Nat.mul_assoc]
  rw [hresult, hscaled]
  rcases Nat.lt_or_ge (exponent (Fp16Add.small a b) + 2) (exponent (Fp16Add.large a b))
    with hgap | hgap
  · -- bits are dropped, but then at most one place is lost to normalisation
    have hroom : 11 + exponent (Fp16Add.large a b) <
        10 + 1 + (exponent (fp16Add a b) + 2) := by
      apply hlead.lt_of_le
      rw [guardedSum, pow_add]
      exact Nat.mul_le_mul_right _ (hwide hgap)
    exact Faithful.of_ceil (k := exponent (Fp16Add.large a b)) hlead (by omega)
      (Dvd.intro_left _ rfl) (by omega) (by omega)
  · -- nothing is dropped by the alignment
    have hsame : guardedSum a b =
        4 * magnitude (Fp16Add.large a b) - 4 * magnitude (Fp16Add.small a b) := by
      rw [hguard, hexact hgap]
    rw [← hsame]
    exact Faithful.of_leading hlead

/-- Equal magnitudes of opposite signs cancel to the positive zero.
RTL: fp16_add.v:69-71 -/
theorem fp16Add_cancels {a b : Word} (ha : Normal a) (hb : Normal b)
    (hs : signBit a ≠ signBit b) (heq : magnitude a = magnitude b) : fp16Add a b = 0#16 := by
  have hlead := leading_magnitude ha.1
  rw [heq] at hlead
  obtain ⟨hsig, hexp⟩ := hlead.unique (leading_magnitude hb.1)
  have hsame : significand (Fp16Add.large a b) = significand (Fp16Add.small a b) ∧
      exponent (Fp16Add.large a b) = exponent (Fp16Add.small a b) :=
    large_small_of (P := fun x y => significand x = significand y ∧ exponent x = exponent y)
      ⟨hsig, hexp⟩ ⟨hsig.symm, hexp.symm⟩
  have hzero : (Fp16Add.mantSum a b).toNat = 0 := by
    rw [toNat_mantSum, if_neg (large_small_opposite hs), alignedSmallNat, hsame.1, hsame.2,
      Nat.sub_self, pow_zero, Nat.div_one, Nat.sub_self]
  rw [fp16Add, if_neg (magnitudeBits_ne_zero ha.1), if_neg (magnitudeBits_ne_zero hb.1),
    if_pos (BitVec.eq_of_toNat_eq hzero)]

end MatrixAccelerator.Analysis
