import MatrixAccelerator.Analysis.AdderValue
import MatrixAccelerator.Interface.AbsoluteValue

/-!
# Addition under cancellation

The sum of two normal words of opposite signs, compared with the exact sum as rationals.
Every binary place of the difference is one the encoder can reach, except that a sum of 2
shares the last code with sums from 4 on; those operands alone give a wrong result, three
times the exact one (`magnitude_of_missed`).
-/

set_option autoImplicit false

namespace MatrixAccelerator.Analysis

open MatrixAccelerator.Library MatrixAccelerator.Model MatrixAccelerator.Interface

/-- `r` is a faithful normal result for the exact value `s`: `s` itself where that is a
normal number, and otherwise one of the two adjacent normal numbers around it; always with
the sign of `s`. -/
structure FaithfulTo (s : ℚ) (r : Word) : Prop where
  normal : Normal r
  sign : signBit r = true ↔ s < 0
  exact : (∃ w, Normal w ∧ fp16ToFloat w = s) → fp16ToFloat r = s
  bracket : (¬ ∃ w, Normal w ∧ fp16ToFloat w = s) → ∃ lo hi, Normal lo ∧ Normal hi ∧
    fp16ToFloat lo < s ∧ s < fp16ToFloat hi ∧
    (∀ w, Normal w → ¬ (fp16ToFloat lo < fp16ToFloat w ∧ fp16ToFloat w < fp16ToFloat hi)) ∧
    (fp16ToFloat r = fp16ToFloat lo ∨ fp16ToFloat r = fp16ToFloat hi)

/-! ## Normal words as numbers -/

/-- A normal word is compared with a scaled integer by its signed magnitude. -/
theorem fp16ToFloat_lt_iff {w : Word} (hw : Normal w) (S : ℤ) :
    (fp16ToFloat w < (S : ℚ) / 2 ^ 25 ↔ signedMagnitude w < S) ∧
      ((S : ℚ) / 2 ^ 25 < fp16ToFloat w ↔ S < signedMagnitude w) ∧
      (fp16ToFloat w = (S : ℚ) / 2 ^ 25 ↔ signedMagnitude w = S) := by
  rw [fp16ToFloat_eq (Or.inr hw), div_lt_div_iff_of_pos_right (by norm_num),
    div_lt_div_iff_of_pos_right (by norm_num), div_left_inj' (by norm_num)]
  exact ⟨Int.cast_lt, Int.cast_lt, Int.cast_inj⟩

/-- INTERNAL: The two neighbours of a magnitude in the normal range, of either sign. -/
theorem exists_neighbours (sign : Bool) {x m e : ℕ} (h : Leading 10 x m e) (hlow : 2 ^ 11 ≤ x)
    (hhigh : x < 2047 * 2 ^ 30) :
    ∃ below above, Normal below ∧ Normal above ∧
      signedMagnitude below = withSign sign (m * 2 ^ e) ∧
      signedMagnitude above = withSign sign ((m + 1) * 2 ^ e) := by
  have hm := h.high
  have hnext : (m + 1) * 2 ^ e ≤ 2047 * 2 ^ 30 :=
    Leading.not_between h.low (by decide) (lt_of_le_of_lt h.le hhigh)
  have hweight := h.lt_of_le hlow
  have hfloor : 2 ^ 11 ≤ m * 2 ^ e := by
    calc 2 ^ 11 = 2 ^ 10 * 2 ^ 1 := rfl
      _ ≤ m * 2 ^ e := Nat.mul_le_mul h.low (Nat.pow_le_pow_right Nat.two_pos (by omega))
  have hceil : m * 2 ^ e ≤ (m + 1) * 2 ^ e := Nat.mul_le_mul_right _ (Nat.le_succ m)
  obtain ⟨below, hbelow, hbelowSign, hbelowMag⟩ := exists_normal sign hm rfl hfloor (by omega)
  -- the upper neighbour may be the first number of the next binade
  have hfits : ∃ n k, n < 2 ^ 11 ∧ (m + 1) * 2 ^ e = n * 2 ^ k := by
    rcases Nat.eq_or_lt_of_le (Nat.succ_le_of_lt hm) with hfull | hroom
    · refine ⟨2 ^ 10, e + 1, by decide, ?_⟩
      rw [show m + 1 = 2 ^ 11 from hfull]
      ring
    · exact ⟨m + 1, e, hroom, rfl⟩
  obtain ⟨n, k, hn, hy⟩ := hfits
  obtain ⟨above, habove, haboveSign, haboveMag⟩ :=
    exists_normal sign hn hy (le_trans hfloor hceil) (by omega)
  refine ⟨below, above, hbelow, habove, ?_, ?_⟩
  · rw [signedMagnitude, hbelowSign, hbelowMag]
  · rw [signedMagnitude, haboveSign, haboveMag]

/-- INTERNAL: No normal word lies strictly between them. -/
theorem not_between_neighbours (sign : Bool) {x m e : ℕ} (h : Leading 10 x m e) {w : Word}
    (hw : Normal w) :
    ¬ (withSign sign (m * 2 ^ e) < signedMagnitude w ∧
        signedMagnitude w < withSign sign ((m + 1) * 2 ^ e)) ∧
      ¬ (withSign sign ((m + 1) * 2 ^ e) < signedMagnitude w ∧
        signedMagnitude w < withSign sign (m * 2 ^ e)) := by
  have hgap : ¬ (m * 2 ^ e < magnitude w ∧ magnitude w < (m + 1) * 2 ^ e) := fun hw' =>
    Nat.not_lt_of_le (Leading.not_between h.low (significand_bounds hw.1).2 hw'.1) hw'.2
  have hle : m * 2 ^ e ≤ (m + 1) * 2 ^ e := Nat.mul_le_mul_right _ (Nat.le_succ m)
  generalize m * 2 ^ e = lower at hgap hle
  generalize (m + 1) * 2 ^ e = upper at hgap hle
  unfold signedMagnitude withSign
  cases sign <;> cases signBit w <;> simp only [Bool.false_eq_true, if_false, if_true] <;> omega

/-- A number that is not representable lies between two normal words with none between them, and a
word of either neighbouring magnitude is one of the two. -/
theorem bracket_of_leading {r : Word} {x m e : ℕ} (h : Leading 10 x m e)
    (hne : m * 2 ^ e ≠ x) (hlow : 2 ^ 11 ≤ x) (hhigh : x < 2047 * 2 ^ 30)
    (hy : magnitude r = m * 2 ^ e ∨ magnitude r = (m + 1) * 2 ^ e) :
    ∃ lo hi, Normal lo ∧ Normal hi ∧ signedMagnitude lo < withSign (signBit r) x ∧
      withSign (signBit r) x < signedMagnitude hi ∧
      (∀ w, Normal w → ¬ (signedMagnitude lo < signedMagnitude w ∧
        signedMagnitude w < signedMagnitude hi)) ∧
      (signedMagnitude r = signedMagnitude lo ∨ signedMagnitude r = signedMagnitude hi) := by
  obtain ⟨below, above, hbelow, habove, hbelowVal, haboveVal⟩ :=
    exists_neighbours (signBit r) h hlow hhigh
  have hlt : m * 2 ^ e < x := lt_of_le_of_ne h.le hne
  have hxlt := h.lt
  have hgap := fun w hw => not_between_neighbours (signBit r) h (w := w) hw
  have hnear : signedMagnitude r = signedMagnitude below ∨
      signedMagnitude r = signedMagnitude above := by
    rw [hbelowVal, haboveVal]
    exact hy.imp (congrArg _) (congrArg _)
  rw [← hbelowVal, ← haboveVal] at hgap
  -- the neighbour closer to zero is the lower one for a positive value only
  cases hσ : signBit r with
  | false =>
    refine ⟨below, above, hbelow, habove, ?_, ?_, fun w hw => (hgap w hw).1, hnear⟩
    · rw [hbelowVal, hσ]
      exact Int.ofNat_lt.mpr hlt
    · rw [haboveVal, hσ]
      exact Int.ofNat_lt.mpr hxlt
  | true =>
    refine ⟨above, below, habove, hbelow, ?_, ?_, fun w hw => (hgap w hw).2, hnear.symm⟩
    · rw [haboveVal, hσ]
      exact Int.neg_lt_neg (Int.ofNat_lt.mpr hxlt)
    · rw [hbelowVal, hσ]
      exact Int.neg_lt_neg (Int.ofNat_lt.mpr hlt)

/-- INTERNAL: A faithful rounding of the magnitude, with the right sign, is a faithful
result. -/
theorem FaithfulTo.of_magnitude {r : Word} {x : ℕ} (hr : Normal r) (hlow : 2 ^ 11 ≤ x)
    (hhigh : x < 2047 * 2 ^ 30) (h : Faithful 10 x (magnitude r)) :
    FaithfulTo ((withSign (signBit r) x : ℤ) / 2 ^ 25) r where
  normal := hr
  sign := by
    rw [div_lt_iff₀ (by norm_num), zero_mul, ← Int.cast_zero, Int.cast_lt, withSign]
    cases signBit r <;> simp
    omega
  exact := by
    rintro ⟨w, hw, hval⟩
    rw [(fp16ToFloat_lt_iff hw _).2.2] at hval
    have hx : x = magnitude w := by
      rw [signedMagnitude, withSign, withSign] at hval
      split_ifs at hval <;> omega
    have hfits := h.eq_of_fits (significand_bounds hw.1).2 (hx.trans rfl)
    rw [(fp16ToFloat_lt_iff hr _).2.2, signedMagnitude, hfits]
  bracket := by
    intro hnot
    obtain ⟨m, e, hlead, hy⟩ := h
    have hne : m * 2 ^ e ≠ x := by
      intro hx
      obtain ⟨below, -, hbelow, -, hbelowVal, -⟩ :=
        exists_neighbours (signBit r) hlead hlow hhigh
      refine hnot ⟨below, hbelow, ?_⟩
      rw [(fp16ToFloat_lt_iff hbelow _).2.2, hbelowVal, hx]
    obtain ⟨lo, hi, hlo, hhi, hlt, hgt, hgap, hnear⟩ :=
      bracket_of_leading hlead hne hlow hhigh (hy.imp id And.right)
    have hvalue := fun {w} (hw : Normal w) => fp16ToFloat_eq (Or.inr hw)
    refine ⟨lo, hi, hlo, hhi, (fp16ToFloat_lt_iff hlo _).1.mpr hlt,
      (fp16ToFloat_lt_iff hhi _).2.1.mpr hgt, fun w hw => ?_, ?_⟩
    · rw [hvalue hlo, hvalue hhi, (fp16ToFloat_lt_iff hw _).1, (fp16ToFloat_lt_iff hw _).2.1]
      exact hgap w hw
    · rw [hvalue hlo, hvalue hhi, (fp16ToFloat_lt_iff hr _).2.2, (fp16ToFloat_lt_iff hr _).2.2]
      exact hnear

/-! ## The adder -/

/-- Where the encoder misses, the exact difference is one unit of the smaller operand. -/
theorem difference_of_missed {a b : Word} (ha : Normal a) (hb : Normal b)
    (hmiss : EncoderMisses a b) :
    magnitude (Fp16Add.large a b) - magnitude (Fp16Add.small a b) =
      2 ^ exponent (Fp16Add.small a b) := by
  obtain ⟨hexp, hl, hsm⟩ := (encoderMisses_iff ha hb).mp hmiss
  rw [magnitude, magnitude, hexp, hl, hsm, pow_succ]
  omega

section Opposite

variable {a b : Word} (ha : Normal a) (hb : Normal b) (hs : signBit a ≠ signBit b)

include ha hb hs

/-- The exact sum of operands of opposite sign is the signed difference of their magnitudes. -/
theorem sum_of_opposite :
    fp16ToFloat a + fp16ToFloat b = (withSign (signBit (Fp16Add.large a b))
      (magnitude (Fp16Add.large a b) - magnitude (Fp16Add.small a b)) : ℤ) / 2 ^ 25 := by
  have hsum : signedMagnitude (Fp16Add.large a b) + signedMagnitude (Fp16Add.small a b) =
      signedMagnitude a + signedMagnitude b :=
    large_small_of
      (P := fun x y => signedMagnitude x + signedMagnitude y = signedMagnitude a + signedMagnitude b)
      rfl (Int.add_comm _ _)
  rw [fp16ToFloat_eq (Or.inr ha), fp16ToFloat_eq (Or.inr hb), ← add_div, ← Int.cast_add, ← hsum]
  unfold signedMagnitude
  rw [withSign_opposite (large_small_opposite hs) (large_small a b).2.2]

/-- Its absolute value is the difference of the magnitudes. -/
theorem abs_sum_of_opposite :
    |fp16ToFloat a + fp16ToFloat b| =
      ((magnitude (Fp16Add.large a b) - magnitude (Fp16Add.small a b) : ℕ) : ℚ) / 2 ^ 25 := by
  rw [sum_of_opposite ha hb hs, abs_div, abs_of_pos (by positivity : (0 : ℚ) < 2 ^ 25),
    ← Int.cast_abs, abs_withSign, Int.cast_natCast]

/-- A sum that is not below the normal range has a difference of at least twelve digits. -/
theorem le_of_sum_bound (h : 1 / 2 ^ 14 ≤ |fp16ToFloat a + fp16ToFloat b|) :
    2 ^ 11 ≤ magnitude (Fp16Add.large a b) - magnitude (Fp16Add.small a b) := by
  rw [abs_sum_of_opposite ha hb hs] at h
  exact (one_div_le_div_iff _ 11 14).mp h

/-- **The missed sum.**  The encoder's last code shifts a sum of 2 one place short, and the
result is three times the difference.
RTL: fp16_add.v:56, 59-60 -/
theorem magnitude_of_missed (hmiss : EncoderMisses a b)
    (hlow : 2 ^ 11 ≤ magnitude (Fp16Add.large a b) - magnitude (Fp16Add.small a b)) :
    magnitude (fp16Add a b) =
      3 * (magnitude (Fp16Add.large a b) - magnitude (Fp16Add.small a b)) := by
  obtain ⟨hl, hsm⟩ := large_small_normal ha hb
  obtain ⟨hexp, -, -⟩ := (encoderMisses_iff ha hb).mp hmiss
  rw [difference_of_missed ha hb hmiss] at hlow ⊢
  have hroom : 11 ≤ exponent (Fp16Add.small a b) :=
    (Nat.pow_le_pow_iff_right Nat.one_lt_two).mp hlow
  have hsum := mantSum_of_missed ha hb (large_small_opposite hs) hmiss
  have hresult : fp16Add a b = assemble (signBit (Fp16Add.large a b))
      (expField (Fp16Add.large a b) + 1#5 - 11#5) 512#10 := by
    rw [fp16Add, if_neg (magnitudeBits_ne_zero ha.1), if_neg (magnitudeBits_ne_zero hb.1),
      Fp16Add.normalizedExp, hsum]
    rfl
  have hexp' : (expField (Fp16Add.large a b) + 1#5 - 11#5).toNat =
      exponent (Fp16Add.small a b) - 9 := by
    have := hl.2
    rw [BitVec.toNat_sub, BitVec.toNat_add, ← exponent, hexp]
    simp only [BitVec.toNat_ofNat]
    omega
  obtain ⟨-, hsig, he⟩ := assemble_spec (signBit (Fp16Add.large a b))
    (expField (Fp16Add.large a b) + 1#5 - 11#5) 512#10 (m := 1536) (by decide) rfl hexp'
    (by have := hsm.2; omega)
  obtain ⟨d, hd⟩ := Nat.exists_eq_add_of_le hroom
  rw [hresult, magnitude, hsig, he, hd, show 11 + d - 9 = 2 + d by omega, pow_add, pow_add]
  ring

/-- INTERNAL: A missed sum is not faithful: the exact one is a power of two, and the result
three times it. -/
theorem not_faithful_of_missed (hmiss : EncoderMisses a b)
    (hlow : 2 ^ 11 ≤ magnitude (Fp16Add.large a b) - magnitude (Fp16Add.small a b)) :
    ¬ FaithfulTo (fp16ToFloat a + fp16ToFloat b) (fp16Add a b) := by
  intro hfaithful
  have hthree := magnitude_of_missed ha hb hs hmiss hlow
  have hpower := difference_of_missed ha hb hmiss
  have hhigh := (large_small_normal ha hb).2.2
  obtain ⟨w, hw, hsign, hmag⟩ := exists_normal (signBit (Fp16Add.large a b)) (n := 1) (by decide)
    (hpower.trans (Nat.one_mul _).symm) hlow
    (hpower ▸ Nat.pow_lt_pow_right Nat.one_lt_two (by omega))
  have hexact := hfaithful.exact ⟨w, hw, by
    rw [sum_of_opposite ha hb hs, (fp16ToFloat_lt_iff hw _).2.2, signedMagnitude, hsign, hmag]⟩
  rw [sum_of_opposite ha hb hs, (fp16ToFloat_lt_iff hfaithful.normal _).2.2,
    signedMagnitude, hthree, withSign, withSign] at hexact
  split_ifs at hexact <;> omega

end Opposite

/-- **When addition under cancellation is faithful.**  For normal operands of opposite
signs whose exact sum is at least `2 ^ -14` in absolute value, the result is faithful if
and only if the operands are not those whose difference the encoder misses.
RTL: fp16_add.v:17-84 -/
theorem cancellation_faithful_iff (a b : Word) (ha : Normal a) (hb : Normal b)
    (hs : signBit a ≠ signBit b) (hsum : 1 / 2 ^ 14 ≤ |fp16ToFloat a + fp16ToFloat b|) :
    FaithfulTo (fp16ToFloat a + fp16ToFloat b) (fp16Add a b) ↔ ¬ EncoderMisses a b := by
  have hlow := le_of_sum_bound ha hb hs hsum
  obtain ⟨-, hsm⟩ := large_small_normal ha hb
  constructor
  · exact fun hfaithful hmiss => not_faithful_of_missed ha hb hs hmiss hlow hfaithful
  · intro hmiss
    obtain ⟨hnormal, hsign, hround⟩ := fp16Add_opposite_signs ha hb hs hmiss hlow
    rw [sum_of_opposite ha hb hs, ← hsign]
    refine FaithfulTo.of_magnitude hnormal hlow ?_ hround
    have hmost := (magnitude_bounds (large_small_normal ha hb).1).2
    have hpos := magnitude_pos hsm.1
    omega

/-- `2.0 - 1.5`, where the encoder finds the leading one. -/
theorem cancellation_faithful_iff_half :
    FaithfulTo (fp16ToFloat 0x4000#16 + fp16ToFloat 0xBE00#16) (fp16Add 0x4000#16 0xBE00#16) :=
  (cancellation_faithful_iff 0x4000#16 0xBE00#16 (by decide) (by decide) (by decide) (by
    rw [sum_of_opposite (by decide) (by decide) (by decide), show withSign
      (signBit (Fp16Add.large 0x4000#16 0xBE00#16)) (magnitude (Fp16Add.large 0x4000#16 0xBE00#16) -
        magnitude (Fp16Add.small 0x4000#16 0xBE00#16)) = 2 ^ 24 by decide]
    norm_num [abs_of_pos])).mpr (by decide)

/-- `2.0 - 1.9990234375`, which is `2 ^ -10`, comes out as `3 * 2 ^ -10`. -/
theorem cancellation_not_faithful :
    Normal 0x4000#16 ∧ Normal 0xBFFF#16 ∧ signBit 0x4000#16 ≠ signBit 0xBFFF#16 ∧
      1 / 2 ^ 14 ≤ |fp16ToFloat 0x4000#16 + fp16ToFloat 0xBFFF#16| ∧
      ¬ FaithfulTo (fp16ToFloat 0x4000#16 + fp16ToFloat 0xBFFF#16)
        (fp16Add 0x4000#16 0xBFFF#16) := by
  refine ⟨by decide, by decide, by decide, ?_,
    not_faithful_of_missed (by decide) (by decide) (by decide) (by decide) (by decide)⟩
  rw [sum_of_opposite (by decide) (by decide) (by decide), show withSign
    (signBit (Fp16Add.large 0x4000#16 0xBFFF#16)) (magnitude (Fp16Add.large 0x4000#16 0xBFFF#16) -
      magnitude (Fp16Add.small 0x4000#16 0xBFFF#16)) = 2 ^ 15 by decide]
  norm_num [abs_of_pos]

end MatrixAccelerator.Analysis
