import MatrixAccelerator.Analysis.AdderValue
import MatrixAccelerator.Analysis.MultiplierValue
import MatrixAccelerator.Interface.ExactProduct

/-!
# Exactness on integers

Integers below 2048 have eleven digits, so a product or a sum of them that stays below
2048 is its own leading digits, and cutting does not change it.  The operands the encoder
misses are never integers in this range.  By induction over the accumulation no rounding
takes place at all.
-/

set_option autoImplicit false

namespace MatrixAccelerator.Analysis

open MatrixAccelerator.Library MatrixAccelerator.Model MatrixAccelerator.Interface

/-- A zero or normal word that stands for an integer. -/
structure EncodesInteger (w : Word) : Prop where
  zeroOrNormal : ZeroOrNormal w
  integer : ∃ x : ℤ, fp16ToFloat w = x

/-- A word stands for an integer when its signed magnitude is that integer, scaled. -/
theorem fp16ToFloat_eq_int_iff {w : Word} (h : ZeroOrNormal w) (x : ℤ) :
    fp16ToFloat w = x ↔ signedMagnitude w = x * 2 ^ 25 := by
  rw [fp16ToFloat_eq h, div_eq_iff (by norm_num)]
  constructor
  · intro heq
    exact_mod_cast heq
  · intro heq
    rw [heq]
    push_cast
    ring

/-- The magnitude of a word that stands for an integer. -/
theorem EncodesInteger.exists_magnitude {w : Word} (h : EncodesInteger w) :
    ∃ n, magnitude w = n * 2 ^ 25 ∧ fp16ToFloat w = withSign (signBit w) n := by
  obtain ⟨hw, x, hx⟩ := h
  have hsigned := (fp16ToFloat_eq_int_iff hw x).mp hx
  have hmag : magnitude w = x.natAbs * 2 ^ 25 := by
    have := congrArg Int.natAbs hsigned
    rwa [signedMagnitude, natAbs_withSign, Int.natAbs_mul] at this
  refine ⟨x.natAbs, hmag, ?_⟩
  rw [fp16ToFloat_eq_int_iff hw, signedMagnitude, hmag, withSign_mul]
  rfl

/-- A normal word of such a magnitude stands for an integer. -/
theorem encodesInteger_of_magnitude {w : Word} (h : Normal w) {n : ℕ}
    (hm : magnitude w = n * 2 ^ 25) : EncodesInteger w ∧ fp16ToFloat w = withSign (signBit w) n := by
  have hvalue : fp16ToFloat w = (withSign (signBit w) n : ℤ) := by
    rw [fp16ToFloat_eq_int_iff (Or.inr h), signedMagnitude, hm, withSign_mul]
    rfl
  exact ⟨⟨Or.inr h, _, hvalue⟩, hvalue⟩

theorem encodesInteger_zero : EncodesInteger 0#16 ∧ fp16ToFloat 0#16 = 0 := by
  have hzero := fp16ToFloat_of_zero magnitudeBits_zero
  exact ⟨⟨Or.inl magnitudeBits_zero, 0, hzero.trans Int.cast_zero.symm⟩, hzero⟩

/-- The size of a small integer, as a natural number. -/
theorem abs_cast_lt {z : ℤ} (h : |(z : ℚ)| < 2048) : z.natAbs < 2048 := by
  rw [← Int.cast_abs, Int.abs_eq_natAbs] at h
  exact_mod_cast h

/-- **An integer product below 2048 is exact.** -/
theorem fp16Mult_integer {a b : Word} (ha : EncodesInteger a) (hb : EncodesInteger b)
    (h : |fp16ToFloat a * fp16ToFloat b| < 2048) :
    EncodesInteger (fp16Mult a b) ∧
      fp16ToFloat (fp16Mult a b) = fp16ToFloat a * fp16ToFloat b := by
  rcases ha.zeroOrNormal with hza | hna
  · rw [fp16Mult, if_pos (Or.inl hza), fp16ToFloat_of_zero hza, zero_mul]
    exact encodesInteger_zero
  rcases hb.zeroOrNormal with hzb | hnb
  · rw [fp16Mult, if_pos (Or.inr hzb), fp16ToFloat_of_zero hzb, mul_zero]
    exact encodesInteger_zero
  obtain ⟨m, hma, hva⟩ := ha.exists_magnitude
  obtain ⟨n, hmb, hvb⟩ := hb.exists_magnitude
  have hproduct : magnitude a * magnitude b = m * n * 2 ^ 50 := by
    rw [hma, hmb]
    ring
  have hpos := Nat.mul_pos (magnitude_pos hna.1) (magnitude_pos hnb.1)
  rw [hva, hvb, ← Int.cast_mul] at h ⊢
  have hsmall : m * n < 2048 := by
    have := abs_cast_lt h
    rwa [Int.natAbs_mul, natAbs_withSign, natAbs_withSign] at this
  have hrange : 2 ^ 36 ≤ magnitude a * magnitude b ∧ magnitude a * magnitude b < 2 ^ 66 := by
    rw [hproduct] at hpos ⊢
    omega
  obtain ⟨hnormal, hsign, hlead⟩ := fp16Mult_normal hna hnb hrange.1 hrange.2
  have hexact := hlead.eq_of_fits hsmall hproduct
  have hmag : magnitude (fp16Mult a b) = m * n * 2 ^ 25 := by
    rw [hproduct, pow_add, ← Nat.mul_assoc, ← magnitude] at hexact
    omega
  obtain ⟨hint, hvalue⟩ := encodesInteger_of_magnitude hnormal hmag
  refine ⟨hint, ?_⟩
  rw [hvalue, hsign, withSign_xor]

/-- The encoder finds the leading one of every sum of integers. -/
theorem not_encoderMisses_of_integer {a b : Word} (ha : Normal a) (hb : Normal b) {m n : ℕ}
    (hma : magnitude a = m * 2 ^ 25) (hmb : magnitude b = n * 2 ^ 25) (hm : m < 2048)
    (hn : n < 2048) : ¬ EncoderMisses a b := by
  intro hmiss
  obtain ⟨hexp, hl, hsm⟩ := (encoderMisses_iff ha hb).mp hmiss
  -- the larger one is 2048 and the smaller one 2047 times the same power of two
  have hlarge : magnitude (Fp16Add.large a b) =
      2048 * 2 ^ exponent (Fp16Add.small a b) := by
    rw [magnitude, hl, hexp, pow_succ]
    ring
  have hsmall : magnitude (Fp16Add.small a b) =
      2047 * 2 ^ exponent (Fp16Add.small a b) := by
    rw [magnitude, hsm]
  have hunit := Nat.two_pow_pos (exponent (Fp16Add.small a b))
  generalize 2 ^ exponent (Fp16Add.small a b) = unit at hlarge hsmall hunit
  rcases (large_small a b).1 with ⟨hl, hs⟩ | ⟨hl, hs⟩ <;> rw [hl] at hlarge <;>
    rw [hs] at hsmall <;> omega

section Sum

variable {a b : Word} (ha : Normal a) (hb : Normal b) {m n : ℕ}
  (hma : magnitude a = m * 2 ^ 25) (hmb : magnitude b = n * 2 ^ 25)

include ha hb hma hmb

/-- INTERNAL: Integers of like signs add exactly while the sum has eleven digits. -/
theorem fp16Add_integer_like (hs : signBit a = signBit b) (hfits : m + n < 2048) :
    EncodesInteger (fp16Add a b) ∧
      fp16ToFloat (fp16Add a b) =
        (withSign (signBit a) m + withSign (signBit b) n : ℤ) := by
  have htotal : magnitude a + magnitude b = (m + n) * 2 ^ 25 := by rw [hma, hmb, Nat.add_mul]
  obtain ⟨hnormal, hsign, hlead⟩ := fp16Add_like_signs ha hb hs (by omega)
  have hexact := hlead.eq_of_fits hfits htotal
  obtain ⟨hint, hvalue⟩ := encodesInteger_of_magnitude hnormal (hexact.trans htotal)
  refine ⟨hint, ?_⟩
  rw [hvalue, hsign, hs, withSign_add]

omit ha hb in
/-- The operands of a sum of integers, ordered by size. -/
theorem large_small_integer (hs : signBit b = !signBit a) (hne : m ≠ n) :
    ∃ u v, magnitude (Fp16Add.large a b) = u * 2 ^ 25 ∧
      magnitude (Fp16Add.small a b) = v * 2 ^ 25 ∧ v < u ∧ u ≤ max m n ∧
      withSign (signBit a) m + withSign (signBit b) n =
        withSign (signBit (Fp16Add.large a b)) (u - v) := by
  have hopposite : signBit a ≠ signBit b := by
    rw [hs]
    cases signBit a <;> decide
  obtain ⟨horder, -, hmag⟩ := large_small a b
  cases horder with
  | inl horder =>
    rw [horder.1, horder.2] at hmag ⊢
    exact ⟨m, n, hma, hmb, by omega, Nat.le_max_left m n, withSign_opposite hopposite (by omega)⟩
  | inr horder =>
    rw [horder.1, horder.2] at hmag ⊢
    refine ⟨n, m, hmb, hma, by omega, Nat.le_max_right m n, ?_⟩
    rw [add_comm]
    exact withSign_opposite hopposite.symm (by omega)

/-- INTERNAL: Integers of opposite signs add exactly, to zero if they cancel. -/
theorem fp16Add_integer_opposite (hs : signBit b = !signBit a) (hm : m < 2048) (hn : n < 2048) :
    EncodesInteger (fp16Add a b) ∧
      fp16ToFloat (fp16Add a b) =
        (withSign (signBit a) m + withSign (signBit b) n : ℤ) := by
  have hopposite : signBit a ≠ signBit b := by
    rw [hs]
    cases signBit a <;> decide
  by_cases heq : m = n
  · have hcancel : withSign (signBit a) m + withSign (signBit b) n = 0 := by
      rw [heq, withSign_opposite hopposite le_rfl, Nat.sub_self]
      cases signBit a <;> rfl
    rw [fp16Add_cancels ha hb hopposite (by rw [hma, hmb, heq]), hcancel, Int.cast_zero]
    exact encodesInteger_zero
  · have hmiss := not_encoderMisses_of_integer ha hb hma hmb hm hn
    obtain ⟨u, v, hu, hv, hvu, hmax, hsigned⟩ := large_small_integer hma hmb hs heq
    have hdiff : magnitude (Fp16Add.large a b) - magnitude (Fp16Add.small a b) =
        (u - v) * 2 ^ 25 := by
      rw [hu, hv, Nat.sub_mul]
    obtain ⟨hnormal, hsign, hround⟩ := fp16Add_opposite_signs ha hb hopposite hmiss (by omega)
    have hexact := hround.eq_of_fits (by omega : u - v < 2 ^ (10 + 1)) hdiff
    obtain ⟨hint, hvalue⟩ := encodesInteger_of_magnitude hnormal (hexact.trans hdiff)
    refine ⟨hint, ?_⟩
    rw [hvalue, hsign, hsigned]

end Sum

/-- **An integer sum below 2048 is exact.** -/
theorem fp16Add_integer {a b : Word} (ha : EncodesInteger a) (hb : EncodesInteger b)
    (hba : |fp16ToFloat a| < 2048) (hbb : |fp16ToFloat b| < 2048)
    (h : |fp16ToFloat a + fp16ToFloat b| < 2048) :
    EncodesInteger (fp16Add a b) ∧ fp16ToFloat (fp16Add a b) = fp16ToFloat a + fp16ToFloat b := by
  by_cases hza : magnitudeBits a = 0#15
  · rw [fp16Add, if_pos hza, fp16ToFloat_of_zero hza, zero_add]
    exact ⟨hb, rfl⟩
  by_cases hzb : magnitudeBits b = 0#15
  · rw [fp16Add, if_neg hza, if_pos hzb, fp16ToFloat_of_zero hzb, add_zero]
    exact ⟨ha, rfl⟩
  have hna := ha.zeroOrNormal.resolve_left hza
  have hnb := hb.zeroOrNormal.resolve_left hzb
  obtain ⟨m, hma, hva⟩ := ha.exists_magnitude
  obtain ⟨n, hmb, hvb⟩ := hb.exists_magnitude
  rw [hva] at hba
  rw [hvb] at hbb
  rw [hva, hvb, ← Int.cast_add] at h ⊢
  have hm : m < 2048 := natAbs_withSign (signBit a) m ▸ abs_cast_lt hba
  have hn : n < 2048 := natAbs_withSign (signBit b) n ▸ abs_cast_lt hbb
  by_cases hs : signBit a = signBit b
  · have hsum := abs_cast_lt h
    have hfits : m + n < 2048 := by
      rw [hs] at hsum
      cases hsb : signBit b <;> simp only [hsb, withSign, Bool.false_eq_true, if_false, if_true]
        at hsum <;> omega
    exact fp16Add_integer_like hna hnb hma hmb hs hfits
  · have hopposite : signBit b = !signBit a := by
      cases hsa : signBit a <;> cases hsb : signBit b <;> simp_all
    exact fp16Add_integer_opposite hna hnb hma hmb hopposite hm hn

/-- INTERNAL: **The run lemma.**  While all products and partial sums stay below 2048, the
accumulator is the exact dot product. -/
theorem macFold_integer {ps : List (Word × Word)}
    (hint : ∀ p ∈ ps, EncodesInteger p.1 ∧ EncodesInteger p.2 ∧
      |fp16ToFloat p.1 * fp16ToFloat p.2| < 2048)
    (hsums : ∀ qs, qs <+: ps → |exactDot qs| < 2048) :
    EncodesInteger (macFold 0#16 ps) ∧ fp16ToFloat (macFold 0#16 ps) = exactDot ps := by
  refine accumulate_invariant _ _ (I := fun qs c => EncodesInteger c ∧ fp16ToFloat c = exactDot qs)
    encodesInteger_zero fun qs p c hqs ⟨hc, hdot⟩ => ?_
  obtain ⟨ha, hb, hsmall⟩ := hint p (hqs.subset (by simp))
  obtain ⟨hproduct, hvalue⟩ := fp16Mult_integer ha hb hsmall
  have hnext := hsums _ hqs
  rw [exactDot_concat, ← hdot, ← hvalue, add_comm] at hnext
  obtain ⟨hsum, htotal⟩ := fp16Add_integer hproduct hc (by rwa [hvalue])
    (by rw [hdot]; exact hsums qs ((List.prefix_append qs [p]).trans hqs)) hnext
  exact ⟨hsum, by rw [htotal, hvalue, hdot, exactDot_concat, add_comm]⟩

/-- **Exactness on integer matrices.**  Where every product and every partial sum of row
`i` against column `j` stays below 2048 in absolute value, the accumulator stands for
exactly the integer dot product.
RTL: fp16_add.v:9-84, fp16_mult.v:9-48, fp16_mac.v:9-21 -/
theorem integer_product_exact (N : ℕ) (A B : Fin (N * N) → Word)
    (hA : ∀ k, EncodesInteger (A k)) (hB : ∀ k, EncodesInteger (B k)) (i j : Fin N)
    (hproducts : ∀ k, |fp16ToFloat (A (cell i k)) * fp16ToFloat (B (cell k j))| < 2048)
    (hsums : ∀ m,
      |∑ k ∈ Finset.Iic m, fp16ToFloat (A (cell i k)) * fp16ToFloat (B (cell k j))| < 2048) :
    EncodesInteger (productEntry A B i j) ∧
      fp16ToFloat (productEntry A B i j) =
        ∑ k, fp16ToFloat (A (cell i k)) * fp16ToFloat (B (cell k j)) := by
  rw [← exactDot_operands]
  refine macFold_integer (fun p hp => ?_) fun qs hqs => ?_
  · obtain ⟨k, -, rfl⟩ := List.mem_map.mp hp
    exact ⟨hA _, hB _, hproducts k⟩
  · by_cases hne : qs = []
    · rw [hne, exactDot_nil, abs_zero]
      norm_num
    · obtain ⟨m, hm⟩ := exactDot_initial hqs hne
      rw [hm]
      exact hsums m

/-- Rows 3, -5, 7 for `N = 3`. -/
def integerRows (k : Fin (3 * 3)) : Word := [0x4200#16, 0xC500#16, 0x4700#16].getD (k.val % 3) 0#16

/-- Columns 4, 6, 3 for `N = 3`. -/
def integerColumns (k : Fin (3 * 3)) : Word :=
  [0x4400#16, 0x4600#16, 0x4200#16].getD (k.val / 3) 0#16

/-- The sum goes from 12 to -18 and back to 3. -/
theorem integer_product_exact_cancelling :
    EncodesInteger (productEntry integerRows integerColumns 1 2) ∧
      fp16ToFloat (productEntry integerRows integerColumns 1 2) = 3 := by
  have hrows : ∀ k, fp16ToFloat (integerRows k) = ([3, -5, 7].getD (k.val % 3) 0 : ℤ) := fun k =>
    (fp16ToFloat_eq_int_iff (by revert k; decide) _).mpr (by revert k; decide)
  have hcolumns : ∀ k, fp16ToFloat (integerColumns k) = ([4, 6, 3].getD (k.val / 3) 0 : ℤ) :=
    fun k => (fp16ToFloat_eq_int_iff (by revert k; decide) _).mpr (by revert k; decide)
  have hproducts : ∀ k : Fin 3, |([3, -5, 7].getD ((cell 1 k).val % 3) 0 : ℤ) *
      [4, 6, 3].getD ((cell k (2 : Fin 3)).val / 3) 0| < 2048 := by decide
  have hsums : ∀ m : Fin 3, |∑ k ∈ Finset.Iic m, ([3, -5, 7].getD ((cell 1 k).val % 3) 0 : ℤ) *
      [4, 6, 3].getD ((cell k (2 : Fin 3)).val / 3) 0| < 2048 := by decide
  have htotal : ∑ k : Fin 3, ([3, -5, 7].getD ((cell 1 k).val % 3) 0 : ℤ) *
      [4, 6, 3].getD ((cell k (2 : Fin 3)).val / 3) 0 = 3 := by decide
  obtain ⟨hinteger, hvalue⟩ := integer_product_exact 3 integerRows integerColumns
    (fun k => ⟨by revert k; decide, _, hrows k⟩) (fun k => ⟨by revert k; decide, _, hcolumns k⟩)
    1 2 (fun k => by rw [hrows, hcolumns]; exact_mod_cast hproducts k)
    fun m => by simp only [hrows, hcolumns]; exact_mod_cast hsums m
  refine ⟨hinteger, hvalue.trans ?_⟩
  simp only [hrows, hcolumns]
  exact_mod_cast htotal

end MatrixAccelerator.Analysis
