import MatrixAccelerator.Analysis.AdderValue
import MatrixAccelerator.Analysis.MultiplierValue
import MatrixAccelerator.Interface.AbsoluteValue
import MatrixAccelerator.Interface.ExactProduct
import MatrixAccelerator.Library.RelativeError
import Mathlib.Algebra.Order.BigOperators.Group.List

/-!
# The error of a non-negative product

Without subtraction both units round toward zero, each with a relative error below
`2 ^ -10`.  A product is rounded once, and every later sum rounds everything accumulated so
far once more; the first sum adds to zero and does not round.  So an accumulation of `n`
products is the exact dot product after at most `n` roundings, and it never exceeds it,
which keeps every intermediate exponent in range.
-/

set_option autoImplicit false

namespace MatrixAccelerator.Analysis

open MatrixAccelerator.Library MatrixAccelerator.Model MatrixAccelerator.Interface

/-- The word `+0` or a positive normal word. -/
def NonNegative (w : Word) : Prop := w = 0#16 ∨ Normal w ∧ signBit w = false

instance (w : Word) : Decidable (NonNegative w) := inferInstanceAs (Decidable (_ ∨ _))

/-- A positive normal word stands for its scaled magnitude. -/
theorem fp16ToFloat_positive {w : Word} (h : Normal w) (hs : signBit w = false) :
    fp16ToFloat w = (magnitude w : ℚ) / 2 ^ 25 := by
  rw [fp16ToFloat_eq (Or.inr h), signedMagnitude, hs]
  rfl

/-- A positive normal word stands for a positive number. -/
theorem fp16ToFloat_pos {w : Word} (h : Normal w) (hs : signBit w = false) :
    0 < fp16ToFloat w := by
  have hmag := magnitude_pos h.1
  rw [fp16ToFloat_positive h hs]
  positivity

/-- A non-negative operand stands for a number that is not negative. -/
theorem NonNegative.nonneg {w : Word} (h : NonNegative w) : 0 ≤ fp16ToFloat w := by
  rcases h with rfl | ⟨hn, hs⟩
  · exact (fp16ToFloat_of_zero magnitudeBits_zero).ge
  · exact (fp16ToFloat_pos hn hs).le

/-- Cutting a number to its leading digits is one rounding step. -/
theorem roundedBelow_of_leading {r : Word} (hr : Normal r) (hs : signBit r = false) {x k : ℕ}
    (h : Leading 10 x (significand r) (exponent r + k)) :
    RoundedBelow (1 / 2 ^ 10 : ℚ) 1 ((x : ℚ) / 2 ^ (25 + k)) (fp16ToFloat r) := by
  have hround := (h.roundedBelow (K := ℚ)).div (c := 2 ^ (25 + k)) (by positivity)
  have hvalue : (significand r * 2 ^ (exponent r + k) / 2 ^ (25 + k) : ℚ) = fp16ToFloat r := by
    rw [fp16ToFloat_positive hr hs, magnitude, pow_add, pow_add]
    push_cast
    field_simp
  rwa [hvalue] at hround

/-- **A product is rounded once.**  Between `2 ^ -14` and `2 ^ 16` the product of positive
normal words is positive and normal. -/
theorem fp16Mult_positive {a b : Word} (ha : Normal a) (hb : Normal b) (hsa : signBit a = false)
    (hsb : signBit b = false) (hlow : 1 / 2 ^ 14 ≤ fp16ToFloat a * fp16ToFloat b)
    (hhigh : fp16ToFloat a * fp16ToFloat b < 2 ^ 16) :
    Normal (fp16Mult a b) ∧ signBit (fp16Mult a b) = false ∧
      RoundedBelow (1 / 2 ^ 10) 1 (fp16ToFloat a * fp16ToFloat b) (fp16ToFloat (fp16Mult a b)) := by
  have hproduct : fp16ToFloat a * fp16ToFloat b =
      ((magnitude a * magnitude b : ℕ) : ℚ) / 2 ^ (25 + 25) := by
    rw [fp16ToFloat_positive ha hsa, fp16ToFloat_positive hb hsb, pow_add]
    push_cast
    field_simp
  rw [hproduct] at hlow hhigh
  have hlowNat := (one_div_le_div_iff _ 36 14).mp hlow
  have hhighNat := (div_lt_two_pow_iff _ 50 16).mp hhigh
  obtain ⟨hnormal, hsign, hlead⟩ := fp16Mult_normal ha hb hlowNat hhighNat
  have hpositive : signBit (fp16Mult a b) = false := by rw [hsign, hsa, hsb]; rfl
  rw [hproduct]
  exact ⟨hnormal, hpositive, roundedBelow_of_leading hnormal hpositive hlead⟩

/-- **A sum is rounded once.** -/
theorem fp16Add_positive {a b : Word} (ha : Normal a) (hb : Normal b) (hsa : signBit a = false)
    (hsb : signBit b = false) (hhigh : fp16ToFloat a + fp16ToFloat b < 2 ^ 16) :
    Normal (fp16Add a b) ∧ signBit (fp16Add a b) = false ∧
      RoundedBelow (1 / 2 ^ 10) 1 (fp16ToFloat a + fp16ToFloat b) (fp16ToFloat (fp16Add a b)) := by
  have hsum : fp16ToFloat a + fp16ToFloat b =
      ((magnitude a + magnitude b : ℕ) : ℚ) / 2 ^ (25 + 0) := by
    rw [fp16ToFloat_positive ha hsa, fp16ToFloat_positive hb hsb]
    push_cast
    ring
  rw [hsum] at hhigh
  have hhighNat := (div_lt_two_pow_iff _ 25 16).mp hhigh
  obtain ⟨hnormal, hsign, hlead⟩ := fp16Add_like_signs ha hb (hsa.trans hsb.symm) hhighNat
  rw [hsum]
  exact ⟨hnormal, hsign.trans hsa, roundedBelow_of_leading hnormal (hsign.trans hsa) hlead⟩

/-- The operand pairs of the error bound: non-negative, with no product below the normal
range. -/
structure BoundedPair (p : Word × Word) : Prop where
  left : NonNegative p.1
  right : NonNegative p.2
  product : fp16ToFloat p.1 * fp16ToFloat p.2 ≠ 0 →
    1 / 2 ^ 14 ≤ fp16ToFloat p.1 * fp16ToFloat p.2

/-- The exact sum of the first products is at most the whole one. -/
theorem exactDot_le_whole {qs ps : List (Word × Word)} (hps : ∀ p ∈ ps, BoundedPair p)
    (h : qs <+: ps) : exactDot qs ≤ exactDot ps := by
  obtain ⟨rest, rfl⟩ := h
  have hrest : 0 ≤ exactDot rest := by
    refine List.sum_nonneg fun v hv => ?_
    obtain ⟨p, hp, rfl⟩ := List.mem_map.mp hv
    have hpair := hps p (List.mem_append_right qs hp)
    exact mul_nonneg hpair.left.nonneg hpair.right.nonneg
  rw [exactDot_append]
  exact le_add_of_nonneg_right hrest

/-- INTERNAL: **The step lemma.**  The next product rounds the accumulation at most once
more. -/
theorem accumulate_nonnegative_step {p : Word × Word} (hp : BoundedPair p) {c : Word}
    (hc : NonNegative c) {D : ℚ} {n : ℕ} (hD : RoundedBelow (1 / 2 ^ 10) n D (fp16ToFloat c))
    (hn : n = 0 → D = 0) (hhigh : D + fp16ToFloat p.1 * fp16ToFloat p.2 < 2 ^ 16) :
    NonNegative (fp16Add (fp16Mult p.1 p.2) c) ∧
      RoundedBelow (1 / 2 ^ 10) (n + 1) (D + fp16ToFloat p.1 * fp16ToFloat p.2)
        (fp16ToFloat (fp16Add (fp16Mult p.1 p.2) c)) := by
  have hDpos : 0 ≤ D := le_trans hc.nonneg hD.upper
  have hzero := fp16ToFloat_of_zero magnitudeBits_zero
  -- a product with a zero factor leaves the accumulator as it is
  have hskip : fp16ToFloat p.1 * fp16ToFloat p.2 = 0 → fp16Mult p.1 p.2 = 0#16 →
      NonNegative (fp16Add (fp16Mult p.1 p.2) c) ∧
        RoundedBelow (1 / 2 ^ 10) (n + 1) (D + fp16ToFloat p.1 * fp16ToFloat p.2)
          (fp16ToFloat (fp16Add (fp16Mult p.1 p.2) c)) := by
    intro hproduct hmult
    rw [hproduct, hmult, fp16Add_zero_left, add_zero]
    exact ⟨hc, hD.mono (by norm_num) (by norm_num) hDpos (Nat.le_succ n)⟩
  rcases hp.left with ha | ⟨ha, hsa⟩
  · exact hskip (by rw [ha, hzero, zero_mul]) (by rw [ha, fp16Mult_zero_left])
  rcases hp.right with hb | ⟨hb, hsb⟩
  · exact hskip (by rw [hb, hzero, mul_zero]) (by rw [hb, fp16Mult_zero_right])
  have hPpos : 0 < fp16ToFloat p.1 * fp16ToFloat p.2 :=
    mul_pos (fp16ToFloat_pos ha hsa) (fp16ToFloat_pos hb hsb)
  obtain ⟨hnormal, hsign, hround⟩ :=
    fp16Mult_positive ha hb hsa hsb (hp.product hPpos.ne') (by linarith)
  rcases hc with rfl | ⟨hcn, hcs⟩
  · -- nothing accumulated yet: the product is stored as it is
    have hadd : fp16Add (fp16Mult p.1 p.2) 0#16 = fp16Mult p.1 p.2 := by
      rw [fp16Add, if_neg (magnitudeBits_ne_zero hnormal.1), if_pos magnitudeBits_zero]
    have hDzero : D = 0 := by
      have hlower := hD.lower
      rw [hzero] at hlower
      have hpow : (0 : ℚ) < (1 - 1 / 2 ^ 10) ^ n := pow_pos (by norm_num) n
      exact le_antisymm (nonpos_of_mul_nonpos_left hlower hpow) hDpos
    rw [hadd, hDzero, zero_add]
    exact ⟨Or.inr ⟨hnormal, hsign⟩,
      hround.mono (by norm_num) (by norm_num) hPpos.le (Nat.le_add_left 1 n)⟩
  · -- both summands are positive: the sum is rounded once more
    have hn1 : 1 ≤ n := by
      by_contra hn0
      have hupper := hD.upper
      rw [hn (by omega)] at hupper
      exact absurd hupper (not_le_of_gt (fp16ToFloat_pos hcn hcs))
    have hbefore : RoundedBelow (1 / 2 ^ 10) n (D + fp16ToFloat p.1 * fp16ToFloat p.2)
        (fp16ToFloat (fp16Mult p.1 p.2) + fp16ToFloat c) := by
      rw [add_comm (fp16ToFloat (fp16Mult p.1 p.2))]
      exact hD.add (hround.mono (by norm_num) (by norm_num) hPpos.le hn1)
    obtain ⟨hsumNormal, hsumSign, hsumRound⟩ :=
      fp16Add_positive hnormal hcn hsign hcs (lt_of_le_of_lt hbefore.upper hhigh)
    exact ⟨Or.inr ⟨hsumNormal, hsumSign⟩, hbefore.trans (by norm_num) hsumRound⟩

/-- INTERNAL: **The run lemma.** -/
theorem macFold_nonnegative {ps : List (Word × Word)} (hps : ∀ p ∈ ps, BoundedPair p)
    (hhigh : exactDot ps < 2 ^ 16) :
    NonNegative (macFold 0#16 ps) ∧
      RoundedBelow (1 / 2 ^ 10) ps.length (exactDot ps) (fp16ToFloat (macFold 0#16 ps)) := by
  refine accumulate_invariant _ _ (I := fun qs c => NonNegative c ∧
    RoundedBelow (1 / 2 ^ 10) qs.length (exactDot qs) (fp16ToFloat c)) ⟨Or.inl rfl, ?_⟩ ?_
  · rw [fp16ToFloat_of_zero magnitudeBits_zero]
    exact RoundedBelow.refl _ _
  · rintro qs p c hqs ⟨hc, hD⟩
    have hnext := lt_of_le_of_lt (exactDot_le_whole hps hqs) hhigh
    rw [exactDot_concat] at hnext
    rw [exactDot_concat, List.length_append, List.length_singleton]
    refine accumulate_nonnegative_step (hps p (hqs.subset (by simp))) hc hD ?_ hnext
    intro hlen
    rw [List.eq_nil_of_length_eq_zero hlen, exactDot_nil]

/-- **Error bound for non-negative matrices.**  Where no product falls below the normal
range and the exact dot product `D` is below `2 ^ 16`, the accumulator is `+0` or positive
and normal, and lies between `D * (1 - 2 ^ -10) ^ N` and `D`.
RTL: fp16_add.v:17-84, fp16_mult.v:15-48, fp16_mac.v:9-21, pe_fp16.v:16-44 -/
theorem nonnegative_error_bound (N : ℕ) (A B : Fin (N * N) → Word)
    (hA : ∀ k, NonNegative (A k)) (hB : ∀ k, NonNegative (B k)) (i j : Fin N)
    (hproducts : ∀ k, fp16ToFloat (A (cell i k)) * fp16ToFloat (B (cell k j)) ≠ 0 →
      1 / 2 ^ 14 ≤ fp16ToFloat (A (cell i k)) * fp16ToFloat (B (cell k j)))
    (hdot : ∑ k, fp16ToFloat (A (cell i k)) * fp16ToFloat (B (cell k j)) < 2 ^ 16) :
    let D := ∑ k, fp16ToFloat (A (cell i k)) * fp16ToFloat (B (cell k j))
    let c := productEntry A B i j
    NonNegative c ∧ D * (1 - 1 / 2 ^ 10) ^ N ≤ fp16ToFloat c ∧ fp16ToFloat c ≤ D := by
  intro D c
  rw [← exactDot_operands] at hdot
  have hpairs : ∀ p ∈ operands A B i j, BoundedPair p := by
    intro p hp
    obtain ⟨k, -, rfl⟩ := List.mem_map.mp hp
    exact ⟨hA _, hB _, hproducts k⟩
  obtain ⟨hc, hround⟩ := macFold_nonnegative hpairs hdot
  have hlen : (operands A B i j).length = N := by
    rw [operands, List.length_map, List.length_finRange]
  rw [hlen, exactDot_operands] at hround
  exact ⟨hc, hround.lower, hround.upper⟩

/-- Rows `1 + 2 ^ -10`, 1.5 for `N = 2`. -/
def truncatedRows (k : Fin (2 * 2)) : Word := [0x3C01#16, 0x3E00#16].getD (k.val % 2) 0#16

/-- Columns `1 + 2 ^ -10`, 3.0 for `N = 2`. -/
def truncatedColumns (k : Fin (2 * 2)) : Word := [0x3C01#16, 0x4200#16].getD (k.val / 2) 0#16

/-- The first product and the sum are both cut: the result lies strictly below the dot product,
and within the bound. -/
theorem nonnegative_error_bound_truncated :
    let D := ∑ k, fp16ToFloat (truncatedRows (cell 0 k)) * fp16ToFloat (truncatedColumns (cell k 1))
    let c := productEntry truncatedRows truncatedColumns 0 1
    NonNegative c ∧ D * (1 - 1 / 2 ^ 10) ^ 2 ≤ fp16ToFloat c ∧ fp16ToFloat c ≤ D ∧
      fp16ToFloat c ≠ D := by
  have hone : fp16ToFloat 0x3C01#16 = 1025 / 1024 := by
    rw [fp16ToFloat_positive (by decide) (by decide),
      show magnitude 0x3C01#16 = 1025 * 2 ^ 15 by decide]
    norm_num
  have hhalf : fp16ToFloat 0x3E00#16 = 3 / 2 := by
    rw [fp16ToFloat_positive (by decide) (by decide),
      show magnitude 0x3E00#16 = 3 * 2 ^ 24 by decide]
    norm_num
  have hthree : fp16ToFloat 0x4200#16 = 3 := by
    rw [fp16ToFloat_positive (by decide) (by decide),
      show magnitude 0x4200#16 = 3 * 2 ^ 25 by decide]
    norm_num
  have hresult : fp16ToFloat (productEntry truncatedRows truncatedColumns 0 1) = 11 / 2 := by
    rw [show productEntry truncatedRows truncatedColumns 0 1 = 0x4580#16 by decide,
      fp16ToFloat_positive (by decide) (by decide),
      show magnitude 0x4580#16 = 11 * 2 ^ 24 by decide]
    norm_num
  have hproduct : ∀ k : Fin 2, fp16ToFloat (truncatedRows (cell 0 k)) *
      fp16ToFloat (truncatedColumns (cell k 1)) =
        if k = 0 then 1025 / 1024 * (1025 / 1024) else 3 / 2 * 3
    | 0 => congrArg₂ (· * ·) hone hone
    | 1 => congrArg₂ (· * ·) hhalf hthree
  have hdot : ∑ k, fp16ToFloat (truncatedRows (cell 0 k)) * fp16ToFloat (truncatedColumns (cell k 1)) =
      5769217 / 1048576 := by
    simp only [hproduct, Fin.sum_univ_two]
    norm_num
  obtain ⟨hc, hlower, hupper⟩ := nonnegative_error_bound 2 truncatedRows truncatedColumns
    (by decide) (by decide) 0 1 (fun k _ => by rw [hproduct]; split <;> norm_num)
    (by rw [hdot]; norm_num)
  refine ⟨hc, hlower, hupper, ?_⟩
  rw [hresult, hdot]
  norm_num

end MatrixAccelerator.Analysis
