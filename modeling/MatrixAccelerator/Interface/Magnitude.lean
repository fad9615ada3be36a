import MatrixAccelerator.Library.LeadingDigits
import MatrixAccelerator.Model.Fp16ToFloat
import Mathlib.Tactic.FieldSimp
import Mathlib.Tactic.NormNum

/-!
# Words as numbers

A word with an exponent field `e` and a mantissa `M` stands for `± M * 2 ^ e / 2 ^ 25`;
`magnitude` is the natural number `M * 2 ^ e`, so the units are comparable across words
and every statement about the circuits is one about natural numbers.  For a normal word
the mantissa is the eleven leading digits of the magnitude.
-/

set_option autoImplicit false

namespace MatrixAccelerator.Interface

open MatrixAccelerator.Library MatrixAccelerator.Model

/-- The exponent field, as a number. -/
def exponent (w : Word) : ℕ := (expField w).toNat

/-- The mantissa with its hidden bit, as a number. -/
def significand (w : Word) : ℕ := (mantissa w).toNat

/-- The absolute value, in units of `2 ^ -25`. -/
def magnitude (w : Word) : ℕ := significand w * 2 ^ exponent w

/-- The integer of sign `sign` and absolute value `x`. -/
def withSign (sign : Bool) (x : ℕ) : ℤ := if sign then -(x : ℤ) else x

/-- The value, in units of `2 ^ -25`. -/
def signedMagnitude (w : Word) : ℤ := withSign (signBit w) (magnitude w)

/-- The exponent field is neither zero nor full. -/
def Normal (w : Word) : Prop := 1 ≤ exponent w ∧ exponent w ≤ 30

instance (w : Word) : Decidable (Normal w) := inferInstanceAs (Decidable (_ ∧ _))

/-! ## Signs -/

theorem natAbs_withSign (sign : Bool) (x : ℕ) : (withSign sign x).natAbs = x := by
  cases sign <;> simp [withSign]

theorem withSign_add (sign : Bool) (x y : ℕ) :
    withSign sign (x + y) = withSign sign x + withSign sign y := by
  cases sign <;> simp only [withSign, Bool.false_eq_true, if_false, if_true] <;> omega

/-- Of two numbers of opposite signs the one that is no smaller gives the sum its sign. -/
theorem withSign_opposite {s t : Bool} (h : s ≠ t) {x y : ℕ} (hle : y ≤ x) :
    withSign s x + withSign t y = withSign s (x - y) := by
  cases s <;> cases t <;> simp only [ne_eq, not_true_eq_false] at h <;>
    simp only [withSign, Bool.false_eq_true, if_false, if_true] <;> omega

theorem withSign_mul (sign : Bool) (x k : ℕ) :
    withSign sign (x * k) = withSign sign x * k := by
  cases sign <;> simp [withSign]

theorem withSign_xor (s t : Bool) (x y : ℕ) :
    withSign (xor s t) (x * y) = withSign s x * withSign t y := by
  cases s <;> cases t <;> simp [withSign]

/-! ## The fields of a word -/

/-- The bits of an assembled word, field by field. -/
theorem getLsbD_assemble (sign : Bool) (exp : BitVec 5) (frac : BitVec 10) (i : ℕ) :
    (assemble sign exp frac).getLsbD i =
      if i < 10 then frac.getLsbD i else if i < 15 then exp.getLsbD (i - 10)
      else decide (i = 15) && sign := by
  refine (BitVec.getLsbD_append (x := BitVec.ofBool sign ++ exp) (y := frac)).trans ?_
  rw [BitVec.getLsbD_append, BitVec.getLsbD_ofBool]
  by_cases h : i < 10
  · simp [h]
  · simp only [h, if_false]
    by_cases h' : i < 15
    · rw [if_pos (by omega), if_pos h']
    · have hi : decide (i - 10 - 5 = 0) = decide (i = 15) := by
        congr 1
        exact propext (by omega)
      rw [if_neg (by omega), if_neg h', hi]

@[simp] theorem signBit_assemble (sign : Bool) (exp : BitVec 5) (frac : BitVec 10) :
    signBit (assemble sign exp frac) = sign := getLsbD_assemble sign exp frac 15

@[simp] theorem expField_assemble (sign : Bool) (exp : BitVec 5) (frac : BitVec 10) :
    expField (assemble sign exp frac) = exp := by
  apply BitVec.eq_of_getLsbD_eq
  intro i hi
  rw [expField, BitVec.getLsbD_extractLsb', getLsbD_assemble, if_neg (by omega),
    if_pos (by omega), Nat.add_sub_cancel_left, decide_eq_true hi, Bool.true_and]

@[simp] theorem fracField_assemble (sign : Bool) (exp : BitVec 5) (frac : BitVec 10) :
    fracField (assemble sign exp frac) = frac := by
  apply BitVec.eq_of_getLsbD_eq
  intro i hi
  rw [fracField, BitVec.getLsbD_extractLsb', getLsbD_assemble, if_pos (by omega), Nat.zero_add,
    decide_eq_true hi, Bool.true_and]

/-- The fifteen bits below the sign as one number. -/
theorem toNat_magnitudeBits (w : Word) :
    (magnitudeBits w).toNat = exponent w * 1024 + (fracField w).toNat := by
  simp only [magnitudeBits, exponent, expField, fracField, BitVec.extractLsb'_toNat,
    Nat.shiftRight_eq_div_pow]
  omega

/-- A word that is not subnormal has the hidden one. -/
theorem significand_eq {w : Word} (h : 1 ≤ exponent w) :
    significand w = 1024 + (fracField w).toNat := by
  have hne : expField w ≠ 0#5 := by
    intro h0
    rw [exponent, h0] at h
    exact absurd h (by decide)
  rw [significand, mantissa, if_neg hne, BitVec.toNat_append,
    ← Nat.shiftLeft_add_eq_or_of_lt (fracField w).isLt]
  rfl

/-- Its significand has eleven digits. -/
theorem significand_bounds {w : Word} (h : 1 ≤ exponent w) :
    1024 ≤ significand w ∧ significand w < 2048 := by
  have hfrac := (fracField w).isLt
  rw [significand_eq h]
  omega

/-- The leading digits of a magnitude are the significand, at the scale of the exponent. -/
theorem leading_magnitude {w : Word} (h : 1 ≤ exponent w) :
    Leading 10 (magnitude w) (significand w) (exponent w) :=
  ⟨(significand_bounds h).1, (significand_bounds h).2, le_rfl,
    Nat.mul_lt_mul_of_pos_right (Nat.lt_succ_self _) (Nat.two_pow_pos _)⟩

/-- INTERNAL: What a circuit assembles from an exponent and the kept bits of a mantissa `m`
of eleven digits. -/
theorem assemble_spec (sign : Bool) (exp : BitVec 5) (frac : BitVec 10) {m e : ℕ}
    (hm : 1024 ≤ m ∧ m < 2048) (hfrac : frac.toNat = m % 1024) (hexp : exp.toNat = e)
    (he : 1 ≤ e ∧ e ≤ 30) :
    Normal (assemble sign exp frac) ∧ significand (assemble sign exp frac) = m ∧
      exponent (assemble sign exp frac) = e := by
  have hexp' : exponent (assemble sign exp frac) = e := by rw [exponent, expField_assemble, hexp]
  refine ⟨⟨hexp'.symm ▸ he.1, hexp'.symm ▸ he.2⟩, ?_, hexp'⟩
  rw [significand_eq (hexp'.symm ▸ he.1), fracField_assemble, hfrac]
  omega

/-- INTERNAL: A circuit that assembles the ten digits after the leading one of `x` with
their weight puts out the leading digits of `x`. -/
theorem assemble_leading (sign : Bool) (exp : BitVec 5) (frac : BitVec 10) {x m e k : ℕ}
    (hlead : Leading 10 x m (e + k)) (hfrac : frac.toNat = m % 1024) (hexp : exp.toNat = e)
    (he : 1 ≤ e ∧ e ≤ 30) :
    Normal (assemble sign exp frac) ∧ signBit (assemble sign exp frac) = sign ∧
      Leading 10 x (significand (assemble sign exp frac))
        (exponent (assemble sign exp frac) + k) := by
  obtain ⟨hnormal, hsig, hexp'⟩ := assemble_spec sign exp frac ⟨hlead.low, hlead.high⟩ hfrac hexp he
  refine ⟨hnormal, signBit_assemble sign exp frac, ?_⟩
  rw [hsig, hexp']
  exact hlead

/-- INTERNAL: Every magnitude of eleven digits in the normal range has a word of either
sign. -/
theorem exists_normal (sign : Bool) {y n k : ℕ} (hn : n < 2 ^ 11) (hy : y = n * 2 ^ k)
    (hlow : 2 ^ 11 ≤ y) (hhigh : y < 2 ^ 41) :
    ∃ w, Normal w ∧ signBit w = sign ∧ magnitude w = y := by
  obtain ⟨m, e, hlead⟩ := Leading.exists_of_le (p := 10) (le_trans (by decide) hlow)
  have hge := hlead.lt_of_le hlow
  have hle := hlead.lt_of_lt hhigh
  obtain ⟨hnormal, hsig, hexp⟩ := assemble_spec sign (BitVec.ofNat 5 e) (BitVec.ofNat 10 m)
    (e := e) ⟨hlead.low, hlead.high⟩ (BitVec.toNat_ofNat m 10)
    (by rw [BitVec.toNat_ofNat]; exact Nat.mod_eq_of_lt (by omega)) (by omega)
  refine ⟨_, hnormal, signBit_assemble _ _ _, ?_⟩
  rw [magnitude, hsig, hexp]
  exact hlead.eq_of_fits hn hy

/-- INTERNAL: The least and the greatest normal magnitude. -/
theorem magnitude_bounds {w : Word} (h : Normal w) :
    2 ^ 11 ≤ magnitude w ∧ magnitude w ≤ 2047 * 2 ^ 30 := by
  have hsig := significand_bounds h.1
  constructor
  · exact Nat.mul_le_mul hsig.1 (Nat.pow_le_pow_right Nat.two_pos h.1)
  · exact Nat.mul_le_mul (Nat.le_of_lt_succ hsig.2) (Nat.pow_le_pow_right Nat.two_pos h.2)

/-- The short-cuts take the words with no exponent and no fraction. -/
theorem magnitudeBits_eq_zero_iff (w : Word) :
    magnitudeBits w = 0#15 ↔ exponent w = 0 ∧ fracField w = 0#10 := by
  rw [← BitVec.toNat_inj, ← BitVec.toNat_inj, toNat_magnitudeBits, BitVec.toNat_ofNat,
    BitVec.toNat_ofNat, Nat.zero_mod]
  omega

/-- A word with a positive exponent is not zero. -/
theorem magnitudeBits_ne_zero {w : Word} (h : 1 ≤ exponent w) : magnitudeBits w ≠ 0#15 := fun h0 =>
  Nat.ne_of_gt h ((magnitudeBits_eq_zero_iff w).mp h0).1

/-- A word without an exponent has no mantissa. -/
theorem significand_eq_zero {w : Word} (h : exponent w = 0) : significand w = 0 := by
  have hexp : expField w = 0#5 := BitVec.eq_of_toNat_eq h
  rw [significand, mantissa, if_pos hexp]
  rfl

theorem magnitude_eq_zero {w : Word} (h : magnitudeBits w = 0#15) : magnitude w = 0 := by
  rw [magnitude, significand_eq_zero ((magnitudeBits_eq_zero_iff w).mp h).1, Nat.zero_mul]

theorem magnitude_pos {w : Word} (h : 1 ≤ exponent w) : 0 < magnitude w :=
  Nat.mul_pos (lt_of_lt_of_le (by decide) (significand_bounds h).1) (Nat.two_pow_pos _)

/-- `fp16_to_float` reads a zero or normal word as its signed magnitude. -/
theorem fp16ToFloat_eq {w : Word} (h : magnitudeBits w = 0#15 ∨ Normal w) :
    fp16ToFloat w = signedMagnitude w / 2 ^ 25 := by
  rcases h with h | h
  · obtain ⟨hexp, hfrac⟩ := (magnitudeBits_eq_zero_iff w).mp h
    rw [exponent] at hexp
    simp [fp16ToFloat, signedMagnitude, withSign, magnitude_eq_zero h, hexp, hfrac]
  · have hlow : (expField w).toNat ≠ 0 := Nat.ne_of_gt h.1
    have hhigh : (expField w).toNat ≠ 0x1F := by
      have := h.2
      rw [exponent] at this
      omega
    have hscale : (2 : ℚ) ^ ((((expField w).toNat + 127 - 15 : ℕ) : ℤ) - 127) =
        2 ^ (expField w).toNat / 2 ^ 15 := by
      rw [eq_div_iff (by norm_num), ← zpow_natCast, ← zpow_natCast, ← zpow_add₀ (by norm_num)]
      congr 1
      omega
    have hfrac : (((fracField w).toNat <<< 13 : ℕ) : ℚ) = (fracField w).toNat * 2 ^ 13 := by
      rw [Nat.shiftLeft_eq]
      push_cast
      ring
    have hmag : (magnitude w : ℚ) =
        (1024 + (fracField w).toNat) * 2 ^ (expField w).toNat := by
      rw [magnitude, significand_eq h.1, exponent]
      push_cast
      ring
    simp only [fp16ToFloat, if_neg hlow, if_neg hhigh, float32, hscale, hfrac, signedMagnitude,
      withSign]
    cases signBit w <;> simp only [Bool.false_eq_true, if_false, if_true, Int.cast_neg,
      Int.cast_natCast, hmag] <;> ring

/-- A zero word of either sign stands for zero. -/
theorem fp16ToFloat_of_zero {w : Word} (h : magnitudeBits w = 0#15) : fp16ToFloat w = 0 := by
  rw [fp16ToFloat_eq (Or.inl h), signedMagnitude, magnitude_eq_zero h]
  cases signBit w <;> simp [withSign]

end MatrixAccelerator.Interface
