import MatrixAccelerator.Interface.Magnitude
import MatrixAccelerator.Interface.MatrixProduct

/-!
# Negating an operand matrix negates the product

Neither unit looks at bit 15 except to form the sign of its result, and the adder only
asks whether two signs differ.  So flipping bit 15 of one factor flips that of the product,
and flipping it in both addends flips that of the sum, whatever the other fields are; the
one sign that does not follow is that of a zero, which the short-cuts set themselves.
-/

set_option autoImplicit false

namespace MatrixAccelerator.Analysis

open MatrixAccelerator.Library MatrixAccelerator.Model MatrixAccelerator.Interface

/-- The word with bit 15 flipped. -/
def flipSign (w : Word) : Word := w ^^^ 0x8000#16

/-- The second word is the first with bit 15 flipped, or both have zero magnitude bits. -/
def SignMirror (c c' : Word) : Prop :=
  c' = flipSign c ∨ magnitudeBits c = 0#15 ∧ magnitudeBits c' = 0#15

/-- Flipping the sign changes the sign bit alone. -/
theorem flipSign_fields (w : Word) :
    signBit (flipSign w) = !signBit w ∧ expField (flipSign w) = expField w ∧
      fracField (flipSign w) = fracField w ∧ magnitudeBits (flipSign w) = magnitudeBits w := by
  refine ⟨?_, ?_, ?_, ?_⟩
  · unfold signBit flipSign
    rw [BitVec.getLsbD_xor]
    exact Bool.xor_true _
  · unfold expField flipSign
    rw [BitVec.extractLsb'_xor]
    exact BitVec.xor_zero
  · unfold fracField flipSign
    rw [BitVec.extractLsb'_xor]
    exact BitVec.xor_zero
  · unfold magnitudeBits flipSign
    rw [BitVec.extractLsb'_xor]
    exact BitVec.xor_zero

/-- Flipping the sign keeps the mantissa. -/
theorem mantissa_flipSign (w : Word) : mantissa (flipSign w) = mantissa w := by
  obtain ⟨-, hexp, hfrac, -⟩ := flipSign_fields w
  unfold mantissa
  rw [hexp, hfrac]

/-- The opposite sign put into a word is the word with its sign flipped. -/
theorem assemble_not (sign : Bool) (exp : BitVec 5) (frac : BitVec 10) :
    assemble (!sign) exp frac = flipSign (assemble sign exp frac) := by
  apply BitVec.eq_of_getLsbD_eq
  intro i hi
  have hmask : ∀ j < 16, (0x8000#16).getLsbD j = decide (j = 15) := by decide
  rw [flipSign, BitVec.getLsbD_xor, getLsbD_assemble, getLsbD_assemble, hmask i hi]
  rcases Nat.lt_or_ge i 15 with hlow | hhigh
  · rw [decide_eq_false (by omega : ¬ i = 15), Bool.false_and, Bool.false_and, Bool.xor_false]
  · rw [if_neg (by omega), if_neg (by omega), if_neg (by omega), if_neg (by omega),
      decide_eq_true (by omega : i = 15), Bool.true_and, Bool.true_and, Bool.xor_true]

/-- The multiplier on a flipped factor.
RTL: fp16_mult.v:24, 31-45 -/
theorem fp16Mult_flipSign (x y : Word) : SignMirror (fp16Mult x y) (fp16Mult (flipSign x) y) := by
  obtain ⟨hsign, hexp, -, hbits⟩ := flipSign_fields x
  have hsum : Fp16Mult.expSum (flipSign x) y = Fp16Mult.expSum x y := by
    unfold Fp16Mult.expSum
    rw [hexp]
  have hmant : Fp16Mult.mantMult (flipSign x) y = Fp16Mult.mantMult x y := by
    unfold Fp16Mult.mantMult
    rw [mantissa_flipSign]
  unfold fp16Mult
  rw [hbits, hsum, hmant, hsign, Bool.not_xor]
  split
  · exact Or.inr ⟨magnitudeBits_zero, magnitudeBits_zero⟩
  · split
    · exact Or.inl (assemble_not _ _ _)
    · exact Or.inl (assemble_not _ _ _)

/-- INTERNAL: The comparison that orders the addends does not see their signs. -/
theorem large_small_flipSign (a b : Word) :
    Fp16Add.large (flipSign a) (flipSign b) = flipSign (Fp16Add.large a b) ∧
      Fp16Add.small (flipSign a) (flipSign b) = flipSign (Fp16Add.small a b) := by
  obtain ⟨-, hexpA, -, -⟩ := flipSign_fields a
  obtain ⟨-, hexpB, -, -⟩ := flipSign_fields b
  have hlarger : Fp16Add.aIsLarger (flipSign a) (flipSign b) = Fp16Add.aIsLarger a b := by
    unfold Fp16Add.aIsLarger
    rw [hexpA, hexpB, mantissa_flipSign, mantissa_flipSign]
  unfold Fp16Add.large Fp16Add.small
  rw [hlarger]
  exact ⟨(apply_ite flipSign _ _ _).symm, (apply_ite flipSign _ _ _).symm⟩

/-- The adder on two flipped addends, neither of them zero.
RTL: fp16_add.v:20-39, 69-83 -/
theorem fp16Add_flipSign {a b : Word} (ha : magnitudeBits a ≠ 0#15) (hb : magnitudeBits b ≠ 0#15) :
    SignMirror (fp16Add a b) (fp16Add (flipSign a) (flipSign b)) := by
  obtain ⟨hlarge, hsmall⟩ := large_small_flipSign a b
  obtain ⟨hsignL, hexpL, -, -⟩ := flipSign_fields (Fp16Add.large a b)
  obtain ⟨hsignS, hexpS, -, -⟩ := flipSign_fields (Fp16Add.small a b)
  have hmant : Fp16Add.mantSum (flipSign a) (flipSign b) = Fp16Add.mantSum a b := by
    unfold Fp16Add.mantSum Fp16Add.alignedLarge Fp16Add.alignedSmall Fp16Add.expDiff
    rw [hlarge, hsmall, hexpL, hexpS, mantissa_flipSign, mantissa_flipSign, hsignL, hsignS]
    simp only [Bool.not_inj_iff]
  have hnorm : Fp16Add.normalizedExp (flipSign a) (flipSign b) = Fp16Add.normalizedExp a b := by
    unfold Fp16Add.normalizedExp
    rw [hlarge, hexpL, hmant]
  unfold fp16Add
  rw [(flipSign_fields a).2.2.2, (flipSign_fields b).2.2.2, if_neg ha, if_neg hb, if_neg ha,
    if_neg hb, hmant, hnorm, hlarge, hsignL, hexpL]
  split
  · exact Or.inr ⟨magnitudeBits_zero, magnitudeBits_zero⟩
  · split
    · exact Or.inl (assemble_not _ _ _)
    · exact Or.inl (assemble_not _ _ _)

namespace SignMirror

variable {a a' b b' : Word}

/-- Mirrored words agree below the sign. -/
theorem magnitudeBits_eq (h : SignMirror a a') : magnitudeBits a' = magnitudeBits a := by
  cases h with
  | inl hflip =>
    rw [hflip]
    exact (flipSign_fields a).2.2.2
  | inr hzero => rw [hzero.1, hzero.2]

/-- INTERNAL: Outside the zeros the sign bit does differ. -/
theorem eq_flipSign (h : SignMirror a a') (ha : magnitudeBits a ≠ 0#15) : a' = flipSign a :=
  h.resolve_right fun hzero => ha hzero.1

/-- **The adder keeps the mirror.**  A zero addend hands on the other one, a mirror by
assumption; without one the circuit sees two flipped addends. -/
theorem add (ha : SignMirror a a') (hb : SignMirror b b') :
    SignMirror (fp16Add a b) (fp16Add a' b') := by
  by_cases hzeroA : magnitudeBits a = 0#15
  · have hzeroA' := ha.magnitudeBits_eq.trans hzeroA
    unfold fp16Add
    rw [if_pos hzeroA, if_pos hzeroA']
    exact hb
  · by_cases hzeroB : magnitudeBits b = 0#15
    · have hzeroA' := fun h => hzeroA (ha.magnitudeBits_eq.symm.trans h)
      have hzeroB' := hb.magnitudeBits_eq.trans hzeroB
      unfold fp16Add
      rw [if_neg hzeroA, if_neg hzeroA', if_pos hzeroB, if_pos hzeroB']
      exact ha
    · rw [ha.eq_flipSign hzeroA, hb.eq_flipSign hzeroB]
      exact fp16Add_flipSign hzeroA hzeroB

end SignMirror

/-- **Sign symmetry.**  With bit 15 of every element of A flipped, every element of the
product has its bit 15 flipped, or is a zero in both products; for all sixteen-bit
patterns.
RTL: fp16_mac.v:9-21, fp16_add.v:9-84, fp16_mult.v:24-48 -/
theorem sign_symmetric {N : ℕ} (A B : Fin (N * N) → Word) (i j : Fin N) :
    SignMirror (productEntry A B i j) (productEntry (fun k => flipSign (A k)) B i j) := by
  have hpairs : List.Forall₂ (fun p q : Word × Word => q = (flipSign p.1, p.2))
      (operands A B i j) (operands (fun k => flipSign (A k)) B i j) := by
    unfold operands
    rw [List.forall₂_map_left_iff, List.forall₂_map_right_iff]
    exact List.forall₂_same.mpr fun k _ => rfl
  unfold productEntry macFold
  apply accumulate_relates (R := SignMirror) _ _ (Or.inr ⟨rfl, rfl⟩) hpairs
  rintro p - c c' rfl hc
  exact (fp16Mult_flipSign p.1 p.2).add hc

end MatrixAccelerator.Analysis
