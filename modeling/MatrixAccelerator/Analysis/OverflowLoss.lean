import MatrixAccelerator.Analysis.AdderValue

/-!
# Overflow in an accumulation

The adder treats the exponent field 31 like any other: it is the binade from `2 ^ 16` to
`2 ^ 17`, and the next one wraps to the field 0.  So an accumulator that has overflowed
keeps its field as long as the exact magnitude stays in that binade: no carry with like
signs, and no borrow out of it with opposite ones, where the guard bits leave a quarter of
a last place.
-/

set_option autoImplicit false

namespace MatrixAccelerator.Analysis

open MatrixAccelerator.Library MatrixAccelerator.Model MatrixAccelerator.Interface

/-- The exponent field that both decoders read as an infinity or a NaN. -/
def Overflowed (w : Word) : Prop := exponent w = 31

instance (w : Word) : Decidable (Overflowed w) := inferInstanceAs (Decidable (_ = _))

/-- Adding `p` to the overflowed accumulator `acc` leaves the magnitude, read with the field
31 as the binade above 30, in that binade: below `2 ^ 17` with like signs, and above
`2 ^ 16 - 2 ^ 4` with opposite ones. -/
def KeepsOverflow (p acc : Word) : Prop :=
  if signBit p = signBit acc then magnitude p + magnitude acc < 2 ^ 42
  else 2 ^ 41 + magnitude p < magnitude acc + 2 ^ 29

/-- INTERNAL: The encoder's code for a sum with its leading one in the place of the larger
operand's.
RTL: fp16_add.v:45 -/
theorem shiftLeft_eq_one_iff (m : BitVec 14) :
    (Fp16Add.shiftLeft m).toNat = 1 ↔ 2 ^ 12 ≤ m.toNat ∧ m.toNat < 2 ^ 13 := by
  rcases Nat.lt_or_ge m.toNat (2 ^ 13) with hhigh | hcarry
  · rcases Nat.lt_or_ge m.toNat 4 with htiny | hlow
    · have hlast : ∀ k < 4, (Fp16Add.shiftLeft (BitVec.ofNat 14 k)).toNat = 11 := by decide
      have hshift := hlast m.toNat htiny
      rw [BitVec.ofNat_toNat, BitVec.setWidth_eq] at hshift
      omega
    · obtain ⟨-, -, hone, -⟩ := shiftLeft_spec hlow hhigh
      constructor
      · intro hshift
        rw [hshift, Nat.sub_self, pow_zero, Nat.mul_one] at hone
        exact ⟨hone, hhigh⟩
      · exact fun h => shiftLeft_eq (i := 12) (by decide) h.1 h.2
  · rw [shiftLeft_eq (i := 13) (by decide) hcarry m.isLt]
    omega

section Overflowed

variable {p acc : Word} (hacc : Overflowed acc)

include hacc

/-- An accumulator that has overflowed is in the topmost exponent. -/
theorem magnitude_overflowed : 2 ^ 41 ≤ magnitude acc ∧ magnitude acc < 2 ^ 42 := by
  have hbounds := (leading_magnitude (w := acc) (by rw [hacc]; decide)).bounds
  rwa [hacc] at hbounds

/-- INTERNAL: The larger operand has the full exponent field too. -/
theorem exponent_large_overflowed : exponent (Fp16Add.large p acc) = 31 := by
  have hfull : ∀ w : Word, exponent w < 32 := fun w => (expField w).isLt
  obtain ⟨horder, hexp, -⟩ := large_small p acc
  have hacc' : exponent acc = 31 := hacc
  rcases horder with ⟨hl, hs⟩ | ⟨hl, hs⟩
  · rw [hl, hs, hacc'] at hexp
    rw [hl]
    exact le_antisymm (Nat.le_of_lt_succ (hfull p)) hexp
  · rw [hl, hacc']

/-- INTERNAL: The guarded sum, in the binade of the field 31. -/
theorem mantSum_overflowed :
    2 ^ 12 ≤ (Fp16Add.mantSum p acc).toNat ∧ (Fp16Add.mantSum p acc).toNat < 2 ^ 13 ↔
      KeepsOverflow p acc := by
  have hexp := exponent_large_overflowed (p := p) hacc
  have hbounds := magnitude_overflowed hacc
  obtain ⟨horder, hle, hmag⟩ := large_small p acc
  obtain ⟨hfloor, hceil, hexact⟩ := alignedSmallNat_spec p acc
  have hsum := toNat_mantSum p acc
  have hsmall := alignedSmallNat_le p acc
  have hlarge : magnitude (Fp16Add.large p acc) = significand (Fp16Add.large p acc) * 2 ^ 31 := by
    rw [magnitude, hexp]
  have hsig := significand_bounds (w := Fp16Add.large p acc) (by omega)
  rw [hexp] at hfloor hceil hexact
  rw [hsum]
  unfold KeepsOverflow
  rcases horder with ⟨hl, hs⟩ | ⟨hl, hs⟩
  · -- both operands have overflowed, and nothing is dropped by the alignment
    have hacc' : exponent acc = 31 := hacc
    rw [hl] at hlarge hsig hsmall
    rw [hl, hs] at hmag ⊢
    rw [hs] at hexact
    have hnothing := hexact (by omega)
    by_cases hsign : signBit p = signBit acc
    · rw [if_pos hsign, if_pos hsign]
      omega
    · rw [if_neg hsign, if_neg hsign]
      omega
  · -- the accumulator is the larger one: the alignment may drop bits of the product
    rw [hl] at hlarge hsig hsmall
    rw [hl, hs]
    rw [hs] at hfloor hceil
    by_cases hsign : signBit p = signBit acc
    · rw [if_pos hsign.symm, if_pos hsign]
      omega
    · rw [if_neg (Ne.symm hsign), if_neg hsign]
      omega

/-- **When a sum keeps the overflow.** -/
theorem overflowed_add_iff : Overflowed (fp16Add p acc) ↔ KeepsOverflow p acc := by
  have hbits : magnitudeBits acc ≠ 0#15 := magnitudeBits_ne_zero (by rw [hacc]; decide)
  have hbounds := magnitude_overflowed hacc
  by_cases hzero : magnitudeBits p = 0#15
  · have hresult : fp16Add p acc = acc := if_pos hzero
    have hmag := magnitude_eq_zero hzero
    rw [hresult]
    refine iff_of_true hacc ?_
    unfold KeepsOverflow
    split <;> omega
  · rw [← mantSum_overflowed hacc, ← shiftLeft_eq_one_iff]
    by_cases hne : Fp16Add.mantSum p acc = 0#14
    · have hresult : fp16Add p acc = 0#16 := by
        unfold fp16Add
        rw [if_neg hzero, if_neg hbits, if_pos hne]
      rw [hresult, hne]
      exact iff_of_false (by decide) (by decide)
    · have hshift := (Fp16Add.shiftLeft (Fp16Add.mantSum p acc)).isLt
      unfold Overflowed
      rw [exponent_fp16Add hzero hbits hne, exponent_large_overflowed hacc]
      omega

end Overflowed

/-- **When an accumulation keeps its overflow.**  An exponent field of 31 on the way is still
there at the end, over every prefix of the operand pairs, if and only if every pair that
meets an overflowed accumulator has a product that keeps the sum in its binade.
RTL: fp16_add.v:28-84, fp16_mac.v:9-21, pe_fp16.v:33-44 -/
theorem overflow_kept_iff (ps : List (Word × Word)) :
    (∀ qs, qs <+: ps → ∀ rs, rs <+: qs →
        Overflowed (macFold 0#16 rs) → Overflowed (macFold 0#16 qs)) ↔
      ∀ qs p, qs ++ [p] <+: ps → Overflowed (macFold 0#16 qs) →
        KeepsOverflow (fp16Mult p.1 p.2) (macFold 0#16 qs) := by
  refine Iff.trans (latches_iff _ _) ?_
  constructor
  · exact fun h qs p hp hover => (overflowed_add_iff hover).mp (h qs p hp hover)
  · exact fun h qs p hp hover => (overflowed_add_iff hover).mpr (h qs p hp hover)

/-- Four times `32768`: the third accumulator still has the field 31, the last one is `0`. -/
theorem overflow_lost :
    (∀ p ∈ List.replicate 4 (0x7800#16, 0x3C00#16), exponent p.1 ≤ 30 ∧ exponent p.2 ≤ 30) ∧
      Overflowed (macFold 0#16 (List.replicate 3 (0x7800#16, 0x3C00#16))) ∧
      macFold 0#16 (List.replicate 4 (0x7800#16, 0x3C00#16)) = 0#16 ∧
      ¬ ∀ rs, rs <+: List.replicate 4 (0x7800#16, 0x3C00#16) → Overflowed (macFold 0#16 rs) →
        Overflowed (macFold 0#16 (List.replicate 4 (0x7800#16, 0x3C00#16))) := by
  have hover : Overflowed (macFold 0#16 (List.replicate 3 (0x7800#16, 0x3C00#16))) := by decide
  have hlast : macFold 0#16 (List.replicate 4 (0x7800#16, 0x3C00#16)) = 0#16 := by decide
  have hbefore : List.replicate 3 (0x7800#16, 0x3C00#16) <+:
      List.replicate 4 (0x7800#16, 0x3C00#16) := ⟨[(0x7800#16, 0x3C00#16)], rfl⟩
  refine ⟨fun p hp => ?_, hover, hlast, fun h => ?_⟩
  · rw [List.eq_of_mem_replicate hp]
    decide
  · have hkept := h _ hbefore hover
    rw [hlast] at hkept
    exact absurd hkept (by decide)

end MatrixAccelerator.Analysis
