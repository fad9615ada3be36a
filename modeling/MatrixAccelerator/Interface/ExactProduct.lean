import MatrixAccelerator.Interface.Magnitude
import MatrixAccelerator.Interface.MatrixProduct
import Mathlib.Algebra.BigOperators.Fin
import Mathlib.Algebra.Ring.Rat
import Mathlib.Order.Interval.Finset.Fin

/-!
# The product over the rationals

What an element of the result would be without rounding: the dot product of the decoded
operands.
-/

set_option autoImplicit false

namespace MatrixAccelerator.Interface

open MatrixAccelerator.Library MatrixAccelerator.Model

/-- A zero of either sign or a normal word. -/
def ZeroOrNormal (w : Word) : Prop := magnitudeBits w = 0#15 ∨ Normal w

instance (w : Word) : Decidable (ZeroOrNormal w) := inferInstanceAs (Decidable (_ ∨ _))

/-- The exact dot product of a list of operand pairs. -/
def exactDot (ps : List (Word × Word)) : ℚ :=
  (ps.map fun p => fp16ToFloat p.1 * fp16ToFloat p.2).sum

@[simp] theorem exactDot_nil : exactDot [] = 0 := rfl

theorem exactDot_append (ps qs : List (Word × Word)) :
    exactDot (ps ++ qs) = exactDot ps + exactDot qs := by
  rw [exactDot, List.map_append, List.sum_append, exactDot, exactDot]

theorem exactDot_concat (ps : List (Word × Word)) (p : Word × Word) :
    exactDot (ps ++ [p]) = exactDot ps + fp16ToFloat p.1 * fp16ToFloat p.2 := by
  rw [exactDot_append, exactDot, exactDot, List.map_singleton, List.sum_singleton]

/-- The exact dot product of the operands is an entry of the matrix product. -/
theorem exactDot_operands {N : ℕ} (A B : Fin (N * N) → Word) (i j : Fin N) :
    exactDot (operands A B i j) =
      ∑ k, fp16ToFloat (A (cell i k)) * fp16ToFloat (B (cell k j)) := by
  rw [exactDot, operands, List.map_map, Fin.sum_univ_def]
  rfl

/-- A non-empty prefix of the operand pairs is a partial sum of the dot product. -/
theorem exactDot_initial {N : ℕ} {A B : Fin (N * N) → Word} {i j : Fin N}
    {qs : List (Word × Word)} (h : qs <+: operands A B i j) (hne : qs ≠ []) :
    ∃ m : Fin N, exactDot qs =
      ∑ k ∈ Finset.Iic m, fp16ToFloat (A (cell i k)) * fp16ToFloat (B (cell k j)) := by
  have hlen : qs.length ≤ N := by
    have := h.length_le
    rwa [operands, List.length_map, List.length_finRange] at this
  have hpos : 0 < qs.length := List.length_pos_iff.mpr hne
  refine ⟨⟨qs.length - 1, by omega⟩, ?_⟩
  have hset : ((List.finRange N).take qs.length).toFinset =
      Finset.Iic (⟨qs.length - 1, by omega⟩ : Fin N) := by
    ext k
    simp only [List.mem_toFinset, List.mem_take_iff_getElem, List.getElem_finRange,
      List.length_finRange, Finset.mem_Iic, Fin.le_def]
    constructor
    · rintro ⟨u, hu, rfl⟩
      simp only [Fin.val_cast]
      omega
    · intro hk
      exact ⟨k.val, by omega, rfl⟩
  rw [← hset, List.sum_toFinset _ ((List.nodup_finRange N).sublist (List.take_sublist _ _)),
    exactDot]
  conv_lhs => rw [List.prefix_iff_eq_take.mp h, operands, ← List.map_take, List.map_map]
  rfl

end MatrixAccelerator.Interface
