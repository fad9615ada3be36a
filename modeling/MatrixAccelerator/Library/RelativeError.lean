import MatrixAccelerator.Library.LeadingDigits
import Mathlib.Algebra.Order.Field.Basic

/-!
# Relative error of rounding toward zero

`RoundedBelow ε k x y` says that `y` is `x` after at most `k` roundings toward zero, each
of which keeps at least the part `1 - ε`.  Roundings in sequence add up (`trans`), sums of
equally often rounded numbers are rounded as often (`add`), and cutting after `p + 1`
digits is one rounding with `ε = 1 / 2 ^ p` (`Leading.roundedBelow`).
-/

set_option autoImplicit false

namespace MatrixAccelerator.Library

variable {K : Type*} [Field K] [LinearOrder K] [IsStrictOrderedRing K]

/-- `y` is between `x * (1 - ε) ^ k` and `x`. -/
structure RoundedBelow (ε : K) (k : ℕ) (x y : K) : Prop where
  lower : x * (1 - ε) ^ k ≤ y
  upper : y ≤ x

namespace RoundedBelow

variable {ε x y z x' y' : K} {k l : ℕ}

omit [IsStrictOrderedRing K] in
theorem refl (ε x : K) : RoundedBelow ε 0 x x := ⟨by rw [pow_zero, mul_one], le_rfl⟩

theorem add (h : RoundedBelow ε k x y) (h' : RoundedBelow ε k x' y') :
    RoundedBelow ε k (x + x') (y + y') :=
  ⟨by rw [add_mul]; exact add_le_add h.lower h'.lower, add_le_add h.upper h'.upper⟩

/-- Scaling by a positive number keeps the relative error. -/
theorem div {c : K} (hc : 0 ≤ c) (h : RoundedBelow ε k x y) :
    RoundedBelow ε k (x / c) (y / c) where
  lower := by
    rw [div_mul_eq_mul_div]
    exact div_le_div_of_nonneg_right h.lower hc
  upper := div_le_div_of_nonneg_right h.upper hc

/-- Roundings one after another add up their steps. -/
theorem trans (hε : ε ≤ 1) (h : RoundedBelow ε k x y) (h' : RoundedBelow ε l y z) :
    RoundedBelow ε (k + l) x z where
  lower := by
    calc x * (1 - ε) ^ (k + l) = x * (1 - ε) ^ k * (1 - ε) ^ l := by rw [pow_add, mul_assoc]
      _ ≤ y * (1 - ε) ^ l := mul_le_mul_of_nonneg_right h.lower (pow_nonneg (by linarith) l)
      _ ≤ z := h'.lower
  upper := le_trans h'.upper h.upper

/-- Fewer steps of rounding count as more. -/
theorem mono (hε₀ : 0 ≤ ε) (hε : ε ≤ 1) (hx : 0 ≤ x) (hkl : k ≤ l) (h : RoundedBelow ε k x y) :
    RoundedBelow ε l x y where
  lower := by
    refine le_trans (mul_le_mul_of_nonneg_left ?_ hx) h.lower
    exact pow_le_pow_of_le_one (by linarith) (by linarith) hkl
  upper := h.upper

end RoundedBelow

/-- **Cutting is one rounding.** -/
theorem Leading.roundedBelow {p x m e : ℕ} (h : Leading p x m e) :
    RoundedBelow (1 / 2 ^ p : K) 1 x (m * 2 ^ e) where
  lower := by
    have hrel : (x : K) * 2 ^ p ≤ m * 2 ^ e * 2 ^ p + x := by exact_mod_cast h.relative
    have hpos : (0 : K) < 2 ^ p := by positivity
    rw [pow_one, mul_sub, mul_one, sub_le_iff_le_add, mul_one_div, ← sub_le_iff_le_add',
      le_div_iff₀ hpos, sub_mul]
    linarith
  upper := by exact_mod_cast h.le

end MatrixAccelerator.Library
