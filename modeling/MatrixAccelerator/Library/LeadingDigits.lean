import Mathlib.Data.Nat.Log
import Mathlib.Tactic.Linarith
import Mathlib.Tactic.Ring

/-!
# The leading digits of a natural number

`Leading p x m e` says that `m * 2 ^ e` is `x` cut after its first `p + 1` binary digits.
Cutting keeps what fits (`Leading.eq_of_fits`), loses less than one part in `2 ^ p`
(`Leading.relative`), does not see digits dropped before it (`Leading.of_floor`), and of a
number rounded up by less than a digit it still is one of the two neighbours
(`Faithful.of_ceil`).  A value is kept with its scale as one natural number, so that no
fractions are needed.
-/

set_option autoImplicit false

namespace MatrixAccelerator.Library

/-- `m` is the first `p + 1` binary digits of `x`, and `2 ^ e` the weight of the last of
them. -/
structure Leading (p x m e : ℕ) : Prop where
  low : 2 ^ p ≤ m
  high : m < 2 ^ (p + 1)
  le : m * 2 ^ e ≤ x
  lt : x < (m + 1) * 2 ^ e

/-- Multiples of `d` that differ by less than `d` do not differ. -/
theorem add_le_of_dvd_of_lt {d x y : ℕ} (hx : d ∣ x) (hy : d ∣ y) (h : x < y) : x + d ≤ y := by
  obtain ⟨a, rfl⟩ := hx
  obtain ⟨b, rfl⟩ := hy
  have hab : a < b := Nat.lt_of_mul_lt_mul_left h
  calc d * a + d = d * (a + 1) := by ring
    _ ≤ d * b := Nat.mul_le_mul_left d hab

namespace Leading

variable {p x y m e k n : ℕ}

/-- The number lies between two powers of two one apart. -/
theorem bounds (h : Leading p x m e) : 2 ^ (p + e) ≤ x ∧ x < 2 ^ (p + 1 + e) := by
  constructor
  · calc 2 ^ (p + e) = 2 ^ p * 2 ^ e := pow_add 2 p e
      _ ≤ m * 2 ^ e := Nat.mul_le_mul_right _ h.low
      _ ≤ x := h.le
  · calc x < (m + 1) * 2 ^ e := h.lt
      _ ≤ 2 ^ (p + 1) * 2 ^ e := Nat.mul_le_mul_right _ h.high
      _ = 2 ^ (p + 1 + e) := (pow_add 2 (p + 1) e).symm

/-- A power of two below the number bounds its scale from below. -/
theorem lt_of_le (h : Leading p x m e) (hk : 2 ^ k ≤ x) : k < p + 1 + e :=
  (Nat.pow_lt_pow_iff_right Nat.one_lt_two).mp (lt_of_le_of_lt hk h.bounds.2)

/-- A power of two above the number bounds its scale from above. -/
theorem lt_of_lt (h : Leading p x m e) (hk : x < 2 ^ k) : p + e < k :=
  (Nat.pow_lt_pow_iff_right Nat.one_lt_two).mp (lt_of_le_of_lt h.bounds.1 hk)

/-- Leading digits and their scale are determined by the number. -/
theorem unique {m' e' : ℕ} (h : Leading p x m e) (h' : Leading p x m' e') : m = m' ∧ e = e' := by
  have hle := h.lt_of_le h'.bounds.1
  have hge := h'.lt_of_le h.bounds.1
  have he : e = e' := by omega
  subst he
  have hm := Nat.lt_of_mul_lt_mul_right (lt_of_le_of_lt h.le h'.lt)
  have hm' := Nat.lt_of_mul_lt_mul_right (lt_of_le_of_lt h'.le h.lt)
  exact ⟨by omega, rfl⟩

/-- Between the two powers the quotient is the leading digits. -/
theorem of_div (hlow : 2 ^ (p + e) ≤ x) (hhigh : x < 2 ^ (p + 1 + e)) :
    Leading p x (x / 2 ^ e) e where
  low := (Nat.le_div_iff_mul_le (Nat.two_pow_pos e)).mpr (by rwa [← pow_add])
  high := (Nat.div_lt_iff_lt_mul (Nat.two_pow_pos e)).mpr (by rwa [← pow_add])
  le := Nat.div_mul_le_self x _
  lt := by
    rw [Nat.mul_comm]
    exact Nat.lt_mul_div_succ x (Nat.two_pow_pos e)

/-- Every number of more than `p` digits has leading digits. -/
theorem exists_of_le (hx : 2 ^ p ≤ x) : ∃ m e, Leading p x m e := by
  have hpos : x ≠ 0 := (lt_of_lt_of_le (Nat.two_pow_pos p) hx).ne'
  obtain ⟨e, he⟩ := Nat.exists_eq_add_of_le ((Nat.le_log_iff_pow_le Nat.one_lt_two hpos).mpr hx)
  have hlow := Nat.pow_log_le_self 2 hpos
  have hhigh := Nat.lt_pow_succ_log_self (b := 2) (by decide) x
  rw [he] at hlow hhigh
  exact ⟨x / 2 ^ e, e, of_div hlow (by rwa [Nat.add_right_comm])⟩

/-- The digits do not depend on the scale. -/
theorem scale_iff : Leading p (x * 2 ^ k) m (e + k) ↔ Leading p x m e := by
  have hm : m * 2 ^ (e + k) = m * 2 ^ e * 2 ^ k := by rw [pow_add, Nat.mul_assoc]
  have hm' : (m + 1) * 2 ^ (e + k) = (m + 1) * 2 ^ e * 2 ^ k := by rw [pow_add, Nat.mul_assoc]
  constructor
  · rintro ⟨hlow, hhigh, hle, hlt⟩
    rw [hm] at hle
    rw [hm'] at hlt
    exact ⟨hlow, hhigh, Nat.le_of_mul_le_mul_right hle (Nat.two_pow_pos k),
      Nat.lt_of_mul_lt_mul_right hlt⟩
  · rintro ⟨hlow, hhigh, hle, hlt⟩
    refine ⟨hlow, hhigh, ?_, ?_⟩
    · rw [hm]
      exact Nat.mul_le_mul_right _ hle
    · rw [hm']
      exact Nat.mul_lt_mul_of_pos_right hlt (Nat.two_pow_pos k)

/-- **Cutting twice.**  Digits dropped below the last leading digit do not show. -/
theorem of_floor (h : Leading p y m e) (hk : k ≤ e) (hdvd : 2 ^ k ∣ y) (hle : y ≤ x)
    (hlt : x < y + 2 ^ k) : Leading p x m e where
  low := h.low
  high := h.high
  le := le_trans h.le hle
  lt := by
    have hnext : 2 ^ k ∣ (m + 1) * 2 ^ e := Dvd.dvd.mul_left (pow_dvd_pow 2 hk) _
    exact lt_of_lt_of_le hlt (add_le_of_dvd_of_lt hdvd hnext h.lt)

/-- No number of `p + 1` digits lies strictly between two neighbours. -/
theorem not_between (hm : 2 ^ p ≤ m) (hn : n < 2 ^ (p + 1)) (hlt : m * 2 ^ e < n * 2 ^ k) :
    (m + 1) * 2 ^ e ≤ n * 2 ^ k := by
  rcases Nat.lt_or_ge k e with hke | hke
  · have hsmall : n * 2 ^ k ≤ m * 2 ^ e := by
      calc n * 2 ^ k ≤ 2 ^ (p + 1) * 2 ^ k := Nat.mul_le_mul_right _ hn.le
        _ = 2 ^ p * 2 ^ (k + 1) := by ring
        _ ≤ m * 2 ^ e := Nat.mul_le_mul hm (Nat.pow_le_pow_right Nat.two_pos hke)
    omega
  · have hstep := add_le_of_dvd_of_lt (Dvd.intro_left m rfl)
      (Dvd.dvd.mul_left (pow_dvd_pow 2 hke) n) hlt
    rwa [Nat.add_mul, Nat.one_mul]

/-- **Exactness.**  A number of `p + 1` digits is its leading digits. -/
theorem eq_of_fits (h : Leading p x m e) (hn : n < 2 ^ (p + 1)) (hx : x = n * 2 ^ k) :
    m * 2 ^ e = x := by
  rcases Nat.lt_or_ge (m * 2 ^ e) x with hlt | hge
  · have := not_between h.low hn (hx ▸ hlt)
    exact absurd (hx ▸ h.lt) (Nat.not_lt_of_le this)
  · exact le_antisymm h.le hge

/-- **Relative error.**  Cutting loses less than one part in `2 ^ p`. -/
theorem relative (h : Leading p x m e) : x * 2 ^ p ≤ m * 2 ^ e * 2 ^ p + x := by
  have hlost : x - m * 2 ^ e ≤ 2 ^ e := by
    have hlt := h.lt
    rw [Nat.add_mul, Nat.one_mul] at hlt
    exact Nat.sub_le_iff_le_add'.mpr hlt.le
  have hulp : 2 ^ e * 2 ^ p ≤ x := by
    rw [← pow_add, Nat.add_comm]
    exact h.bounds.1
  calc x * 2 ^ p = m * 2 ^ e * 2 ^ p + (x - m * 2 ^ e) * 2 ^ p := by
        rw [← Nat.add_mul, Nat.add_sub_cancel' h.le]
    _ ≤ m * 2 ^ e * 2 ^ p + x :=
        Nat.add_le_add_left (le_trans (Nat.mul_le_mul_right _ hlost) hulp) _

end Leading

/-- `y` is `x` cut after its leading digits, or, if that is not exact, the next number of
as many digits. -/
def Faithful (p x y : ℕ) : Prop :=
  ∃ m e, Leading p x m e ∧ (y = m * 2 ^ e ∨ m * 2 ^ e ≠ x ∧ y = (m + 1) * 2 ^ e)

namespace Faithful

variable {p x y m e k n : ℕ}

theorem of_leading (h : Leading p x m e) : Faithful p x (m * 2 ^ e) := ⟨m, e, h, Or.inl rfl⟩

/-- **Rounding up, then cutting.**  Of a number rounded up to a multiple of less than the
weight of its last leading digit, the leading digits are a faithful rounding. -/
theorem of_ceil (h : Leading p y m e) (hk : k < e) (hdvd : 2 ^ k ∣ y) (hle : x ≤ y)
    (hlt : y < x + 2 ^ k) : Faithful p x (m * 2 ^ e) := by
  rcases Nat.lt_or_ge x (m * 2 ^ e) with hx | hx
  · -- the digits of `y` are those of the upper neighbour of `x`
    have hm : 2 ^ k ∣ m * 2 ^ e := Dvd.dvd.mul_left (pow_dvd_pow 2 hk.le) m
    have hy : y = m * 2 ^ e := by
      by_contra hne
      have := add_le_of_dvd_of_lt hm hdvd (lt_of_le_of_ne h.le (Ne.symm hne))
      omega
    obtain ⟨e, rfl⟩ : ∃ e', e = e' + 1 := ⟨e - 1, by omega⟩
    have hweight : 2 ^ k ≤ 2 ^ e := Nat.pow_le_pow_right Nat.two_pos (by omega)
    rcases Nat.eq_or_lt_of_le h.low with hlow | hlow
    · -- the lower neighbour has one digit less before the point
      have hdouble : m * 2 ^ (e + 1) = (2 ^ (p + 1) - 1 + 1) * 2 ^ e := by
        rw [Nat.sub_add_cancel Nat.one_le_two_pow, ← hlow]
        ring
      have hlower : (2 ^ (p + 1) - 1) * 2 ^ e + 2 ^ e = m * 2 ^ (e + 1) := by
        rw [hdouble, Nat.add_mul, Nat.one_mul]
      have hhalf : 2 ^ p ≤ 2 ^ (p + 1) - 1 := by
        have := Nat.one_le_two_pow (n := p)
        rw [pow_succ]
        omega
      have hbelow : (2 ^ (p + 1) - 1) * 2 ^ e < x := by linarith
      exact ⟨2 ^ (p + 1) - 1, e, ⟨hhalf, Nat.sub_lt (Nat.two_pow_pos _) Nat.one_pos, hbelow.le,
        hdouble ▸ hx⟩, Or.inr ⟨hbelow.ne, hdouble⟩⟩
    · obtain ⟨m, rfl⟩ := Nat.exists_eq_succ_of_ne_zero (Nat.ne_of_gt (Nat.zero_lt_of_lt hlow))
      have hlower : m * 2 ^ (e + 1) + 2 * 2 ^ e = (m + 1) * 2 ^ (e + 1) := by ring
      have hbelow : m * 2 ^ (e + 1) < x := by linarith
      exact ⟨m, e + 1, ⟨Nat.le_of_lt_succ hlow, Nat.lt_of_succ_lt h.high, hbelow.le, hx⟩,
        Or.inr ⟨hbelow.ne, rfl⟩⟩
  · exact of_leading ⟨h.low, h.high, hx, lt_of_le_of_lt hle h.lt⟩

/-- What is faithful with a common scale is so without it. -/
theorem of_scale (hx : 2 ^ p ≤ x) (h : Faithful p (x * 2 ^ k) (y * 2 ^ k)) : Faithful p x y := by
  obtain ⟨m, e, hlead, hy⟩ := h
  have hweight : p + k < p + 1 + e :=
    hlead.lt_of_le (by rw [pow_add]; exact Nat.mul_le_mul_right _ hx)
  obtain ⟨e, rfl⟩ : ∃ e', e = e' + k := ⟨e - k, by omega⟩
  have hcancel : ∀ u v, u * 2 ^ k = v * 2 ^ (e + k) → u = v * 2 ^ e := fun u v huv =>
    Nat.eq_of_mul_eq_mul_right (Nat.two_pow_pos k) (by rw [huv, pow_add, Nat.mul_assoc])
  refine ⟨m, e, Leading.scale_iff.mp hlead, hy.imp (hcancel y m) ?_⟩
  rintro ⟨hne, hy⟩
  exact ⟨fun heq => hne (by rw [← heq, pow_add, Nat.mul_assoc]), hcancel y (m + 1) hy⟩

/-- A number that fits the digits is not rounded. -/
theorem eq_of_fits (h : Faithful p x y) (hn : n < 2 ^ (p + 1)) (hx : x = n * 2 ^ k) : y = x := by
  obtain ⟨m, e, hlead, rfl | ⟨hne, -⟩⟩ := h
  · exact hlead.eq_of_fits hn hx
  · exact absurd (hlead.eq_of_fits hn hx) hne

end Faithful

end MatrixAccelerator.Library
