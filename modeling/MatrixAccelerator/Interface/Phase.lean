import Mathlib.Data.Nat.Notation

/-!
# The phase machine, without its registers

What the control registers of the accelerator are for: the design is idle, or feeding
and accumulating, or shifting results out, and a counter tells how far it is.  `Phase`
carries the counter inside the phase it belongs to, so that a counter without a phase or
two phases at once cannot be written down.  `Phase.step` is one clock edge, with the one
input that matters to it: whether a START is written.
-/

set_option autoImplicit false

namespace MatrixAccelerator.Interface

/-- Idle, `c` edges into the calculation, or `c` edges into the drain. -/
inductive Phase
  | idle
  | calculating (c : ℕ)
  | draining (c : ℕ)
deriving DecidableEq

namespace Phase

/-- One clock edge.  A START is honoured in full from idle only: while calculating it is
overruled, while draining it switches the phase but not the counter. -/
def step (N : ℕ) (start : Bool) : Phase → Phase
  | idle => if start then calculating 0 else idle
  | calculating c => if c = 3 * N + 2 then draining 0 else calculating (c + 1)
  | draining c => if start then calculating (c + 1) else if c = 2 * N then idle else draining (c + 1)

/-- The counts the machine can reach. -/
def Bounded (N : ℕ) : Phase → Prop
  | idle => True
  | calculating c => c ≤ 3 * N + 2
  | draining c => c ≤ 2 * N

/-- The edges left until the machine is idle, if no START is written. -/
def remaining (N : ℕ) : Phase → ℕ
  | idle => 0
  | calculating c => (3 * N + 3 - c) + (2 * N + 1)
  | draining c => 2 * N + 1 - c

@[simp] theorem remaining_idle (N : ℕ) : idle.remaining N = 0 := rfl

@[simp] theorem remaining_calculating (N c : ℕ) :
    (calculating c).remaining N = (3 * N + 3 - c) + (2 * N + 1) := rfl

@[simp] theorem remaining_draining (N c : ℕ) :
    (draining c).remaining N = 2 * N + 1 - c := rfl

/-- The counts stay within their phases. -/
theorem bounded_step (N : ℕ) (start : Bool) {p : Phase} (h : p.Bounded N) :
    (p.step N start).Bounded N := by
  cases p with
  | idle => cases start <;> simp [step, Bounded]
  | calculating c =>
    by_cases hc : c = 3 * N + 2
    · simp [step, hc, Bounded]
    · simp only [step, hc, if_false, Bounded] at h ⊢
      omega
  | draining c =>
    simp only [Bounded] at h
    cases start with
    | true =>
      simp only [step, if_true, Bounded]
      omega
    | false =>
      by_cases hc : c = 2 * N
      · simp [step, hc, Bounded]
      · simp only [step, hc, Bool.false_eq_true, if_false, Bounded]
        omega

/-- Without a START every edge brings the machine one edge closer to idle. -/
theorem remaining_step (N : ℕ) {p : Phase} (h : p.Bounded N) :
    (p.step N false).remaining N = p.remaining N - 1 := by
  cases p with
  | idle => rfl
  | calculating c =>
    by_cases hc : c = 3 * N + 2
    · subst hc
      simp only [step, if_true, remaining]
      omega
    · simp only [step, hc, if_false, remaining, Bounded] at h ⊢
      omega
  | draining c =>
    by_cases hc : c = 2 * N
    · subst hc
      simp only [step, Bool.false_eq_true, if_false, if_true, remaining]
      omega
    · simp only [step, hc, Bool.false_eq_true, if_false, remaining, Bounded] at h ⊢
      omega

/-- Nothing is left to do only when idle. -/
theorem remaining_eq_zero_iff (N : ℕ) {p : Phase} (h : p.Bounded N) :
    p.remaining N = 0 ↔ p = idle := by
  cases p with
  | idle => simp [remaining]
  | calculating c => simp [remaining]
  | draining c =>
    simp only [remaining, Bounded] at h ⊢
    constructor
    · intro hr
      omega
    · intro hd
      cases hd

/-- The last edge before idle is the last edge of a drain. -/
theorem remaining_eq_one_iff (N : ℕ) {p : Phase} (h : p.Bounded N) :
    p.remaining N = 1 ↔ p = draining (2 * N) := by
  cases p with
  | idle => simp [remaining]
  | calculating c =>
    simp only [remaining, Bounded, reduceCtorEq, iff_false] at h ⊢
    omega
  | draining c =>
    simp only [remaining, Bounded, draining.injEq] at h ⊢
    omega

/-- What is left to do is never more than a whole run. -/
theorem remaining_le (N : ℕ) (p : Phase) : p.remaining N ≤ 5 * N + 4 := by
  cases p <;> simp only [remaining] <;> omega

end Phase

end MatrixAccelerator.Interface
