import MatrixAccelerator.Interface.Phase
import MatrixAccelerator.Model.Top
import Mathlib.Tactic.Common

/-!
# The control registers refine the phase machine

For `N ≤ 84` the eight-bit counter reaches every count it is compared with, and one edge
of the control registers is one step of `Phase` (`fsm_step`).  Everything later results
need of the `always` block is said here once: which phase follows which, when `ctrl_done`
changes, and that one edge in which the two assignments of `ctrl_done` collide.
-/

set_option autoImplicit false

namespace MatrixAccelerator.Analysis

open MatrixAccelerator.Model MatrixAccelerator.Interface

/-- The phase the control registers stand for. -/
def phase (s : Fsm) : Phase :=
  if s.stateCalc then Phase.calculating s.cycleCnt.toNat
  else if s.stateDrain then Phase.draining s.cycleCnt.toNat
  else Phase.idle

/-- The control registers hold one phase and a count the phase can reach. -/
structure WellPhased (N : ℕ) (s : Fsm) : Prop where
  exclusive : ¬ (s.stateCalc = true ∧ s.stateDrain = true)
  bounded : (phase s).Bounded N

/-- The phase is idle when neither state bit is set. -/
theorem phase_eq_idle_iff (s : Fsm) :
    phase s = Phase.idle ↔ s.stateCalc = false ∧ s.stateDrain = false := by
  obtain ⟨st, dn, cnt, calcFlag, drainFlag⟩ := s
  cases calcFlag <;> cases drainFlag <;> simp [phase]

/-- What the registers hold while calculating. -/
theorem stateCalc_of_phase {s : Fsm} {c : ℕ} (h : phase s = Phase.calculating c) :
    s.stateCalc = true ∧ s.cycleCnt.toNat = c := by
  obtain ⟨st, dn, cnt, calcFlag, drainFlag⟩ := s
  cases calcFlag <;> cases drainFlag <;> simp_all [phase]

/-- What the registers hold while draining. -/
theorem stateDrain_of_phase {s : Fsm} {c : ℕ} (h : phase s = Phase.draining c) :
    s.stateCalc = false ∧ s.stateDrain = true ∧ s.cycleCnt.toNat = c := by
  obtain ⟨st, dn, cnt, calcFlag, drainFlag⟩ := s
  cases calcFlag <;> cases drainFlag <;> simp_all [phase]

/-- The two state bits are never set together. -/
theorem WellPhased.stateDrain_of_calculating {N : ℕ} {s : Fsm} (h : WellPhased N s) {c : ℕ}
    (hp : phase s = Phase.calculating c) : s.stateDrain = false := by
  have hcalc := (stateCalc_of_phase hp).1
  cases hd : s.stateDrain with
  | false => rfl
  | true => exact absurd ⟨hcalc, hd⟩ h.exclusive

/-- A calculation never counts past `3 * N + 2`. -/
theorem WellPhased.calculating_le {N : ℕ} {s : Fsm} (h : WellPhased N s) {c : ℕ}
    (hp : phase s = Phase.calculating c) : c ≤ 3 * N + 2 := by
  have hbound := h.bounded
  rwa [hp] at hbound

/-- A drain never counts past `2 * N`. -/
theorem WellPhased.draining_le {N : ℕ} {s : Fsm} (h : WellPhased N s) {c : ℕ}
    (hp : phase s = Phase.draining c) : c ≤ 2 * N := by
  have hbound := h.bounded
  rwa [hp] at hbound

/-- The counter goes up by one below its maximum. -/
theorem cycleCnt_succ {cnt : BitVec 8} (h : cnt.toNat < 255) :
    (cnt + 1#8).toNat = cnt.toNat + 1 := by
  rw [BitVec.toNat_add]
  exact Nat.mod_eq_of_lt (by simpa using Nat.succ_lt_succ h)

/-- The two cases of a START: it sets up the calculation, or only `ctrl_start` may change. -/
theorem startBranch_eq (bus : AvsCycle) (s : Fsm) :
    (bus.clrPeSig = true ∧ Fsm.startBranch bus s = ⟨true, false, 0#8, true, false⟩) ∨
      (bus.clrPeSig = false ∧
        ∃ b, Fsm.startBranch bus s = { s with ctrlStart := b }) := by
  unfold AvsCycle.clrPeSig Fsm.startBranch
  cases hw : bus.write && decide (bus.address = 0#14) with
  | false => exact Or.inr ⟨by simp, s.ctrlStart, by simp⟩
  | true =>
    cases hd : bus.writedata.getLsbD 0 with
    | false => exact Or.inr ⟨by simp, false, by simp⟩
    | true => exact Or.inl ⟨by simp, by simp⟩

/-- A START sets up the calculation from count zero. -/
theorem startBranch_start {bus : AvsCycle} (hbus : bus.clrPeSig = true) (s : Fsm) :
    Fsm.startBranch bus s = ⟨true, false, 0#8, true, false⟩ := by
  cases startBranch_eq bus s with
  | inl hstart => exact hstart.2
  | inr hquiet =>
    rw [hbus] at hquiet
    cases hquiet.1

/-- Without a START only `ctrl_start` may change. -/
theorem startBranch_quiet {bus : AvsCycle} (hbus : bus.clrPeSig = false) (s : Fsm) :
    ∃ b, Fsm.startBranch bus s = { s with ctrlStart := b } := by
  cases startBranch_eq bus s with
  | inl hstart =>
    rw [hbus] at hstart
    cases hstart.1
  | inr hquiet => exact hquiet.2

/-- **One edge of the control registers.**  The flags stay exclusive, the phase takes one
step of the phase machine, and `ctrl_done` is set by the last drain edge, whatever is on
the bus, and otherwise cleared by a START.
RTL: matrix_accel_top_systolic_array.v:104-144 -/
theorem fsm_step {N : ℕ} (hN : N ≤ 84) {s : Fsm} (h : WellPhased N s) (bus : AvsCycle) :
    ¬ ((s.step N bus).stateCalc = true ∧ (s.step N bus).stateDrain = true) ∧
      phase (s.step N bus) = (phase s).step N bus.clrPeSig ∧
      (s.step N bus).ctrlDone =
        (decide (phase s = Phase.draining (2 * N)) || (!bus.clrPeSig && s.ctrlDone)) := by
  obtain ⟨hexcl, hbound⟩ := h
  obtain ⟨st, dn, cnt, calcFlag, drainFlag⟩ := s
  have hcount : ∀ m, m ≤ 254 → cnt.toNat ≤ m → (cnt + 1#8).toNat = cnt.toNat + 1 :=
    fun m hm hc => cycleCnt_succ (by omega)
  cases calcFlag with
  | true =>
    have hdrain : drainFlag = false := by
      cases drainFlag with
      | false => rfl
      | true => exact absurd ⟨rfl, rfl⟩ hexcl
    subst hdrain
    simp only [phase, if_true, Phase.Bounded] at hbound
    have hsucc := hcount _ (by omega) hbound
    rcases startBranch_eq bus ⟨st, dn, cnt, true, false⟩ with ⟨hs, hb⟩ | ⟨hs, b, hb⟩ <;>
      by_cases hc : cnt.toNat = 3 * N + 2 <;>
      simp [Fsm.step, Fsm.calcBranch, Fsm.drainBranch, hb, hc, hs, phase, Phase.step, hsucc]
  | false =>
    cases drainFlag with
    | true =>
      simp only [phase, Bool.false_eq_true, if_false, if_true, Phase.Bounded] at hbound
      have hsucc := hcount _ (by omega) hbound
      rcases startBranch_eq bus ⟨st, dn, cnt, false, true⟩ with ⟨hs, hb⟩ | ⟨hs, b, hb⟩ <;>
        by_cases hc : cnt.toNat = 2 * N <;>
        simp [Fsm.step, Fsm.calcBranch, Fsm.drainBranch, hb, hc, hs, phase, Phase.step, hsucc]
    | false =>
      rcases startBranch_eq bus ⟨st, dn, cnt, false, false⟩ with ⟨hs, hb⟩ | ⟨hs, b, hb⟩ <;>
        simp [Fsm.step, Fsm.calcBranch, Fsm.drainBranch, hb, hs, phase, Phase.step]

/-- One edge keeps the counts within their phases, as long as they fit the counter. -/
theorem WellPhased.step {N : ℕ} (hN : N ≤ 84) {s : Fsm} (h : WellPhased N s) (bus : AvsCycle) :
    WellPhased N (s.step N bus) := by
  obtain ⟨hexcl, hphase, -⟩ := fsm_step hN h bus
  refine ⟨hexcl, ?_⟩
  rw [hphase]
  exact Phase.bounded_step N bus.clrPeSig h.bounded

end MatrixAccelerator.Analysis
