import MatrixAccelerator.Analysis.ControlRefinement
import MatrixAccelerator.Analysis.CoreStreaming
import MatrixAccelerator.Interface.Feed

/-!
# One clock edge of the top module, phase by phase

What `MatrixAccelTop.step` does to each register once the phase before the edge is
known.  The feeder shows zeros unless the design is calculating inside the first `N`
counts; the skew buffer moves only while calculating; the array is cleared by a START in
any phase; `mem_C` moves only on the odd counts of the drain.
-/

set_option autoImplicit false

namespace MatrixAccelerator.Analysis

open MatrixAccelerator.Library MatrixAccelerator.Model MatrixAccelerator.Interface

variable {N : ℕ}

/-! ## Words of the memories -/

/-- Different elements are different words of a memory. -/
theorem cell_inj {i j i' j' : Fin N} : cell i j = cell i' j' ↔ i = i' ∧ j = j' := by
  constructor
  · intro h
    have hval : i.val * N + j.val = i'.val * N + j'.val := congrArg Fin.val h
    have hj := j.isLt
    have hj' := j'.isLt
    have hmod : j.val = j'.val := by
      have hm := congrArg (· % N) hval
      simpa [Nat.mul_add_mod_self_right, Nat.mod_eq_of_lt, hj, hj'] using hm
    have hrow : i.val * N = i'.val * N := by omega
    exact ⟨Fin.ext (Nat.eq_of_mul_eq_mul_right (by omega) hrow), Fin.ext hmod⟩
  · rintro ⟨rfl, rfl⟩
    rfl

/-- Every word of a memory is an element. -/
theorem cell_divNat_modNat (k : Fin (N * N)) : cell k.divNat k.modNat = k := by
  apply Fin.ext
  simp only [cell, Fin.coe_divNat, Fin.coe_modNat]
  exact Nat.div_add_mod' k.val N

/-! ## The feeder -/

/-- Outside the calculation the feeder shows zeros. -/
theorem feed_of_not_calc {s : MatrixAccelTop N} (h : s.fsm.stateCalc = false) (g : Fin N) :
    s.aColFeed g = 0#16 ∧ s.bRowFeed g = 0#16 := by
  simp [MatrixAccelTop.aColFeed, MatrixAccelTop.bRowFeed, h]

/-- Past the last index the feeder shows zeros. -/
theorem feed_of_ge {s : MatrixAccelTop N} (h : N ≤ s.fsm.cycleCnt.toNat) (g : Fin N) :
    s.aColFeed g = 0#16 ∧ s.bRowFeed g = 0#16 := by
  have hlt : ¬ s.fsm.cycleCnt.toNat < N := by omega
  simp [MatrixAccelTop.aColFeed, MatrixAccelTop.bRowFeed, hlt]

/-- On count `k` of a calculation the feeder shows column `k` of A and row `k` of B. -/
theorem feed_of_calc {s : MatrixAccelTop N} {k : Fin N}
    (h : phase s.fsm = Phase.calculating k.val) (g : Fin N) :
    s.aColFeed g = s.memA (cell g k) ∧ s.bRowFeed g = s.memB (cell k g) := by
  obtain ⟨hcalc, hcnt⟩ := stateCalc_of_phase h
  have hk : (⟨k.val, k.isLt⟩ : Fin N) = k := rfl
  simp [MatrixAccelTop.aColFeed, MatrixAccelTop.bRowFeed, hcalc, hcnt]

/-- What the feeder shows at count `t` while the operand memories hold `A` and `B`. -/
def feedOf (A B : Fin (N * N) → Word) (t : ℕ) : (Fin N → Word) × (Fin N → Word) :=
  columnAndRow (fun i k => A (cell i k)) (fun k j => B (cell k j)) t

/-- What the feeder shows during a calculation, as a function of the memories and the count. -/
theorem feed_eq_feedOf {s : MatrixAccelTop N} (h : s.fsm.stateCalc = true) :
    (s.aColFeed, s.bRowFeed) = feedOf s.memA s.memB s.fsm.cycleCnt.toNat := by
  apply Prod.ext <;> funext g <;>
    simp [MatrixAccelTop.aColFeed, MatrixAccelTop.bRowFeed, feedOf, columnAndRow, h]

/-! ## The core -/

/-- Outside the calculation the skew lines hold. -/
theorem skew_step_of_not_calc {s : MatrixAccelTop N} (h : s.fsm.stateCalc = false)
    (bus : AvsCycle) : (s.step bus).core.skew = s.core.skew := by
  simp [MatrixAccelTop.step, SystolicCore.step, SkewBuffer.step, h]

/-- During a calculation the skew lines shift. -/
theorem skew_step_of_calc {s : MatrixAccelTop N} (h : s.fsm.stateCalc = true)
    (bus : AvsCycle) :
    (s.step bus).core.skew =
      { delayA := fun i => DelayLine.shift (s.core.skew.delayA i) (s.aColFeed i)
        delayB := fun j => DelayLine.shift (s.core.skew.delayB j) (s.bRowFeed j) } := by
  simp [MatrixAccelTop.step, SystolicCore.step, SkewBuffer.step, h]

/-- INTERNAL: A START clears every processing element, in every phase.
RTL: pe_fp16.v:29-32 -/
theorem array_step_of_start (s : MatrixAccelTop N) {bus : AvsCycle}
    (h : bus.clrPeSig = true) : (s.step bus).core.array = SystolicArray.reset := by
  funext i j
  simp [MatrixAccelTop.step, SystolicCore.step, SystolicArray.step, PeFp16.step, h,
    SystolicArray.reset]

/-- Idle and without a START, the array holds. -/
theorem array_step_of_idle {s : MatrixAccelTop N} (h : phase s.fsm = Phase.idle)
    {bus : AvsCycle} (hs : bus.clrPeSig = false) :
    (s.step bus).core.array = s.core.array := by
  obtain ⟨hcalc, hdrain⟩ := (phase_eq_idle_iff s.fsm).mp h
  funext i j
  simp [MatrixAccelTop.step, SystolicCore.step, SystolicArray.step, PeFp16.step, hs, hcalc,
    hdrain]

/-- The words a processing element receives from the left and from above. -/
def leftIn (s : MatrixAccelTop N) (i j : Fin N) : Word :=
  s.core.array.aWire (s.core.skew.aOutFlat s.aColFeed) i j.castSucc

/-- The word a processing element receives from above. -/
def topIn (s : MatrixAccelTop N) (i j : Fin N) : Word :=
  s.core.array.bWire (s.core.skew.bOutFlat s.bRowFeed) j i.castSucc

/-- INTERNAL: A draining array without a START moves the accumulators one half cell to
the right and the forwarded B words one cell down.
RTL: pe_fp16.v:33-40 -/
theorem array_step_of_drain {s : MatrixAccelTop N} {c : ℕ}
    (h : phase s.fsm = Phase.draining c) {bus : AvsCycle} (hs : bus.clrPeSig = false)
    (i j : Fin N) :
    (s.step bus).core.array i j =
      { aOut := (s.core.array i j).cReg, bOut := topIn s i j, cReg := leftIn s i j } := by
  obtain ⟨hcalc, hdrain, -⟩ := stateDrain_of_phase h
  simp [MatrixAccelTop.step, SystolicCore.step, SystolicArray.step, PeFp16.step, hs, hcalc,
    hdrain, leftIn, topIn]

/-- During a calculation the core is the grid with the feeder at its edges. -/
theorem grid_step_of_calc {s : MatrixAccelTop N} (hw : WellPhased N s.fsm) {c : ℕ}
    (h : phase s.fsm = Phase.calculating c) {bus : AvsCycle} (hs : bus.clrPeSig = false) :
    coreGrid (s.step bus).core =
      (coreGrid s.core).step fp16Mac (s.aColFeed, s.bRowFeed) := by
  have hcalc := (stateCalc_of_phase h).1
  have hdrain := hw.stateDrain_of_calculating h
  rw [← grid_step]
  simp only [MatrixAccelTop.step, hs, hcalc, hdrain, Bool.or_false]

/-! ## The result memory and the control registers -/

/-- Outside the drain `mem_C` holds. -/
theorem memC_step_of_not_drain {s : MatrixAccelTop N} (h : s.fsm.stateDrain = false)
    (bus : AvsCycle) : (s.step bus).memC = s.memC := by
  simp [MatrixAccelTop.step, MatrixAccelTop.memCNext, h]

/-- INTERNAL: A read of word `k` of the C window fetches that word of `mem_C`.
RTL: matrix_accel_top_systolic_array.v:170-171 -/
theorem readdataNext_cWindow (s : MatrixAccelTop N) {bus : AvsCycle} {k : Fin (N * N)}
    (hr : bus.read = true) (ha : bus.address.toNat = 0xC00 + k.val) :
    s.readdataNext bus = 0#16 ++ s.memC k := by
  have hne : bus.address ≠ 0#14 := by
    intro h0
    rw [h0, BitVec.toNat_ofNat, Nat.zero_mod] at ha
    omega
  have hwin : 0xC00 ≤ bus.address.toNat ∧ bus.address.toNat < 0xC00 + N * N := by
    have := k.isLt
    omega
  have hidx : ∀ h, (⟨bus.address.toNat - 0xC00, h⟩ : Fin (N * N)) = k := fun h =>
    Fin.ext (by simp only; omega)
  simp only [MatrixAccelTop.readdataNext, hr, if_true, if_neg hne, dif_pos hwin, hidx]

/-- The control registers do not depend on the data path. -/
@[simp] theorem fsm_step_eq (s : MatrixAccelTop N) (bus : AvsCycle) :
    (s.step bus).fsm = s.fsm.step N bus := rfl

end MatrixAccelerator.Analysis
