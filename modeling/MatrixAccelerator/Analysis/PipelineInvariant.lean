import MatrixAccelerator.Analysis.TopStep
import MatrixAccelerator.Model.Driver

/-!
# The pipeline is clean whenever the machine is idle

The registers of the skew lines and of the processing elements that can hold a non-zero
word are a function of the phase and its count: the feeder shows zeros from count `N` on,
so a skew register at depth `k` is zero from count `N + k + 1` on, and every edge of the
drain pushes one more zero into each row and column.  `CleanPipeline` says that all other
registers are zero; it survives every bus cycle, a START on any edge included.
-/

set_option autoImplicit false

namespace MatrixAccelerator.Analysis

open MatrixAccelerator.Library MatrixAccelerator.Model MatrixAccelerator.Interface

variable {N : ℕ}

/-- The phases in which a skew register at depth `k` may be non-zero. -/
def LaneLive (N : ℕ) : Phase → ℕ → Prop
  | Phase.calculating c, k => c ≤ N + k
  | _, _ => False

/-- The phases in which an accumulator of column `j` may be non-zero. -/
def AccLive : Phase → ℕ → Prop
  | Phase.idle, _ => False
  | Phase.calculating _, _ => True
  | Phase.draining c, j => c ≤ 2 * j

/-- The phases in which the forwarded A word of column `j` may be non-zero. -/
def RightLive : Phase → ℕ → Prop
  | Phase.idle, _ => False
  | Phase.calculating _, _ => True
  | Phase.draining c, j => c ≤ 2 * j + 1

/-- The phases in which the forwarded B word of row `i` may be non-zero. -/
def DownLive : Phase → ℕ → Prop
  | Phase.idle, _ => False
  | Phase.calculating _, _ => True
  | Phase.draining c, i => c ≤ i

/-- The machine holds one phase, and every register that the phase leaves no room for is
zero. -/
structure CleanPipeline (s : MatrixAccelTop N) : Prop where
  wellPhased : WellPhased N s.fsm
  delayA : ∀ i k, ¬ LaneLive N (phase s.fsm) k.val → s.core.skew.delayA i k = 0#16
  delayB : ∀ i k, ¬ LaneLive N (phase s.fsm) k.val → s.core.skew.delayB i k = 0#16
  cReg : ∀ i j, ¬ AccLive (phase s.fsm) j.val → (s.core.array i j).cReg = 0#16
  aOut : ∀ i j, ¬ RightLive (phase s.fsm) j.val → (s.core.array i j).aOut = 0#16
  bOut : ∀ i j, ¬ DownLive (phase s.fsm) i.val → (s.core.array i j).bOut = 0#16

/-- The output of a line of zeros is zero. -/
theorem output_zero {n : ℕ} {x : Word} {line : Fin n → Word} (hx : x = 0#16)
    (h : ∀ k, line k = 0#16) : DelayLine.output x line = 0#16 := by
  cases n with
  | zero => exact hx
  | succ n => exact h (Fin.last n)

/-- Outside the calculation no place of a line is live. -/
theorem not_laneLive_of_not_calc {s : Fsm} (hc : s.stateCalc = false) (k : ℕ) :
    ¬ LaneLive N (phase s) k := by
  cases hp : phase s with
  | calculating c => exact absurd (stateCalc_of_phase hp).1 (by rw [hc]; exact Bool.false_ne_true)
  | idle => exact id
  | draining c => exact id

/-- Outside the calculation zeros enter the array. -/
theorem CleanPipeline.edges {s : MatrixAccelTop N} (h : CleanPipeline s)
    (hc : s.fsm.stateCalc = false) (i : Fin N) :
    s.core.skew.aOutFlat s.aColFeed i = 0#16 ∧ s.core.skew.bOutFlat s.bRowFeed i = 0#16 := by
  have hdead := not_laneLive_of_not_calc (N := N) hc
  obtain ⟨ha, hb⟩ := feed_of_not_calc hc i
  exact ⟨output_zero ha fun k => h.delayA i k (hdead k.val),
    output_zero hb fun k => h.delayB i k (hdead k.val)⟩

/-- Outside the calculation the skew lines keep their zeros. -/
theorem CleanPipeline.lanes_hold {s : MatrixAccelTop N} (h : CleanPipeline s)
    (hc : s.fsm.stateCalc = false) (bus : AvsCycle) (i : Fin N) (k : Fin i.val) :
    (s.step bus).core.skew.delayA i k = 0#16 ∧ (s.step bus).core.skew.delayB i k = 0#16 := by
  have hdead := not_laneLive_of_not_calc (N := N) hc k.val
  rw [skew_step_of_not_calc hc]
  exact ⟨h.delayA i k hdead, h.delayB i k hdead⟩

/-- Out of reset the pipeline is clean. -/
theorem reset_cleanPipeline (N : ℕ) : CleanPipeline (MatrixAccelTop.reset N) where
  wellPhased := ⟨by simp [MatrixAccelTop.reset, Fsm.reset], trivial⟩
  delayA _ _ _ := rfl
  delayB _ _ _ := rfl
  cReg _ _ _ := rfl
  aOut _ _ _ := rfl
  bOut _ _ _ := rfl

/-- INTERNAL: A lane register that is dead after an edge was loaded from a dead register,
or from the feeder past count `N`.
RTL: skew_buffer.v:23-26, matrix_accel_top_systolic_array.v:62-64 -/
theorem lanes_step (hN : N ≤ 84) {s : MatrixAccelTop N} (h : CleanPipeline s)
    (bus : AvsCycle) (i : Fin N) (k : Fin i.val)
    (hk : ¬ LaneLive N (phase (s.step bus).fsm) k.val) :
    (s.step bus).core.skew.delayA i k = 0#16 ∧ (s.step bus).core.skew.delayB i k = 0#16 := by
  have hi := i.isLt
  have hki := k.isLt
  rw [fsm_step_eq, (fsm_step hN h.wellPhased bus).2.1] at hk
  cases hp : phase s.fsm with
  | calculating c =>
    obtain ⟨hcalc, hcnt⟩ := stateCalc_of_phase hp
    have hdead : N + k.val < c + 1 := by
      by_cases hc : c = 3 * N + 2
      · omega
      · simpa [hp, Phase.step, hc, LaneLive] using hk
    have hfeed := feed_of_ge (s := s) (by omega) i
    rw [skew_step_of_calc hcalc]
    simp only [DelayLine.shift_apply]
    by_cases hk0 : 0 < k.val
    · have hold : ¬ LaneLive N (phase s.fsm) (k.val - 1) := by
        rw [hp]
        simp only [LaneLive]
        omega
      rw [DelayLine.taps_of_pos _ _ _ (by simpa using hk0),
        DelayLine.taps_of_pos _ _ _ (by simpa using hk0)]
      exact ⟨h.delayA i ⟨k.val - 1, by omega⟩ hold, h.delayB i ⟨k.val - 1, by omega⟩ hold⟩
    · have hzero : k.castSucc = 0 := Fin.ext (by simpa using hk0)
      rw [hzero, DelayLine.taps_zero, DelayLine.taps_zero]
      exact hfeed
  | idle => exact h.lanes_hold ((phase_eq_idle_iff s.fsm).mp hp).1 bus i k
  | draining c => exact h.lanes_hold (stateDrain_of_phase hp).1 bus i k

/-- INTERNAL: What a dead register of the array was loaded from on a draining edge: the
left neighbour's forwarded word, the cell's own accumulator, the upper neighbour's
forwarded word, or an edge of the array. -/
theorem array_step_draining {s : MatrixAccelTop N} (h : CleanPipeline s) {c : ℕ}
    (hp : phase s.fsm = Phase.draining c) {bus : AvsCycle} (hs : bus.clrPeSig = false)
    (i j : Fin N) :
    (2 * j.val < c + 1 → ((s.step bus).core.array i j).cReg = 0#16) ∧
      (2 * j.val + 1 < c + 1 → ((s.step bus).core.array i j).aOut = 0#16) ∧
      (i.val < c + 1 → ((s.step bus).core.array i j).bOut = 0#16) := by
  have hcalc := (stateDrain_of_phase hp).1
  rw [array_step_of_drain hp hs]
  refine ⟨fun hj => ?_, fun hj => ?_, fun hi => ?_⟩
  · simp only [leftIn, SystolicArray.aWire]
    by_cases hj0 : 0 < j.val
    · rw [DelayLine.taps_of_pos _ _ _ (by simpa using hj0)]
      exact h.aOut i ⟨j.val - 1, by omega⟩ (by rw [hp]; simp only [RightLive]; omega)
    · have hzero : j.castSucc = 0 := Fin.ext (by simpa using hj0)
      rw [hzero, DelayLine.taps_zero]
      exact (h.edges hcalc i).1
  · exact h.cReg i j (by rw [hp]; simp only [AccLive]; omega)
  · simp only [topIn, SystolicArray.bWire]
    by_cases hi0 : 0 < i.val
    · rw [DelayLine.taps_of_pos _ _ _ (by simpa using hi0)]
      exact h.bOut ⟨i.val - 1, by omega⟩ j (by rw [hp]; simp only [DownLive]; omega)
    · have hzero : i.castSucc = 0 := Fin.ext (by simpa using hi0)
      rw [hzero, DelayLine.taps_zero]
      exact (h.edges hcalc j).2

/-- INTERNAL: The dead registers of the array are zero after an edge.
RTL: pe_fp16.v:24-45 -/
theorem array_step (hN : N ≤ 84) {s : MatrixAccelTop N} (h : CleanPipeline s)
    (bus : AvsCycle) (i j : Fin N) :
    (¬ AccLive (phase (s.step bus).fsm) j.val → ((s.step bus).core.array i j).cReg = 0#16) ∧
      (¬ RightLive (phase (s.step bus).fsm) j.val →
        ((s.step bus).core.array i j).aOut = 0#16) ∧
      (¬ DownLive (phase (s.step bus).fsm) i.val →
        ((s.step bus).core.array i j).bOut = 0#16) := by
  have hi := i.isLt
  have hj := j.isLt
  cases hs : bus.clrPeSig with
  | true =>
    rw [array_step_of_start s hs]
    exact ⟨fun _ => rfl, fun _ => rfl, fun _ => rfl⟩
  | false =>
    rw [fsm_step_eq, (fsm_step hN h.wellPhased bus).2.1, hs]
    cases hp : phase s.fsm with
    | idle =>
      rw [array_step_of_idle hp hs]
      exact ⟨fun _ => h.cReg i j (by rw [hp]; exact id),
        fun _ => h.aOut i j (by rw [hp]; exact id),
        fun _ => h.bOut i j (by rw [hp]; exact id)⟩
    | calculating c =>
      -- an edge out of the calculation leaves every register of the array live
      by_cases hc : c = 3 * N + 2 <;>
        simp [Phase.step, hc, AccLive, RightLive, DownLive]
    | draining c =>
      obtain ⟨hacc, hright, hdown⟩ := array_step_draining h hp hs i j
      by_cases hc : c = 2 * N
      · simp only [Phase.step, hc, Bool.false_eq_true, if_false, if_true, AccLive, RightLive,
          DownLive, not_false_eq_true, forall_const]
        exact ⟨hacc (by omega), hright (by omega), hdown (by omega)⟩
      · simp only [Phase.step, hc, Bool.false_eq_true, if_false, AccLive, RightLive, DownLive,
          not_le]
        exact ⟨hacc, hright, hdown⟩

/-- INTERNAL: **The step lemma.**  Every bus cycle keeps the pipeline clean. -/
theorem CleanPipeline.step (hN : N ≤ 84) {s : MatrixAccelTop N} (h : CleanPipeline s)
    (bus : AvsCycle) : CleanPipeline (s.step bus) where
  wellPhased := h.wellPhased.step hN bus
  delayA i k hk := (lanes_step hN h bus i k hk).1
  delayB i k hk := (lanes_step hN h bus i k hk).2
  cReg i j := (array_step hN h bus i j).1
  aOut i j := (array_step hN h bus i j).2.1
  bOut i j := (array_step hN h bus i j).2.2

/-- The states some sequence of bus cycles leads to from reset. -/
abbrev ReachableTop (N : ℕ) (s : MatrixAccelTop N) : Prop :=
  Reachable MatrixAccelTop.step (MatrixAccelTop.reset N) s

/-- INTERNAL: **The run lemma.** -/
theorem cleanPipeline_of_reachable (hN : N ≤ 84) {s : MatrixAccelTop N}
    (h : ReachableTop N s) : CleanPipeline s :=
  h.invariant (reset_cleanPipeline N) fun _ bus hs => hs.step hN bus

/-- **Clean-pipeline invariant.**  In every state the design can be driven to, the phase
flags are exclusive and the counter bounded in each phase, the skew lines are zero outside
the calculation, and the whole array is zero when the machine is idle.
RTL: matrix_accel_top_systolic_array.v:58-145, skew_buffer.v:10-49, pe_fp16.v:24-46 -/
theorem reachable_pipeline_clean (N : ℕ) (hN : 1 ≤ N ∧ N ≤ 84) (s : MatrixAccelTop N)
    (h : ReachableTop N s) :
    ¬ (s.fsm.stateCalc = true ∧ s.fsm.stateDrain = true) ∧
      (s.fsm.stateCalc = true → s.fsm.cycleCnt.toNat ≤ 3 * N + 2) ∧
      (s.fsm.stateDrain = true → s.fsm.cycleCnt.toNat ≤ 2 * N) ∧
      (s.fsm.stateCalc = false →
        ∀ i k, s.core.skew.delayA i k = 0#16 ∧ s.core.skew.delayB i k = 0#16) ∧
      (s.fsm.stateCalc = false → s.fsm.stateDrain = false →
        ∀ i j, (s.core.array i j).aOut = 0#16 ∧ (s.core.array i j).bOut = 0#16 ∧
          (s.core.array i j).cReg = 0#16) := by
  have hclean := cleanPipeline_of_reachable hN.2 h
  have hbound := hclean.wellPhased.bounded
  have hexcl := hclean.wellPhased.exclusive
  refine ⟨hexcl, fun hc => ?_, fun hd => ?_, fun hc i k => ?_, fun hc hd i j => ?_⟩
  · simpa [phase, hc, Phase.Bounded] using hbound
  · have hc : s.fsm.stateCalc = false := by
      cases hc : s.fsm.stateCalc with
      | false => rfl
      | true => exact absurd ⟨hc, hd⟩ hexcl
    simpa [phase, hc, hd, Phase.Bounded] using hbound
  · have hdead := not_laneLive_of_not_calc (N := N) hc k.val
    exact ⟨hclean.delayA i k hdead, hclean.delayB i k hdead⟩
  · have hidle : phase s.fsm = Phase.idle := (phase_eq_idle_iff s.fsm).mpr ⟨hc, hd⟩
    exact ⟨hclean.aOut i j (by rw [hidle]; exact id), hclean.bOut i j (by rw [hidle]; exact id),
      hclean.cReg i j (by rw [hidle]; exact id)⟩

/-- Words of A for `N = 2`: 1.5, 2.5, -0.5 and 1.0. -/
def pairA (k : Fin (2 * 2)) : Word := [0x3E00#16, 0x4100#16, 0xB800#16, 0x3C00#16].getD k.val 0#16

/-- Words of B for `N = 2`: 0.5, -2.0, 2.0 and 1.5. -/
def pairB (k : Fin (2 * 2)) : Word := [0x3800#16, 0xC000#16, 0x4000#16, 0x3E00#16].getD k.val 0#16

/-- The two matrices loaded, a START, and `n` idle cycles. -/
def pairRun (n : ℕ) : List AvsCycle :=
  Driver.loadWrites pairA pairB ++ Driver.startWrite :: List.replicate n default

/-- A second START at count 3 of the calculation, and `n` edges after it. -/
def restartedTop (n : ℕ) : MatrixAccelTop 2 :=
  run MatrixAccelTop.step (MatrixAccelTop.reset 2)
    (pairRun 3 ++ Driver.startWrite :: List.replicate n default)

/-- In the drain after the second START the skew lines are zero, and at its end the array is. -/
theorem reachable_pipeline_clean_restarted :
    (restartedTop 7).fsm.stateDrain = true ∧ (restartedTop 7).fsm.cycleCnt.toNat ≤ 2 * 2 ∧
      (∀ i k, (restartedTop 7).core.skew.delayA i k = 0#16 ∧
        (restartedTop 7).core.skew.delayB i k = 0#16) ∧
      ∀ i j, ((restartedTop 10).core.array i j).aOut = 0#16 ∧
        ((restartedTop 10).core.array i j).bOut = 0#16 ∧
        ((restartedTop 10).core.array i j).cReg = 0#16 := by
  have hdrain : (restartedTop 7).fsm.stateDrain = true := by decide
  obtain ⟨-, -, hcount, hlines, -⟩ :=
    reachable_pipeline_clean 2 (by decide) (restartedTop 7) ⟨_, rfl⟩
  obtain ⟨-, -, -, -, harray⟩ :=
    reachable_pipeline_clean 2 (by decide) (restartedTop 10) ⟨_, rfl⟩
  exact ⟨hdrain, hcount hdrain, hlines (by decide), harray (by decide) (by decide)⟩

end MatrixAccelerator.Analysis
