import MatrixAccelerator.Analysis.RunPhases
import MatrixAccelerator.Model.Driver

/-!
# When `ctrl_done` can be trusted

`ctrl_done` is written by the START branch and by the last drain edge, and where both
fall on one edge the later assignment stands: the machine starts calculating with the
status of a finished run.  That is the only way the status comes to lie.
`done_truthful_iff` says so of every run: it is truthful in every state exactly if no
START lands on the edge that completes a drain.
-/

set_option autoImplicit false

namespace MatrixAccelerator.Analysis

open MatrixAccelerator.Library MatrixAccelerator.Model MatrixAccelerator.Interface

variable {N : ℕ}

/-- If `ctrl_done` is set, neither phase flag is, and no bus cycle changes `mem_C`. -/
def DoneTruthful (s : MatrixAccelTop N) : Prop :=
  s.fsm.ctrlDone = true →
    s.fsm.stateCalc = false ∧ s.fsm.stateDrain = false ∧ ∀ bus, (s.step bus).memC = s.memC

/-- The cycle writes a START on the edge that completes a drain. -/
def StartOnCompletion (s : MatrixAccelTop N) (bus : AvsCycle) : Prop :=
  bus.clrPeSig = true ∧ s.fsm.stateDrain = true ∧ s.fsm.cycleCnt.toNat = 2 * N

/-- A START falls on the completing edge when the drain is at its last count. -/
theorem startOnCompletion_iff {s : MatrixAccelTop N} (h : WellPhased N s.fsm)
    (bus : AvsCycle) :
    StartOnCompletion s bus ↔
      bus.clrPeSig = true ∧ phase s.fsm = Phase.draining (2 * N) := by
  constructor
  · rintro ⟨hs, hd, hc⟩
    have hcalc : s.fsm.stateCalc = false := by
      cases hcalc : s.fsm.stateCalc with
      | false => rfl
      | true => exact absurd ⟨hcalc, hd⟩ h.exclusive
    exact ⟨hs, by simp [phase, hcalc, hd, hc]⟩
  · rintro ⟨hs, hp⟩
    obtain ⟨-, hd, hc⟩ := stateDrain_of_phase hp
    exact ⟨hs, hd, hc⟩

/-- INTERNAL: Truthfulness is about the phase alone: an idle machine holds `mem_C`. -/
theorem doneTruthful_iff_idle (s : MatrixAccelTop N) :
    DoneTruthful s ↔ (s.fsm.ctrlDone = true → phase s.fsm = Phase.idle) := by
  constructor
  · intro h hd
    obtain ⟨hcalc, hdrain, -⟩ := h hd
    exact (phase_eq_idle_iff s.fsm).mpr ⟨hcalc, hdrain⟩
  · intro h hd
    obtain ⟨hcalc, hdrain⟩ := (phase_eq_idle_iff s.fsm).mp (h hd)
    exact ⟨hcalc, hdrain, fun bus => memC_step_of_not_drain hdrain bus⟩

/-- INTERNAL: **The step lemma.**  A truthful state stays truthful unless the cycle is a
START on the completing edge. -/
theorem doneTruthful_step (hN : N ≤ 84) {s : MatrixAccelTop N} (h : WellPhased N s.fsm)
    (hs : DoneTruthful s) {bus : AvsCycle} (hb : ¬ StartOnCompletion s bus) :
    DoneTruthful (s.step bus) := by
  rw [startOnCompletion_iff h] at hb
  rw [doneTruthful_iff_idle] at hs ⊢
  obtain ⟨-, hphase, hdone⟩ := fsm_step hN h bus
  rw [fsm_step_eq, hphase, hdone]
  intro hd
  rw [Bool.or_eq_true, decide_eq_true_iff, Bool.and_eq_true, Bool.not_eq_true'] at hd
  rcases hd with hlast | ⟨hquiet, hold⟩
  · cases hstart : bus.clrPeSig with
    | true => exact absurd ⟨hstart, hlast⟩ hb
    | false => simp [hlast, Phase.step]
  · rw [hquiet, hs hold]
    rfl

/-- After such an edge `ctrl_done` is set over a run that has just begun. -/
theorem not_doneTruthful_step (hN : N ≤ 84) {s : MatrixAccelTop N} (h : WellPhased N s.fsm)
    {bus : AvsCycle} (hb : StartOnCompletion s bus) : ¬ DoneTruthful (s.step bus) := by
  obtain ⟨hstart, hlast⟩ := (startOnCompletion_iff h bus).mp hb
  obtain ⟨-, hphase, hdone⟩ := fsm_step hN h bus
  rw [doneTruthful_iff_idle, fsm_step_eq, hphase, hdone, hlast, hstart]
  simp [Phase.step]

/-- **DONE is truthful, exactly.**  Along any run from reset, `ctrl_done` set means idle
and a steady `mem_C` in every state reached if and only if no START was written on an edge
with `state_drain` set and the counter at `2 * N`.
RTL: matrix_accel_top_systolic_array.v:104-144 -/
theorem done_truthful_iff (N : ℕ) (hN : 1 ≤ N ∧ N ≤ 32) (traffic : ℕ → AvsCycle) (n : ℕ) :
    (∀ t ≤ n, DoneTruthful (trace MatrixAccelTop.step (MatrixAccelTop.reset N) traffic t)) ↔
      ∀ t < n, ¬ StartOnCompletion
        (trace MatrixAccelTop.step (MatrixAccelTop.reset N) traffic t) (traffic t) := by
  have hN84 : N ≤ 84 := by omega
  have hwell := fun t =>
    wellPhased_trace hN84 (reset_cleanPipeline N).wellPhased traffic t
  constructor
  · intro htrue t ht hb
    exact not_doneTruthful_step hN84 (hwell t) hb (htrue (t + 1) (by omega))
  · intro hb t ht
    induction t with
    | zero => exact fun hd => absurd hd (by simp [MatrixAccelTop.reset, Fsm.reset])
    | succ t ih => exact doneTruthful_step hN84 (hwell t) (ih (by omega)) (hb t (by omega))

/-- A START from reset, one in its calculation, one from idle and one in its drain. -/
def startsOffCompletion (t : ℕ) : AvsCycle :=
  if t = 0 ∨ t = 4 ∨ t = 20 ∨ t = 31 then Driver.startWrite else default

/-- Two runs, each interrupted once off its completing edge: `ctrl_done` is truthful throughout,
and set at the end of both. -/
theorem done_truthful_iff_off_completion :
    (∀ t ≤ 50, DoneTruthful (trace MatrixAccelTop.step (MatrixAccelTop.reset 2)
        startsOffCompletion t)) ∧
      (trace MatrixAccelTop.step (MatrixAccelTop.reset 2) startsOffCompletion 15).fsm.ctrlDone =
        true ∧
      (trace MatrixAccelTop.step (MatrixAccelTop.reset 2) startsOffCompletion 50).fsm.ctrlDone =
        true := by
  refine ⟨(done_truthful_iff 2 (by decide) startsOffCompletion 50).mpr ?_, by decide, by decide⟩
  unfold StartOnCompletion
  decide

/-- The control registers run by themselves. -/
theorem fsm_run (s : MatrixAccelTop N) (l : List AvsCycle) :
    (run MatrixAccelTop.step s l).fsm = run (fun f bus => Fsm.step N bus f) s.fsm l :=
  (List.foldl_hom MatrixAccelTop.fsm fun _ _ => rfl).symm

/-- A START at reset, the eight edges up to the last drain count for `N = 1`, and a START
on the edge that completes the drain. -/
def startOnCompletionRun : List AvsCycle :=
  Driver.startWrite :: List.replicate 8 default ++ [Driver.startWrite]

/-- `ctrl_done` is set while the machine calculates. -/
theorem done_while_calculating :
    ReachableTop 1 (run MatrixAccelTop.step (MatrixAccelTop.reset 1) startOnCompletionRun) ∧
      (run MatrixAccelTop.step (MatrixAccelTop.reset 1) startOnCompletionRun).fsm.ctrlDone =
        true ∧
      (run MatrixAccelTop.step (MatrixAccelTop.reset 1) startOnCompletionRun).fsm.stateCalc =
        true := by
  refine ⟨⟨startOnCompletionRun, rfl⟩, ?_, ?_⟩
  · rw [fsm_run]
    decide
  · rw [fsm_run]
    decide

end MatrixAccelerator.Analysis
