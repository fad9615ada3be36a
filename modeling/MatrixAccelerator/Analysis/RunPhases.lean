import MatrixAccelerator.Analysis.DrainCapture
import MatrixAccelerator.Analysis.PipelineInvariant

/-!
# The phases of a run

What a whole phase does when no START interrupts it.  Through the calculation the core
is the grid run on the feeder (`calculation_trace`).  Through the drain the skew buffer
drives the edges of the array, whose words do not matter there: `mem_C` takes the
accumulators as they stood when the drain began (`drain_memC`).  Together they give the
end of every run (`run_completes`).
-/

set_option autoImplicit false

namespace MatrixAccelerator.Analysis

open MatrixAccelerator.Library MatrixAccelerator.Model MatrixAccelerator.Interface

variable {N : ℕ}

/-- The state `t` edges after `s` under the bus cycles `traffic`. -/
abbrev topTrace (s : MatrixAccelTop N) (traffic : ℕ → AvsCycle) (t : ℕ) : MatrixAccelTop N :=
  trace MatrixAccelTop.step s traffic t

/-- No START in the first `n` cycles. -/
def NoStart (traffic : ℕ → AvsCycle) (n : ℕ) : Prop := ∀ t < n, (traffic t).clrPeSig = false

theorem NoStart.mono {traffic : ℕ → AvsCycle} {m n : ℕ} (h : NoStart traffic n) (hmn : m ≤ n) :
    NoStart traffic m := fun t ht => h t (lt_of_lt_of_le ht hmn)

theorem NoStart.shift {traffic : ℕ → AvsCycle} {m n : ℕ} (h : NoStart traffic (m + n)) :
    NoStart (fun t => traffic (m + t)) n := fun t ht => h (m + t) (by omega)

/-! ## The phase along a run -/

/-- The counts stay within their phases along a stream. -/
theorem wellPhased_trace (hN : N ≤ 84) {s : MatrixAccelTop N} (h : WellPhased N s.fsm)
    (traffic : ℕ → AvsCycle) (t : ℕ) : WellPhased N (topTrace s traffic t).fsm :=
  trace_invariant MatrixAccelTop.step s (P := fun _ x => WellPhased N x.fsm) h
    fun u _ hu => hu.step hN (traffic u)

/-- Without a START the phase moves on by itself. -/
theorem phase_trace_succ (hN : N ≤ 84) {s : MatrixAccelTop N} (h : WellPhased N s.fsm)
    {traffic : ℕ → AvsCycle} {t : ℕ} (hq : (traffic t).clrPeSig = false) :
    phase (topTrace s traffic (t + 1)).fsm = (phase (topTrace s traffic t).fsm).step N false := by
  rw [topTrace, trace_succ, fsm_step_eq,
    (fsm_step hN (wellPhased_trace hN h traffic t) (traffic t)).2.1, hq]

/-- Without a START a calculation counts the edges. -/
theorem phase_calculating_trace (hN : N ≤ 84) {s : MatrixAccelTop N} (h : WellPhased N s.fsm)
    {c : ℕ} (hp : phase s.fsm = Phase.calculating c) {traffic : ℕ → AvsCycle} {t : ℕ}
    (ht : c + t ≤ 3 * N + 2) (hq : NoStart traffic t) :
    phase (topTrace s traffic t).fsm = Phase.calculating (c + t) := by
  induction t with
  | zero => exact hp
  | succ t ih =>
    have hlast : c + t ≠ 3 * N + 2 := by omega
    rw [phase_trace_succ hN h (hq t (by omega)), ih (by omega) (hq.mono (by omega))]
    simp only [Phase.step, hlast, if_false, Nat.add_assoc]

/-- INTERNAL: After its last count the calculation hands over to the drain. -/
theorem phase_calculating_end (hN : N ≤ 84) {s : MatrixAccelTop N} (h : WellPhased N s.fsm)
    {c : ℕ} (hp : phase s.fsm = Phase.calculating c) (hc : c ≤ 3 * N + 2)
    {traffic : ℕ → AvsCycle} (hq : NoStart traffic (3 * N + 3 - c)) :
    phase (topTrace s traffic (3 * N + 3 - c)).fsm = Phase.draining 0 := by
  have hlen : 3 * N + 3 - c = 3 * N + 2 - c + 1 := by omega
  rw [hlen] at hq ⊢
  rw [phase_trace_succ hN h (hq _ (by omega)),
    phase_calculating_trace hN h hp (by omega) (hq.mono (by omega))]
  have hlast : c + (3 * N + 2 - c) = 3 * N + 2 := by omega
  simp only [Phase.step, hlast, if_true]

/-- Without a START a drain counts the edges. -/
theorem phase_draining_trace (hN : N ≤ 84) {s : MatrixAccelTop N} (h : WellPhased N s.fsm)
    (hp : phase s.fsm = Phase.draining 0) {traffic : ℕ → AvsCycle} {t : ℕ} (ht : t ≤ 2 * N)
    (hq : NoStart traffic t) : phase (topTrace s traffic t).fsm = Phase.draining t := by
  induction t with
  | zero => exact hp
  | succ t ih =>
    have hlast : t ≠ 2 * N := by omega
    rw [phase_trace_succ hN h (hq t (by omega)), ih (by omega) (hq.mono (by omega))]
    simp only [Phase.step, hlast, Bool.false_eq_true, if_false]

/-- Without a START the accelerator stays idle. -/
theorem phase_idle_trace (hN : N ≤ 84) {s : MatrixAccelTop N} (h : WellPhased N s.fsm)
    (hp : phase s.fsm = Phase.idle) {traffic : ℕ → AvsCycle} {t : ℕ} (hq : NoStart traffic t) :
    phase (topTrace s traffic t).fsm = Phase.idle := by
  induction t with
  | zero => exact hp
  | succ t ih =>
    rw [phase_trace_succ hN h (hq t (by omega)), ih (hq.mono (by omega))]
    rfl

/-- **The countdown.**  Without a START the edges left until idle drop by one an edge. -/
theorem remaining_trace (hN : N ≤ 84) {s : MatrixAccelTop N} (h : WellPhased N s.fsm)
    {traffic : ℕ → AvsCycle} {t : ℕ} (hq : NoStart traffic t) :
    (phase (topTrace s traffic t).fsm).remaining N = (phase s.fsm).remaining N - t := by
  induction t with
  | zero => rfl
  | succ t ih =>
    rw [phase_trace_succ hN h (hq t (by omega)),
      Phase.remaining_step N (wellPhased_trace hN h traffic t).bounded,
      ih (hq.mono (by omega)), Nat.sub_sub]

/-- INTERNAL: Before the last drain edge `ctrl_done` keeps its value, unless a START
clears it. -/
theorem ctrlDone_trace (hN : N ≤ 84) {s : MatrixAccelTop N} (h : WellPhased N s.fsm)
    {traffic : ℕ → AvsCycle} {t : ℕ} (hq : NoStart traffic t)
    (ht : t < (phase s.fsm).remaining N ∨ phase s.fsm = Phase.idle) :
    (topTrace s traffic t).fsm.ctrlDone = s.fsm.ctrlDone := by
  apply trace_const MatrixAccelTop.step s fun x => x.fsm.ctrlDone
  intro u hu
  have hquiet : NoStart traffic u := hq.mono (le_of_lt hu)
  have hlast : phase (topTrace s traffic u).fsm ≠ Phase.draining (2 * N) := by
    rcases ht with ht | hidle
    · have hrem := remaining_trace hN h hquiet
      intro hd
      rw [hd, Phase.remaining_draining] at hrem
      omega
    · rw [phase_idle_trace hN h hidle hquiet]
      exact fun hd => by cases hd
  rw [fsm_step_eq, (fsm_step hN (wellPhased_trace hN h traffic u) (traffic u)).2.2, hq u hu,
    decide_eq_false hlast, Bool.false_or, Bool.not_false, Bool.true_and]

/-! ## The calculation -/

/-- The feeder along a run. -/
def feedStream (s : MatrixAccelTop N) (traffic : ℕ → AvsCycle) (u : ℕ) :
    (Fin N → Word) × (Fin N → Word) :=
  ((topTrace s traffic u).aColFeed, (topTrace s traffic u).bRowFeed)

/-- **The calculation.**  Until its last count included, the core is the grid run on the
feeder and `mem_C` holds. -/
theorem calculation_trace (hN : N ≤ 84) {s : MatrixAccelTop N} (h : WellPhased N s.fsm)
    {c : ℕ} (hp : phase s.fsm = Phase.calculating c) {traffic : ℕ → AvsCycle} {t : ℕ}
    (ht : c + t ≤ 3 * N + 3) (hq : NoStart traffic t) :
    coreGrid (topTrace s traffic t).core =
        trace (Grid.step fp16Mac) (coreGrid s.core) (feedStream s traffic) t ∧
      (topTrace s traffic t).memC = s.memC := by
  have hphase := fun u (hu : u < t) =>
    phase_calculating_trace hN h hp (by omega) (hq.mono (le_of_lt hu))
  have hwell := wellPhased_trace hN h traffic
  constructor
  · apply trace_simulates MatrixAccelTop.step s fun x => coreGrid x.core
    intro u hu
    exact grid_step_of_calc (hwell u) (hphase u hu) (hq u hu)
  · apply trace_const MatrixAccelTop.step s MatrixAccelTop.memC
    intro u hu
    exact memC_step_of_not_drain ((hwell u).stateDrain_of_calculating (hphase u hu)) _

/-! ## The drain -/

/-- The edges of the array along a run: what the skew buffer shows them. -/
def skewCycles (s : MatrixAccelTop N) (traffic : ℕ → AvsCycle) (u : ℕ) : EdgeCycle N where
  bus := traffic u
  aLeftIn := (topTrace s traffic u).core.skew.aOutFlat (topTrace s traffic u).aColFeed
  bTopIn := (topTrace s traffic u).core.skew.bOutFlat (topTrace s traffic u).bRowFeed

/-- The accelerator is its array with the edges driven by its own skew lines. -/
theorem topTrace_eq_edgeTrace (s : MatrixAccelTop N) (traffic : ℕ → AvsCycle) (t : ℕ) :
    topTrace s traffic t = edgeTrace s (skewCycles s traffic) t := by
  apply trace_simulates MatrixAccelTop.step s id
  intro u _
  exact MatrixAccelTop.step_eq_stepEdges _ _

/-- **The drain, from any count on.**  An element whose count is still to come takes the
word that its row brings to the last wire by then; the others hold.
RTL: matrix_accel_top_systolic_array.v:126-143 -/
theorem drain_memC_from (hN : N ≤ 84) {s : MatrixAccelTop N} {c : ℕ}
    (hp : phase s.fsm = Phase.draining c) {traffic : ℕ → AvsCycle} {t : ℕ}
    (ht : c + t ≤ 2 * N + 1) (hq : NoStart traffic t) (i j : Fin N) :
    (topTrace s traffic t).memC (cell i j) =
      if c ≤ 2 * (N - 1 - j.val) + 1 ∧ 2 * (N - 1 - j.val) + 1 < c + t then
        incoming s.core i j c
      else s.memC (cell i j) := by
  have hquiet : ∀ u < t, (skewCycles s traffic u).bus.clrPeSig = false := hq
  rw [topTrace_eq_edgeTrace]
  exact memC_draining hN (stateDrain_of_phase hp).2 ht hquiet i j

/-- INTERNAL: An uninterrupted drain is over after its last count. -/
theorem drain_idle (hN : N ≤ 84) {s : MatrixAccelTop N} (h : WellPhased N s.fsm) {c : ℕ}
    (hp : phase s.fsm = Phase.draining c) {traffic : ℕ → AvsCycle}
    (hq : NoStart traffic (2 * N + 1 - c)) :
    phase (topTrace s traffic (2 * N + 1 - c)).fsm = Phase.idle := by
  rw [← Phase.remaining_eq_zero_iff N (wellPhased_trace hN h traffic _).bounded,
    remaining_trace hN h hq, hp, Phase.remaining_draining, Nat.sub_self]

/-- **The drain.**  After `t` edges the columns whose odd count has passed hold the
accumulators of the beginning of the drain, and the others what they held. -/
theorem drain_memC (hN : N ≤ 84) {s : MatrixAccelTop N}
    (hp : phase s.fsm = Phase.draining 0) {traffic : ℕ → AvsCycle} {t : ℕ}
    (ht : t ≤ 2 * N + 1) (hq : NoStart traffic t) (i j : Fin N) :
    (topTrace s traffic t).memC (cell i j) =
      if 2 * (N - 1 - j.val) + 1 < t then (s.core.array i j).cReg else s.memC (cell i j) := by
  have hquiet : ∀ u < t, (skewCycles s traffic u).bus.clrPeSig = false := hq
  rw [topTrace_eq_edgeTrace]
  exact memC_draining_start hN (stateDrain_of_phase hp).2 ht hquiet i j

/-! ## The end of a run -/

/-- INTERNAL: A drain that is not interrupted ends idle, with `ctrl_done` set and the
accumulators in `mem_C`. -/
theorem drain_completes (hN : N ≤ 84) {s : MatrixAccelTop N} (h : WellPhased N s.fsm)
    (hp : phase s.fsm = Phase.draining 0) {traffic : ℕ → AvsCycle}
    (hq : NoStart traffic (2 * N + 1)) :
    phase (topTrace s traffic (2 * N + 1)).fsm = Phase.idle ∧
      (topTrace s traffic (2 * N + 1)).fsm.ctrlDone = true ∧
      ∀ i j, (topTrace s traffic (2 * N + 1)).memC (cell i j) = (s.core.array i j).cReg := by
  have hlast := phase_draining_trace hN h hp le_rfl (hq.mono (Nat.le_succ _))
  refine ⟨?_, ?_, fun i j => ?_⟩
  · rw [phase_trace_succ hN h (hq _ (by omega)), hlast]
    simp [Phase.step]
  · rw [topTrace, trace_succ, fsm_step_eq,
      (fsm_step hN (wellPhased_trace hN h traffic (2 * N)) (traffic (2 * N))).2.2,
      decide_eq_true hlast, Bool.true_or]
  · rw [drain_memC hN hp le_rfl hq, if_pos (by have := j.isLt; omega)]

/-- Idle and without a START, the phase, the done bit and the result stay. -/
theorem idle_holds (hN : N ≤ 84) {s : MatrixAccelTop N} (h : WellPhased N s.fsm)
    (hp : phase s.fsm = Phase.idle) {traffic : ℕ → AvsCycle} {t : ℕ} (hq : NoStart traffic t) :
    phase (topTrace s traffic t).fsm = Phase.idle ∧
      (topTrace s traffic t).fsm.ctrlDone = s.fsm.ctrlDone ∧
      (topTrace s traffic t).memC = s.memC := by
  refine ⟨phase_idle_trace hN h hp hq, ctrlDone_trace hN h hq (Or.inr hp), ?_⟩
  apply trace_const MatrixAccelTop.step s MatrixAccelTop.memC
  intro u hu
  have hidle := (phase_eq_idle_iff _).mp (phase_idle_trace hN h hp (hq.mono (le_of_lt hu)))
  exact memC_step_of_not_drain hidle.2 _

/-- **The end of a run.**  From count `c` of the calculation, `5 * N + 4 - c` edges
without a START lead to idle and to no earlier idle state; `ctrl_done` changes on the last
of them, and `mem_C` then holds what the grid accumulated by the end of the calculation. -/
theorem run_completes (hN : N ≤ 84) {s : MatrixAccelTop N} (h : WellPhased N s.fsm) {c : ℕ}
    (hp : phase s.fsm = Phase.calculating c) {traffic : ℕ → AvsCycle}
    (hq : NoStart traffic (5 * N + 4 - c)) :
    phase (topTrace s traffic (5 * N + 4 - c)).fsm = Phase.idle ∧
      (topTrace s traffic (5 * N + 4 - c)).fsm.ctrlDone = true ∧
      (∀ t < 5 * N + 4 - c, phase (topTrace s traffic t).fsm ≠ Phase.idle ∧
        (topTrace s traffic t).fsm.ctrlDone = s.fsm.ctrlDone) ∧
      ∀ i j, (topTrace s traffic (5 * N + 4 - c)).memC (cell i j) =
        (trace (Grid.step fp16Mac) (coreGrid s.core) (feedStream s traffic)
          (3 * N + 3 - c)).acc i j := by
  have hc := h.calculating_le hp
  have hsplit : 5 * N + 4 - c = 3 * N + 3 - c + (2 * N + 1) := by omega
  rw [hsplit] at hq ⊢
  have hcalc : NoStart traffic (3 * N + 3 - c) := hq.mono (Nat.le_add_right _ _)
  have hend := phase_calculating_end hN h hp hc hcalc
  obtain ⟨hidle, hdone, hmem⟩ :=
    drain_completes hN (wellPhased_trace hN h traffic _) hend hq.shift
  rw [topTrace, trace_add]
  refine ⟨hidle, hdone, fun t ht => ?_, fun i j => ?_⟩
  · have hrem := remaining_trace hN h (hq.mono (le_of_lt ht))
    rw [hp, Phase.remaining_calculating] at hrem
    constructor
    · intro hz
      rw [hz, Phase.remaining_idle] at hrem
      omega
    · apply ctrlDone_trace hN h (hq.mono (le_of_lt ht))
      left
      rw [hp, Phase.remaining_calculating]
      omega
  · have hgrid := (calculation_trace hN h hp (by omega) hcalc).1
    rw [hmem, ← hgrid]
    rfl

end MatrixAccelerator.Analysis
