import MatrixAccelerator.Analysis.RegisterMap
import MatrixAccelerator.Model.Driver

/-!
# Progress

Up to `N = 84` the edges left until idle are a function of the phase that no bus traffic
without a START raises, so every reachable state finds its way to idle and sets
`ctrl_done` on the way (`progress_from_reachable`).  From `N = 85` on the last count of the
calculation is beyond the eight-bit counter: a START leads to a calculation whose counter
goes round for ever, feeding the operands again on every round (`calculating_forever`).
-/

set_option autoImplicit false

namespace MatrixAccelerator.Analysis

open MatrixAccelerator.Library MatrixAccelerator.Model MatrixAccelerator.Interface

variable {N : ℕ}

/-! ## Edges at any `N` -/

/-- INTERNAL: Without a START an idle machine stays idle. -/
theorem fsm_idle_quiet (N : ℕ) {s : Fsm} (hs : s.stateCalc = false ∧ s.stateDrain = false)
    {bus : AvsCycle} (hbus : bus.clrPeSig = false) :
    (s.step N bus).stateCalc = false ∧ (s.step N bus).stateDrain = false := by
  obtain ⟨b, hb⟩ := startBranch_quiet hbus s
  unfold Fsm.step Fsm.drainBranch Fsm.calcBranch
  rw [hb, hs.1, hs.2]
  exact ⟨rfl, rfl⟩

/-- INTERNAL: A START takes an idle machine into the calculation. -/
theorem fsm_idle_start (N : ℕ) {s : Fsm} (hs : s.stateCalc = false ∧ s.stateDrain = false)
    {bus : AvsCycle} (hbus : bus.clrPeSig = true) :
    s.step N bus = ⟨true, false, 0#8, true, false⟩ := by
  unfold Fsm.step Fsm.drainBranch Fsm.calcBranch
  rw [startBranch_start hbus, hs.1, hs.2]
  rfl

/-- Without a START the accelerator stays idle from reset on. -/
theorem idle_of_quiet_run (l : List AvsCycle) (hl : ∀ bus ∈ l, bus.clrPeSig = false) :
    (run MatrixAccelTop.step (MatrixAccelTop.reset N) l).fsm.stateCalc = false ∧
      (run MatrixAccelTop.step (MatrixAccelTop.reset N) l).fsm.stateDrain = false := by
  rw [run_eq_trace]
  apply trace_invariant MatrixAccelTop.step (MatrixAccelTop.reset N)
    (P := fun _ s => s.fsm.stateCalc = false ∧ s.fsm.stateDrain = false) ⟨rfl, rfl⟩
  intro t ht hidle
  exact fsm_idle_quiet N hidle (noStart_getD hl l.length t ht)

/-! ## The count that is never reached -/

/-- Calculating at count `c`, with `ctrl_done` clear. -/
structure CalculatingAt (c : ℕ) (s : Fsm) : Prop where
  calculating : s.stateCalc = true
  notDraining : s.stateDrain = false
  notDone : s.ctrlDone = false
  count : s.cycleCnt.toNat = c

/-- INTERNAL: A counter that cannot reach the last count of the calculation wraps instead.
RTL: matrix_accel_top_systolic_array.v:116-123 -/
theorem calculatingAt_step (hN : 85 ≤ N) {s : Fsm} {t : ℕ} (h : CalculatingAt (t % 256) s)
    {bus : AvsCycle} (hbus : bus.clrPeSig = false) :
    CalculatingAt ((t + 1) % 256) (s.step N bus) := by
  have hnever : ¬ s.cycleCnt.toNat = 3 * N + 2 := by
    have := s.cycleCnt.isLt
    omega
  have hnext : (s.cycleCnt + 1#8).toNat = (t + 1) % 256 := by
    rw [BitVec.toNat_add, BitVec.toNat_ofNat, h.count]
    omega
  obtain ⟨b, hb⟩ := startBranch_quiet hbus s
  unfold Fsm.step Fsm.drainBranch Fsm.calcBranch
  rw [hb, if_pos h.calculating, if_neg hnever, h.notDraining]
  exact ⟨h.calculating, rfl, h.notDone, hnext⟩

/-- **The calculation that does not end.**  From `N = 85` on, and without another START, the
count is the edges since the START modulo 256.
RTL: matrix_accel_top_systolic_array.v:27, 116-124 -/
theorem calculating_forever (hN : 85 ≤ N) {s : MatrixAccelTop N} (h : CalculatingAt 0 s.fsm)
    {traffic : ℕ → AvsCycle} (hq : ∀ t, (traffic t).clrPeSig = false) (t : ℕ) :
    CalculatingAt (t % 256) (topTrace s traffic t).fsm := by
  apply trace_invariant MatrixAccelTop.step s (P := fun u x => CalculatingAt (u % 256) x.fsm) h
  intro u _ hu
  exact calculatingAt_step hN hu (hq u)

/-- From `N = 85` on the counter never equals `3 * N + 2`, and the calculation never ends. -/
theorem stateCalc_forever (hN : 85 ≤ N) {s : MatrixAccelTop N}
    (hs : s.fsm = ⟨true, false, 0#8, true, false⟩) {traffic : ℕ → AvsCycle}
    (hq : ∀ t, (traffic t).clrPeSig = false) (t : ℕ) :
    (topTrace s traffic t).fsm.stateCalc = true := by
  have hzero : CalculatingAt 0 s.fsm := by
    rw [hs]
    exact ⟨rfl, rfl, rfl, rfl⟩
  exact (calculating_forever hN hzero hq t).calculating

/-! ## The edges to idle -/

section Reachable

variable (hN : N ≤ 84) {s : MatrixAccelTop N} (h : WellPhased N s.fsm) {traffic : ℕ → AvsCycle}
  (hq : ∀ t, (traffic t).clrPeSig = false)

include hN h hq

/-- INTERNAL: Idle exactly from the edge the countdown names.
RTL: matrix_accel_top_systolic_array.v:116-143 -/
theorem phase_idle_iff (t : ℕ) :
    phase (topTrace s traffic t).fsm = Phase.idle ↔ (phase s.fsm).remaining N ≤ t := by
  have hrem := remaining_trace hN h (t := t) fun u _ => hq u
  rw [← Phase.remaining_eq_zero_iff N (wellPhased_trace hN h traffic t).bounded, hrem]
  exact Nat.sub_eq_zero_iff_le

/-- INTERNAL: The edge that ends a busy spell sets `ctrl_done`, and it stays set. -/
theorem ctrlDone_of_idle {t : ℕ} (hbusy : phase s.fsm ≠ Phase.idle)
    (ht : (phase s.fsm).remaining N ≤ t) : (topTrace s traffic t).fsm.ctrlDone = true := by
  have hpos : (phase s.fsm).remaining N ≠ 0 := fun h0 =>
    hbusy ((Phase.remaining_eq_zero_iff N h.bounded).mp h0)
  obtain ⟨m, hm⟩ := Nat.exists_eq_succ_of_ne_zero hpos
  have hlast : phase (topTrace s traffic m).fsm = Phase.draining (2 * N) := by
    have hrem := remaining_trace hN h (t := m) fun u _ => hq u
    apply (Phase.remaining_eq_one_iff N (wellPhased_trace hN h traffic m).bounded).mp
    rw [hrem, hm]
    exact Nat.add_sub_cancel_left m 1
  have hset : (topTrace s traffic (m + 1)).fsm.ctrlDone = true := by
    rw [topTrace, trace_succ, fsm_step_eq,
      (fsm_step hN (wellPhased_trace hN h traffic m) (traffic m)).2.2, decide_eq_true hlast,
      Bool.true_or]
  have hidle : phase (topTrace s traffic (m + 1)).fsm = Phase.idle :=
    (phase_idle_iff hN h hq (m + 1)).mpr hm.le
  rw [hm] at ht
  obtain ⟨d, rfl⟩ := Nat.exists_eq_add_of_le ht
  rw [topTrace, trace_add]
  exact (idle_holds hN (wellPhased_trace hN h traffic (m + 1)) hidle
    fun u _ => hq (m + 1 + u)).2.1.trans hset

end Reachable

/-- **Every START completes, up to `N = 84` only.**  After reset, any cycles without a START,
and a START, the machine leaves the calculation with `ctrl_done` set if and only if the
eight-bit counter can hold `3 * N + 2`.
RTL: matrix_accel_top_systolic_array.v:26-29, 116-143 -/
theorem start_completes_iff (N : ℕ) (pre : List AvsCycle)
    (hpre : ∀ bus ∈ pre, bus.clrPeSig = false) (e0 : AvsCycle) (he0 : e0.clrPeSig = true)
    (traffic : ℕ → AvsCycle) (hq : ∀ t, (traffic t).clrPeSig = false) :
    (∃ n, (topTrace ((run MatrixAccelTop.step (MatrixAccelTop.reset N) pre).step e0)
          traffic n).fsm.stateCalc = false ∧
        (topTrace ((run MatrixAccelTop.step (MatrixAccelTop.reset N) pre).step e0)
          traffic n).fsm.ctrlDone = true) ↔ N ≤ 84 := by
  have hidle := idle_of_quiet_run (N := N) pre hpre
  have hstart : ((run MatrixAccelTop.step (MatrixAccelTop.reset N) pre).step e0).fsm =
      ⟨true, false, 0#8, true, false⟩ := fsm_idle_start N hidle he0
  generalize (run MatrixAccelTop.step (MatrixAccelTop.reset N) pre).step e0 = s at hstart ⊢
  constructor
  · rintro ⟨n, hcalc, -⟩
    by_contra hlarge
    rw [stateCalc_forever (by omega) hstart hq n] at hcalc
    cases hcalc
  · intro hsmall
    have hphase : phase s.fsm = Phase.calculating 0 := by
      rw [hstart]
      rfl
    have hwell : WellPhased N s.fsm := by
      refine ⟨by rw [hstart]; decide, ?_⟩
      rw [hphase]
      exact Nat.zero_le _
    refine ⟨(phase s.fsm).remaining N, ?_, ?_⟩
    · exact ((phase_eq_idle_iff _).mp ((phase_idle_iff hsmall hwell hq _).mpr le_rfl)).1
    · refine ctrlDone_of_idle hsmall hwell hq ?_ le_rfl
      rw [hphase]
      exact fun h => by cases h

/-- A START for `N = 3`, and nothing else. -/
theorem start_completes_iff_three :
    (∃ n, (topTrace ((run MatrixAccelTop.step (MatrixAccelTop.reset 3) []).step Driver.startWrite)
          (fun _ => default) n).fsm.stateCalc = false ∧
        (topTrace ((run MatrixAccelTop.step (MatrixAccelTop.reset 3) []).step Driver.startWrite)
          (fun _ => default) n).fsm.ctrlDone = true) ↔ 3 ≤ 84 :=
  start_completes_iff 3 [] (fun _ h => by cases h) Driver.startWrite (by decide)
    (fun _ => default) fun _ => rfl

/-- At `N = 85` the last count is 257, and the machine calculates for ever. -/
theorem start_never_completes :
    ¬ ∃ n, (topTrace ((MatrixAccelTop.reset 85).step Driver.startWrite)
          (fun _ => default) n).fsm.stateCalc = false ∧
        (topTrace ((MatrixAccelTop.reset 85).step Driver.startWrite)
          (fun _ => default) n).fsm.ctrlDone = true := by
  rintro ⟨n, hcalc, -⟩
  have hstart : ((MatrixAccelTop.reset 85).step Driver.startWrite).fsm =
      ⟨true, false, 0#8, true, false⟩ :=
    fsm_idle_start 85 (s := Fsm.reset) ⟨rfl, rfl⟩ (by decide : Driver.startWrite.clrPeSig = true)
  rw [stateCalc_forever le_rfl hstart (fun _ => rfl) n] at hcalc
  cases hcalc

/-- **Progress from every reachable state.**  Whatever STARTs came before, traffic without
one leads to idle within `5 * N + 4` edges and stays there; and if the machine was busy,
`ctrl_done` is set from the edge on which the last flag falls.
RTL: matrix_accel_top_systolic_array.v:94-145 -/
theorem progress_from_reachable (N : ℕ) (hN : 1 ≤ N ∧ N ≤ 84) (s : MatrixAccelTop N)
    (hs : ReachableTop N s) (traffic : ℕ → AvsCycle)
    (hq : ∀ t, (traffic t).clrPeSig = false) :
    ∃ n ≤ 5 * N + 4,
      (∀ t, n ≤ t → (topTrace s traffic t).fsm.stateCalc = false ∧
        (topTrace s traffic t).fsm.stateDrain = false) ∧
      (s.fsm.stateCalc = true ∨ s.fsm.stateDrain = true →
        (∀ t < n, (topTrace s traffic t).fsm.stateCalc = true ∨
          (topTrace s traffic t).fsm.stateDrain = true) ∧
        ∀ t, n ≤ t → (topTrace s traffic t).fsm.ctrlDone = true) := by
  have hwell := (cleanPipeline_of_reachable hN.2 hs).wellPhased
  have hbusy : ∀ f : Fsm, phase f ≠ Phase.idle ↔ f.stateCalc = true ∨ f.stateDrain = true := by
    intro f
    rw [Ne, phase_eq_idle_iff, not_and_or, Bool.not_eq_false,
      Bool.not_eq_false]
  refine ⟨(phase s.fsm).remaining N, Phase.remaining_le N _, fun t ht => ?_, fun hflag => ?_⟩
  · exact (phase_eq_idle_iff _).mp ((phase_idle_iff hN.2 hwell hq t).mpr ht)
  · refine ⟨fun t ht => ?_, fun t ht => ?_⟩
    · apply (hbusy _).mp
      intro hidle
      exact Nat.not_le_of_lt ht ((phase_idle_iff hN.2 hwell hq t).mp hidle)
    · exact ctrlDone_of_idle hN.2 hwell hq ((hbusy _).mpr hflag) ht

/-- From the middle of a calculation that was started twice the machine is busy until it is idle,
and then done. -/
theorem progress_from_restart :
    ∃ n ≤ 5 * 2 + 4,
      (∀ t < n, (topTrace (restartedTop 2) (fun _ => default) t).fsm.stateCalc = true ∨
        (topTrace (restartedTop 2) (fun _ => default) t).fsm.stateDrain = true) ∧
      ∀ t, n ≤ t → (topTrace (restartedTop 2) (fun _ => default) t).fsm.stateCalc = false ∧
        (topTrace (restartedTop 2) (fun _ => default) t).fsm.stateDrain = false ∧
        (topTrace (restartedTop 2) (fun _ => default) t).fsm.ctrlDone = true := by
  obtain ⟨n, hn, hidle, hbusy⟩ := progress_from_reachable 2 (by decide) (restartedTop 2) ⟨_, rfl⟩
    (fun _ => default) fun _ => rfl
  obtain ⟨hbefore, hdone⟩ := hbusy (Or.inl (by decide))
  exact ⟨n, hn, hbefore, fun t ht => ⟨(hidle t ht).1, (hidle t ht).2, hdone t ht⟩⟩

end MatrixAccelerator.Analysis
