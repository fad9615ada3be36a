import MatrixAccelerator.Analysis.RegisterMap
import MatrixAccelerator.Model.QsysTop

/-!
# A run of the Qsys copy

The Qsys copy is the same grid behind the same feeder, without the soft clear: a run that
starts with nothing in the lines and the forwarding registers folds its operands onto
whatever the accumulators hold, and leaves the lines and the forwarding registers empty
again (`qsys_run_from_rest`).
-/

set_option autoImplicit false

namespace MatrixAccelerator.Analysis

open MatrixAccelerator.Library MatrixAccelerator.Model MatrixAccelerator.Interface

variable {N : ℕ}

/-- The registers of the Qsys data path, read as an output-stationary grid. -/
def qsysGrid (q : Qsys.MatrixAccelTop N) : Grid N Word Word Word where
  laneA := q.skew.delayA
  laneB := q.skew.delayB
  right i j := (q.array i j).aOut
  down i j := (q.array i j).bOut
  acc i j := (q.array i j).cOut

/-- The Qsys copy between two runs: idle, with nothing outside the accumulators. -/
structure AtRest (q : Qsys.MatrixAccelTop N) : Prop where
  stateCalc : q.fsm.stateCalc = false
  forward : (qsysGrid q).ForwardClear 0#16 0#16
  lanes : (qsysGrid q).LanesClear 0#16 0#16

/-- Out of reset the Qsys copy is at rest. -/
theorem reset_atRest (N : ℕ) : AtRest (Qsys.MatrixAccelTop.reset N) :=
  ⟨rfl, ⟨fun _ _ => rfl, fun _ _ => rfl⟩, ⟨fun _ _ => rfl, fun _ _ => rfl⟩⟩

/-! ## One edge -/

/-- Outside the calculation the array holds. -/
theorem qsysGrid_step_of_not_calc {q : Qsys.MatrixAccelTop N} (h : q.fsm.stateCalc = false)
    (bus : AvsCycle) : qsysGrid (q.step bus) = qsysGrid q := by
  simp [qsysGrid, Qsys.MatrixAccelTop.step, Qsys.SystolicArray.step, Qsys.PeFp16.step,
    SkewBuffer.step, h]

/-- INTERNAL: A calculating edge is one step of the grid on the feeder, a START or not.
RTL: system/synthesis/submodules/pe_fp16.v:22-32 -/
theorem qsysGrid_step_of_calc {q : Qsys.MatrixAccelTop N} (h : q.fsm.stateCalc = true)
    (bus : AvsCycle) :
    qsysGrid (q.step bus) = (qsysGrid q).step fp16Mac (q.aColFeed, q.bRowFeed) := by
  simp only [qsysGrid, Qsys.MatrixAccelTop.step, h]
  rfl

/-- A START at rest begins the calculation. -/
theorem qsys_fsm_start {s : Qsys.Fsm} (h : s.stateCalc = false) {bus : AvsCycle}
    (hs : bus.clrPeSig = true) : s.step N bus = ⟨true, false, 0#8, true⟩ := by
  simp only [AvsCycle.clrPeSig, Bool.and_eq_true] at hs
  simp [Qsys.Fsm.step, Qsys.Fsm.startBranch, Qsys.Fsm.calcBranch, hs.1.1, hs.1.2, hs.2, h]

/-- Without a START only `ctrl_start` may change. -/
theorem qsys_startBranch_quiet {bus : AvsCycle} (hs : bus.clrPeSig = false) (s : Qsys.Fsm) :
    ∃ b, Qsys.Fsm.startBranch bus s = { s with ctrlStart := b } := by
  unfold AvsCycle.clrPeSig at hs
  unfold Qsys.Fsm.startBranch
  cases hw : bus.write && decide (bus.address = 0#14) with
  | false => exact ⟨s.ctrlStart, by simp⟩
  | true =>
    rw [hw, Bool.true_and] at hs
    exact ⟨false, by simp only [hs, if_true, Bool.false_eq_true, if_false]⟩

/-- Without a START the copy stays at rest. -/
theorem qsys_fsm_idle {s : Qsys.Fsm} (h : s.stateCalc = false) {bus : AvsCycle}
    (hs : bus.clrPeSig = false) :
    (s.step N bus).stateCalc = false ∧ (s.step N bus).ctrlDone = s.ctrlDone := by
  obtain ⟨b, hb⟩ := qsys_startBranch_quiet hs s
  simp [Qsys.Fsm.step, Qsys.Fsm.calcBranch, hb, h]

/-- INTERNAL: A calculating edge without a START counts, and ends the calculation with
`ctrl_done` at its last count.
RTL: system/synthesis/submodules/matrix_accel_top_systolic_array.v:84-91 -/
theorem qsys_fsm_calc (hN : N ≤ 84) {s : Qsys.Fsm} (h : s.stateCalc = true)
    (hc : s.cycleCnt.toNat ≤ 3 * N + 2) {bus : AvsCycle} (hs : bus.clrPeSig = false) :
    (s.step N bus).cycleCnt.toNat = s.cycleCnt.toNat + 1 ∧
      (s.step N bus).stateCalc = decide (s.cycleCnt.toNat < 3 * N + 2) ∧
      (s.step N bus).ctrlDone = (s.ctrlDone || decide (s.cycleCnt.toNat = 3 * N + 2)) := by
  obtain ⟨b, hb⟩ := qsys_startBranch_quiet hs s
  have hsucc : (s.cycleCnt + 1#8).toNat = s.cycleCnt.toNat + 1 := cycleCnt_succ (by omega)
  by_cases hlast : s.cycleCnt.toNat = 3 * N + 2
  · simp [Qsys.Fsm.step, Qsys.Fsm.calcBranch, h, hlast, hsucc]
  · have hlt : s.cycleCnt.toNat < 3 * N + 2 := by omega
    simp [Qsys.Fsm.step, Qsys.Fsm.calcBranch, hb, h, hlast, hsucc, hlt]

/-! ## A whole run -/

/-- The feeder shows the column and the row of its count. -/
theorem qsys_feed {q : Qsys.MatrixAccelTop N} (h : q.fsm.stateCalc = true) :
    (q.aColFeed, q.bRowFeed) = feedOf q.memA q.memB q.fsm.cycleCnt.toNat := by
  apply Prod.ext <;> funext g <;>
    simp [Qsys.MatrixAccelTop.aColFeed, Qsys.MatrixAccelTop.bRowFeed, feedOf, columnAndRow, h]

/-- INTERNAL: The feeder shows element `(i, j)` its operands, and then nothing that counts. -/
theorem accumulate_feedOf (A B : Fin (N * N) → Word) (i j : Fin N) {n : ℕ} (hn : N ≤ n)
    (acc : Word) :
    accumulate fp16Mac acc
        ((List.range n).map fun s => ((feedOf A B s).1 i, (feedOf A B s).2 j)) =
      macFold acc (operands A B i j) := by
  have hpairs := operandsFrom_eq_range 0 (fun _ => A) (fun _ => B) i j
    (fun s => ((feedOf A B s).1 i, (feedOf A B s).2 j)) fun u hu => by
      have hlt : u < N := by omega
      simp only [feedOf, columnAndRow, dif_pos hlt, Nat.zero_add]
  rw [Nat.sub_zero, operandsFrom_const, List.drop_zero] at hpairs
  rw [macFold_eq_accumulate, ← hpairs]
  apply fp16Mac_neutral.accumulate_range_le _ hn
  exact fun s hs _ =>
    Or.inl (columnAndRow_past (fun i k => A (cell i k)) (fun k j => B (cell k j)) hs i).1

/-- The operand memories take the writes of the bus and nothing else. -/
theorem qsys_operands_run (q : Qsys.MatrixAccelTop N) (l : List AvsCycle) :
    (run Qsys.MatrixAccelTop.step q l).memA =
        l.foldl (fun mem bus => MatrixAccelTop.writeA bus mem) q.memA ∧
      (run Qsys.MatrixAccelTop.step q l).memB =
        l.foldl (fun mem bus => MatrixAccelTop.writeB bus mem) q.memB :=
  ⟨(List.foldl_hom Qsys.MatrixAccelTop.memA fun _ _ => rfl).symm,
    (List.foldl_hom Qsys.MatrixAccelTop.memB fun _ _ => rfl).symm⟩

/-- At rest, cycles without a START change neither the done bit nor the array. -/
theorem qsys_idle_run {q : Qsys.MatrixAccelTop N} (h : q.fsm.stateCalc = false)
    {l : List AvsCycle} (hl : ∀ bus ∈ l, bus.clrPeSig = false) :
    (run Qsys.MatrixAccelTop.step q l).fsm.stateCalc = false ∧
      (run Qsys.MatrixAccelTop.step q l).fsm.ctrlDone = q.fsm.ctrlDone ∧
      qsysGrid (run Qsys.MatrixAccelTop.step q l) = qsysGrid q := by
  induction l generalizing q with
  | nil => exact ⟨h, rfl, rfl⟩
  | cons bus l ih =>
    obtain ⟨hcalc, hdone⟩ := qsys_fsm_idle (N := N) h (hl bus List.mem_cons_self)
    obtain ⟨hc, hd, hg⟩ := ih (q := q.step bus) hcalc fun b hb => hl b (List.mem_cons_of_mem bus hb)
    exact ⟨hc, hd.trans hdone, hg.trans (qsysGrid_step_of_not_calc h bus)⟩

/-- INTERNAL: Through the calculation the count counts the edges, the operands hold, and
the data path is the grid run on the feeder. -/
theorem qsys_calculation (hN : N ≤ 84) {q : Qsys.MatrixAccelTop N}
    (h : q.fsm.stateCalc = true) (hcnt : q.fsm.cycleCnt.toNat = 0) (hdone : q.fsm.ctrlDone = false)
    {l : List AvsCycle} (hl : ∀ bus ∈ l, bus.clrPeSig = false ∧ ¬ WindowWrite N bus)
    (hlen : l.length ≤ 3 * N + 3) :
    (run Qsys.MatrixAccelTop.step q l).fsm.stateCalc = decide (l.length < 3 * N + 3) ∧
      (run Qsys.MatrixAccelTop.step q l).fsm.ctrlDone = decide (l.length = 3 * N + 3) ∧
      (run Qsys.MatrixAccelTop.step q l).fsm.cycleCnt.toNat = l.length ∧
      (run Qsys.MatrixAccelTop.step q l).memA = q.memA ∧
      (run Qsys.MatrixAccelTop.step q l).memB = q.memB ∧
      qsysGrid (run Qsys.MatrixAccelTop.step q l) =
        trace (Grid.step fp16Mac) (qsysGrid q) (feedOf q.memA q.memB) l.length := by
  induction l using List.reverseRecOn with
  | nil => simp [h, hcnt, hdone]
  | append_singleton l bus ih =>
    rw [List.length_append, List.length_singleton] at hlen
    obtain ⟨hcalc, hd, hc, ha, hb, hg⟩ := ih (fun b hb => hl b (List.mem_append_left _ hb))
      (by omega)
    obtain ⟨hquiet, hwin⟩ := hl bus (by simp)
    have hlt : l.length < 3 * N + 3 := by omega
    rw [decide_eq_true hlt] at hcalc
    rw [decide_eq_false (by omega)] at hd
    obtain ⟨hcnt', hcalc', hdone'⟩ := qsys_fsm_calc hN hcalc (by omega) hquiet
    rw [hc] at hcnt' hcalc' hdone'
    have hlast : run Qsys.MatrixAccelTop.step q (l ++ [bus]) =
        (run Qsys.MatrixAccelTop.step q l).step bus := run_append _ _ _ _
    rw [hlast, List.length_append, List.length_singleton]
    refine ⟨?_, ?_, hcnt', ?_, ?_, ?_⟩
    · refine hcalc'.trans ?_
      congr 1
      exact propext (by omega)
    · refine hdone'.trans ?_
      rw [hd, Bool.false_or]
      congr 1
      exact propext (by omega)
    · exact (write_of_not_window hwin _).1.trans ha
    · exact (write_of_not_window hwin _).2.trans hb
    · rw [qsysGrid_step_of_calc hcalc, qsys_feed hcalc, hg, ha, hb, hc, trace_succ]

/-- **A run of the Qsys copy.**  After a START at rest, cycles without a START and without
a window write lead to `ctrl_done` from edge `3 * N + 3` on and not before; each
accumulator has then folded the operands of its element onto what it held, and the copy is
at rest again. -/
theorem qsys_run_from_rest (hN : N ≤ 84) {q : Qsys.MatrixAccelTop N} (h : AtRest q)
    {e0 : AvsCycle} (he0 : e0.clrPeSig = true) {l : List AvsCycle}
    (hl : ∀ bus ∈ l, bus.clrPeSig = false ∧ ¬ WindowWrite N bus) :
    (l.length < 3 * N + 3 →
        (run Qsys.MatrixAccelTop.step (q.step e0) l).fsm.ctrlDone = false) ∧
      (3 * N + 3 ≤ l.length →
        AtRest (run Qsys.MatrixAccelTop.step (q.step e0) l) ∧
        (run Qsys.MatrixAccelTop.step (q.step e0) l).fsm.ctrlDone = true ∧
        ∀ i j, ((run Qsys.MatrixAccelTop.step (q.step e0) l).array i j).cOut =
          macFold (q.array i j).cOut (operands q.memA q.memB i j)) := by
  have hfsm : (q.step e0).fsm = ⟨true, false, 0#8, true⟩ := qsys_fsm_start h.stateCalc he0
  have hgrid := qsysGrid_step_of_not_calc h.stateCalc e0
  have hmem := write_of_not_window (N := N) (not_windowWrite_of_start he0)
  have hmemA : (q.step e0).memA = q.memA := (hmem q.memA).1
  have hmemB : (q.step e0).memB = q.memB := (hmem q.memB).2
  have hcalc := fun l' => qsys_calculation (l := l') hN (q := q.step e0) (by rw [hfsm])
    (by rw [hfsm]; rfl) (by rw [hfsm])
  constructor
  · intro hlt
    rw [(hcalc l hl (by omega)).2.1]
    exact decide_eq_false (by omega)
  · intro hge
    have htake : (l.take (3 * N + 3)).length = 3 * N + 3 := List.length_take_of_le hge
    obtain ⟨hoff, hdone, -, -, -, hg⟩ := hcalc (l.take (3 * N + 3))
      (fun bus hb => hl bus (List.mem_of_mem_take hb)) (by omega)
    rw [htake] at hoff hdone hg
    obtain ⟨hoff', hdone', hg'⟩ := qsys_idle_run (hoff.trans (decide_eq_false (by omega)))
      (l := l.drop (3 * N + 3)) fun bus hb => (hl bus (List.mem_of_mem_drop hb)).1
    rw [← run_append, List.take_append_drop] at hoff' hdone' hg'
    rw [hg, hmemA, hmemB, hgrid] at hg'
    -- from count `N` on the feeder shows zeros, which flushes the lines
    obtain ⟨hforward, hlanes⟩ := Grid.clear_trace fp16Mac (qsysGrid q) (feedOf q.memA q.memB)
      (t := 3 * N + 3) (fun s hs _ => columnAndRow_past _ _ hs) (by omega)
    rw [← hg'] at hforward hlanes
    refine ⟨⟨hoff', hforward, hlanes⟩, hdone'.trans (hdone.trans (decide_eq_true rfl)),
      fun i j => ?_⟩
    have hi := i.isLt
    have hj := j.isLt
    have hacc := Grid.acc_trace_of_clear (feedOf q.memA q.memB) i j fp16Mac_neutral h.forward
      h.lanes (3 * N + 3)
    rw [← hg', accumulate_feedOf q.memA q.memB i j (by omega)] at hacc
    exact hacc

end MatrixAccelerator.Analysis
