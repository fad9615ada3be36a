import MatrixAccelerator.Analysis.BusDecoding
import MatrixAccelerator.Analysis.QsysRun
import MatrixAccelerator.Interface.RunningSums
import MatrixAccelerator.Library.Simulation
import MatrixAccelerator.Model.Driver

/-!
# The Qsys copy refines the running sums

While the Qsys copy calculates, its data path is the grid run on what was fed, from cleared
lines and the sums before the run; a START meanwhile reaches the status bits only, as the
phase branch assigns the counter and the flag after it.
-/

set_option autoImplicit false

namespace MatrixAccelerator.Analysis

open MatrixAccelerator.Library MatrixAccelerator.Model MatrixAccelerator.Interface

variable {N : ℕ}

/-! ## The control registers -/

/-- **One edge of the control registers of the Qsys copy.**
RTL: system/synthesis/submodules/matrix_accel_top_systolic_array.v:74-91 -/
theorem qsys_fsm_step (hN : N ≤ 84) {s : Qsys.Fsm}
    (hb : s.stateCalc = true → s.cycleCnt.toNat ≤ 3 * N + 2) (bus : AvsCycle) :
    let last := s.stateCalc && decide (s.cycleCnt.toNat = 3 * N + 2)
    (s.step N bus).stateCalc = (!last && (s.stateCalc || bus.clrPeSig)) ∧
      (s.stateCalc = true → (s.step N bus).cycleCnt.toNat = s.cycleCnt.toNat + 1) ∧
      (s.stateCalc = false → bus.clrPeSig = true → (s.step N bus).cycleCnt.toNat = 0) ∧
      (s.step N bus).ctrlStart =
        (!last && (commandOf bus : Command N).startBit s.ctrlStart) ∧
      (s.step N bus).ctrlDone = (last || (!bus.clrPeSig && s.ctrlDone)) := by
  intro last
  have hbranch : (Qsys.Fsm.startBranch bus s).ctrlStart =
        (commandOf bus : Command N).startBit s.ctrlStart ∧
      (Qsys.Fsm.startBranch bus s).ctrlDone = (!bus.clrPeSig && s.ctrlDone) ∧
      (Qsys.Fsm.startBranch bus s).stateCalc = (s.stateCalc || bus.clrPeSig) ∧
      (bus.clrPeSig = true → (Qsys.Fsm.startBranch bus s).cycleCnt = 0#8) := by
    rw [startBit_commandOf]
    unfold Qsys.Fsm.startBranch AvsCycle.clrPeSig
    cases hctrl : bus.write && decide (bus.address = 0#14) with
    | false => simp
    | true => cases hd : bus.writedata.getLsbD 0 <;> simp
  obtain ⟨hstart, hdone, hcalc, hcnt⟩ := hbranch
  cases hflag : s.stateCalc with
  | false =>
    have hlast : last = false := by simp [last, hflag]
    rw [hflag] at hcalc
    simp only [Qsys.Fsm.step, Qsys.Fsm.calcBranch, hflag, Bool.false_eq_true, if_false, hlast,
      hstart, hdone, hcalc]
    refine ⟨rfl, False.elim, fun _ hs => ?_, rfl, rfl⟩
    rw [hcnt hs]
    rfl
  | true =>
    have hsucc : (s.cycleCnt + 1#8).toNat = s.cycleCnt.toNat + 1 :=
      cycleCnt_succ (by have := hb hflag; omega)
    rw [hflag] at hcalc
    by_cases hc : s.cycleCnt.toNat = 3 * N + 2
    · -- the last count overrides a START in the same cycle
      have hlast : last = true := by simp [last, hflag, hc]
      simp only [Qsys.Fsm.step, Qsys.Fsm.calcBranch, hflag, if_true, hc, hlast]
      exact ⟨rfl, fun _ => hsucc.trans (by rw [hc]), fun ht => absurd ht.symm Bool.false_ne_true,
        rfl, rfl⟩
    · have hlast : last = false := by simp [last, hc]
      simp only [Qsys.Fsm.step, Qsys.Fsm.calcBranch, hflag, if_true, hc, if_false, hlast, hstart,
        hdone, hcalc]
      exact ⟨rfl, fun _ => hsucc, fun ht => absurd ht.symm Bool.false_ne_true, rfl, rfl⟩

/-- INTERNAL: The read register answers the query.
RTL: system/synthesis/submodules/matrix_accel_top_systolic_array.v:113-121 -/
theorem qsys_readdataNext_eq_answer (q : Qsys.MatrixAccelTop N) (bus : AvsCycle) :
    q.readdataNext bus =
      (queryOf bus).answer (q.fsm.ctrlDone, q.fsm.ctrlStart) (fun i j => (q.array i j).cOut)
        q.avsReaddata := by
  unfold queryOf
  cases hr : bus.read with
  | false =>
    simp [Qsys.MatrixAccelTop.readdataNext, hr, Query.answer, Qsys.MatrixAccelTop.avsReaddata]
  | true =>
    by_cases ha : bus.address = 0#14
    · simp [Qsys.MatrixAccelTop.readdataNext, hr, ha, Query.answer]
    · simp only [Qsys.MatrixAccelTop.readdataNext, hr, if_true, if_neg ha]
      by_cases hwin : 0xC00 ≤ bus.address.toNat ∧ bus.address.toNat < 0xC00 + N * N
      · rw [dif_pos hwin, windowElement, dif_pos hwin]
        rfl
      · rw [dif_neg hwin, windowElement, dif_neg hwin]
        rfl

/-! ## The data path -/

/-- The data path adds: it is the grid run from cleared lines on what was fed. -/
structure Adding (q : Qsys.MatrixAccelTop N) (base : Fin N → Fin N → Word) (c : ℕ)
    (fed : Feed N) : Prop where
  stateCalc : q.fsm.stateCalc = true
  count : q.fsm.cycleCnt.toNat = c
  bounded : c ≤ 3 * N + 2
  past : ∀ k, N ≤ k → ∀ g, (fed k).1 g = 0#16 ∧ (fed k).2 g = 0#16
  grid : ∃ g : Grid N Word Word Word, g.ForwardClear 0#16 0#16 ∧ g.LanesClear 0#16 0#16 ∧
    g.acc = base ∧ qsysGrid q = trace (Grid.step fp16Mac) g fed c

/-- The data path stands for the tally over the sums `base`. -/
def Tallies (q : Qsys.MatrixAccelTop N) (base : Fin N → Fin N → Word) : Tally N → Prop
  | Tally.resting => AtRest q ∧ (qsysGrid q).acc = base
  | Tally.adding c fed => Adding q base c fed

/-- The feeder shows the column and the row of its count. -/
theorem qsys_feed_eq_columnAndRow {q : Qsys.MatrixAccelTop N} (h : q.fsm.stateCalc = true)
    {A B : Fin N → Fin N → Word} (hA : ∀ i j, q.memA (cell i j) = A i j)
    (hB : ∀ i j, q.memB (cell i j) = B i j) :
    (q.aColFeed, q.bRowFeed) = columnAndRow A B q.fsm.cycleCnt.toNat := by
  rw [qsys_feed h]
  simp only [feedOf, hA, hB]

/-- INTERNAL: The sums of a data path that adds. -/
theorem Adding.acc_eq {q : Qsys.MatrixAccelTop N} {base : Fin N → Fin N → Word} {c : ℕ}
    {fed : Feed N} (h : Adding q base c fed) :
    (qsysGrid q).acc = (Tally.adding c fed).sums base := by
  obtain ⟨g, hforward, hlanes, rfl, hgrid⟩ := h.grid
  funext i j
  rw [hgrid]
  exact Grid.acc_trace_of_clear fed i j fp16Mac_neutral hforward hlanes c

/-- The accumulators are the sums. -/
theorem Tallies.acc_eq {q : Qsys.MatrixAccelTop N} {base : Fin N → Fin N → Word} {t : Tally N}
    (h : Tallies q base t) : (qsysGrid q).acc = t.sums base := by
  cases t with
  | resting => exact h.2
  | adding c fed => exact Adding.acc_eq h

/-- The last count of the tally is that of the calculation. -/
theorem Tallies.last_eq {q : Qsys.MatrixAccelTop N} {base : Fin N → Fin N → Word} {t : Tally N}
    (h : Tallies q base t) :
    t.last = (q.fsm.stateCalc && decide (q.fsm.cycleCnt.toNat = 3 * N + 2)) := by
  cases t with
  | resting =>
    rw [h.1.stateCalc]
    rfl
  | adding c fed =>
    rw [Adding.stateCalc h, Adding.count h]
    rfl

/-- A calculation never counts past `3 * N + 2`. -/
theorem Tallies.bounded {q : Qsys.MatrixAccelTop N} {base : Fin N → Fin N → Word} {t : Tally N}
    (h : Tallies q base t) (hcalc : q.fsm.stateCalc = true) :
    q.fsm.cycleCnt.toNat ≤ 3 * N + 2 := by
  cases t with
  | resting => exact absurd (h.1.stateCalc.symm.trans hcalc) Bool.false_ne_true
  | adding c fed => exact (Adding.count h).trans_le (Adding.bounded h)

/-- INTERNAL: A START at rest begins a run, any other edge leaves the copy at rest. -/
theorem resting_step (hN : N ≤ 84) {q : Qsys.MatrixAccelTop N} (h : AtRest q)
    (A B : Fin N → Fin N → Word) (bus : AvsCycle) :
    Tallies (q.step bus) (qsysGrid q).acc (Tally.resting.step A B bus.clrPeSig) := by
  obtain ⟨hcalc, -, hzero, -, -⟩ := qsys_fsm_step hN (s := q.fsm)
    (fun hc => absurd (h.stateCalc.symm.trans hc) Bool.false_ne_true) bus
  rw [h.stateCalc, Bool.false_and, Bool.not_false, Bool.true_and, Bool.false_or] at hcalc
  have hgrid := qsysGrid_step_of_not_calc h.stateCalc bus
  cases hs : bus.clrPeSig with
  | false =>
    rw [hs] at hcalc
    exact ⟨⟨hcalc, by rw [hgrid]; exact h.forward, by rw [hgrid]; exact h.lanes⟩,
      by rw [hgrid]⟩
  | true =>
    rw [hs] at hcalc
    exact ⟨hcalc, hzero h.stateCalc hs, Nat.zero_le _, fun _ _ _ => ⟨rfl, rfl⟩,
      qsysGrid q, h.forward, h.lanes, rfl, hgrid⟩

/-- INTERNAL: A calculating edge feeds the tally, a START or not, and the last one leaves
nothing in the lines.
RTL: system/synthesis/submodules/matrix_accel_top_systolic_array.v:39-62 -/
theorem Adding.step (hN : N ≤ 84) {q : Qsys.MatrixAccelTop N} {base : Fin N → Fin N → Word}
    {c : ℕ} {fed : Feed N} (h : Adding q base c fed)
    {A B : Fin N → Fin N → Word} (hfeed : (q.aColFeed, q.bRowFeed) = columnAndRow A B c)
    (bus : AvsCycle) :
    let t := Tally.adding c fed
    Tallies (q.step bus) (if t.last then (t.feed A B).sums base else base)
      (t.step A B bus.clrPeSig) := by
  intro t
  obtain ⟨hcalc, hcnt, -, -, -⟩ := qsys_fsm_step hN (s := q.fsm)
    (fun _ => h.count.trans_le h.bounded) bus
  rw [h.stateCalc, h.count, Bool.true_and, Bool.true_or, Bool.and_true] at hcalc
  have hpast : ∀ k, N ≤ k → ∀ g, (Function.update fed c (columnAndRow A B c) k).1 g = 0#16 ∧
      (Function.update fed c (columnAndRow A B c) k).2 g = 0#16 := by
    intro k hk g
    by_cases hkc : k = c
    · subst hkc
      rw [Function.update_self]
      exact columnAndRow_past A B hk g
    · rw [Function.update_of_ne hkc]
      exact h.past k hk g
  obtain ⟨g, hforward, hlanes, hacc, hgrid⟩ := h.grid
  have hgrid' : qsysGrid (q.step bus) =
      trace (Grid.step fp16Mac) g (Function.update fed c (columnAndRow A B c)) (c + 1) := by
    rw [qsysGrid_step_of_calc h.stateCalc, hfeed, hgrid, trace_succ, Function.update_self]
    congr 1
    exact trace_congr _ _ fun u hu => (Function.update_of_ne (Nat.ne_of_lt hu) _ _).symm
  by_cases hlast : c = 3 * N + 2
  · -- by the last count every line has run dry, so the array has added the whole sums
    have hl : t.last = true := decide_eq_true hlast
    rw [decide_eq_true hlast] at hcalc
    obtain ⟨hforward', hlanes'⟩ := Grid.clear_trace fp16Mac g
      (Function.update fed c (columnAndRow A B c)) (K := N) (t := c + 1)
      (fun k hk _ => hpast k hk) (by omega)
    have hsums : (qsysGrid (q.step bus)).acc = (t.feed A B).sums base := by
      rw [hgrid', ← hacc]
      funext i j
      exact Grid.acc_trace_of_clear _ i j fp16Mac_neutral hforward hlanes (c + 1)
    have hrest : t.step A B bus.clrPeSig = Tally.resting := if_pos hl
    rw [if_pos hl, hrest]
    exact ⟨⟨hcalc, by rw [hgrid']; exact hforward', by rw [hgrid']; exact hlanes'⟩, hsums⟩
  · have hl : ¬ t.last = true := fun hd => hlast (of_decide_eq_true hd)
    rw [decide_eq_false hlast] at hcalc
    have hstep : t.step A B bus.clrPeSig =
        Tally.adding (c + 1) (Function.update fed c (columnAndRow A B c)) := if_neg hl
    have hle := h.bounded
    rw [if_neg hl, hstep]
    exact ⟨hcalc, (hcnt h.stateCalc).trans (congrArg (· + 1) h.count), by omega, hpast, g,
      hforward, hlanes, hacc, hgrid'⟩

/-! ## The two machines -/

/-- The registers of the Qsys copy stand for a state of the running sums. -/
structure QsysRepresents (q : Qsys.MatrixAccelTop N) (m : RunningSums N) : Prop where
  A : ∀ i j, q.memA (cell i j) = m.A i j
  B : ∀ i j, q.memB (cell i j) = m.B i j
  tally : Tallies q m.base m.tally
  started : q.fsm.ctrlStart = m.started
  done : q.fsm.ctrlDone = m.done
  shown : q.avsReaddata = m.shown

/-- Both machines out of reset. -/
theorem qsys_reset_represents (N : ℕ) :
    QsysRepresents (Qsys.MatrixAccelTop.reset N) (RunningSums.reset N) where
  A _ _ := rfl
  B _ _ := rfl
  tally := ⟨reset_atRest N, rfl⟩
  started := rfl
  done := rfl
  shown := rfl

/-- INTERNAL: **One edge of both machines.** -/
theorem qsys_represents_step (hN : N ≤ 84) :
    Simulates Qsys.MatrixAccelTop.step (RunningSums.step (N := N)) requestOf QsysRepresents := by
  intro q m bus h
  obtain ⟨-, -, -, hstart, hdone⟩ := qsys_fsm_step hN h.tally.bounded bus
  rw [← h.tally.last_eq] at hstart hdone
  refine ⟨fun i j => ?_, fun i j => ?_, ?_, ?_, ?_, ?_⟩
  · refine (writeA_apply bus q.memA (cell i j)).trans ?_
    rw [h.A]
    exact (storedA_apply bus m.A i j).symm
  · refine (writeB_apply bus q.memB (cell i j)).trans ?_
    rw [h.B]
    exact (storedB_apply bus m.B i j).symm
  · have htally := h.tally
    simp only [RunningSums.step, requestOf, isStart_commandOf]
    cases ht : m.tally with
    | resting =>
      rw [ht] at htally
      obtain ⟨hrest, hacc⟩ := htally
      have hstep := resting_step hN hrest m.A m.B bus
      rwa [hacc] at hstep
    | adding c fed =>
      rw [ht] at htally
      have hadd : Adding q m.base c fed := htally
      have hfeed := qsys_feed_eq_columnAndRow hadd.stateCalc h.A h.B
      rw [hadd.count] at hfeed
      exact hadd.step hN hfeed bus
  · refine hstart.trans ?_
    rw [h.started]
    rfl
  · refine hdone.trans ?_
    rw [h.done, ← isStart_commandOf (N := N) bus]
    rfl
  · refine (qsys_readdataNext_eq_answer q bus).trans ?_
    have hC : (fun i j => (q.array i j).cOut) = m.C := h.tally.acc_eq
    rw [hC, h.done, h.started, h.shown]
    rfl

/-- **The Qsys copy refines the running sums.**  After any bus cycles from reset, with STARTs,
window writes and reads on any of them, the port, the two status bits, the operand memories
and the words of the C window are those of the running sums after the requests that the
cycles carry.
RTL: system/synthesis/submodules/matrix_accel_top_systolic_array.v:38-123,
system/synthesis/submodules/systolic_array.v:10-48, system/synthesis/submodules/pe_fp16.v:12-32 -/
theorem qsys_refines_running_sums (N : ℕ) (hN : 1 ≤ N ∧ N ≤ 84) (cycles : List AvsCycle) :
    let q := run Qsys.MatrixAccelTop.step (Qsys.MatrixAccelTop.reset N) cycles
    let m := run RunningSums.step (RunningSums.reset N) (cycles.map requestOf)
    q.avsReaddata = m.shown ∧ q.fsm.ctrlDone = m.done ∧ q.fsm.ctrlStart = m.started ∧
      ∀ i j, q.memA (cell i j) = m.A i j ∧ q.memB (cell i j) = m.B i j ∧
        (q.array i j).cOut = m.C i j := by
  intro q m
  have h : QsysRepresents q m := (qsys_represents_step hN.2).along_run (qsys_reset_represents N) cycles
  exact ⟨h.shown, h.done, h.started, fun i j =>
    ⟨h.A i j, h.B i j, congrFun (congrFun h.tally.acc_eq i) j⟩⟩

/-- Two runs one after the other, and a read of the second word of C. -/
def twiceStarted : List AvsCycle :=
  pairRun 10 ++ Driver.startWrite :: List.replicate 10 default ++
    [Driver.iord32Direct Driver.accelMemC 4]

/-- After two runs both machines show 1.5, twice `1.5 * -2.0 + 2.5 * 1.5`. -/
theorem qsys_refines_running_sums_twice :
    let q := run Qsys.MatrixAccelTop.step (Qsys.MatrixAccelTop.reset 2) twiceStarted
    let m := run RunningSums.step (RunningSums.reset 2) (twiceStarted.map requestOf)
    q.avsReaddata = m.shown ∧ m.shown = 0x00003E00#32 ∧ q.fsm.ctrlDone = m.done ∧ m.done = true ∧
      ∀ i j, q.memA (cell i j) = m.A i j ∧ q.memB (cell i j) = m.B i j ∧
        (q.array i j).cOut = m.C i j := by
  intro q m
  obtain ⟨hshown, hdone, -, hmem⟩ := qsys_refines_running_sums 2 (by decide) twiceStarted
  exact ⟨hshown, by decide, hdone, by decide, hmem⟩

/-! ## A run under any traffic -/

/-- A reachable Qsys copy stands for some sums. -/
theorem exists_qsysRepresents (hN : N ≤ 84) {q : Qsys.MatrixAccelTop N}
    (hq : Reachable Qsys.MatrixAccelTop.step (Qsys.MatrixAccelTop.reset N) q) :
    ∃ m : RunningSums N, QsysRepresents q m := by
  obtain ⟨cycles, rfl⟩ := hq
  exact ⟨_, (qsys_represents_step hN).along_run (qsys_reset_represents N) cycles⟩

/-- The copy is at rest when the tally is. -/
theorem Tallies.stateCalc_iff {q : Qsys.MatrixAccelTop N} {base : Fin N → Fin N → Word}
    {t : Tally N} (h : Tallies q base t) : q.fsm.stateCalc = false ↔ t = Tally.resting := by
  cases t with
  | resting => exact iff_of_true h.1.stateCalc rfl
  | adding c fed =>
    have hcalc := Adding.stateCalc h
    constructor
    · intro hrest
      exact absurd (hrest.symm.trans hcalc) Bool.false_ne_true
    · intro heq
      cases heq

/-- **The C window while the Qsys copy calculates.**  After a START at rest, under any bus
cycles, STARTs and window writes among them, the copy calculates for `3 * N + 3` cycles and
`ctrl_done` is set on the last; after `t` of them the word of element `(i, j)` has the first
`t - (i + j)` operands added to what it held.
RTL: system/synthesis/submodules/matrix_accel_top_systolic_array.v:38-123,
system/synthesis/submodules/systolic_array.v:10-48, system/synthesis/submodules/pe_fp16.v:12-32 -/
theorem qsys_reads_running_sums (N : ℕ) (hN : 1 ≤ N ∧ N ≤ 84) (q : Qsys.MatrixAccelTop N)
    (hq : Reachable Qsys.MatrixAccelTop.step (Qsys.MatrixAccelTop.reset N) q)
    (hrest : q.fsm.stateCalc = false) (e0 : AvsCycle) (he0 : e0.clrPeSig = true)
    (traffic : ℕ → AvsCycle) :
    let after := trace Qsys.MatrixAccelTop.step (q.step e0) traffic
    (∀ t < 3 * N + 3, (after t).fsm.stateCalc = true ∧ (after t).fsm.ctrlDone = false) ∧
      (after (3 * N + 3)).fsm.stateCalc = false ∧ (after (3 * N + 3)).fsm.ctrlDone = true ∧
      ∀ t ≤ 3 * N + 3, ∀ i j, ((after t).array i j).cOut =
        macFold (q.array i j).cOut
          ((operandsAt (fun k => (after k).memA) (fun k => (after k).memB) i j).take
            (t - (i.val + j.val))) := by
  intro after
  obtain ⟨m, hm⟩ := exists_qsysRepresents hN.2 hq
  have hresting := hm.tally.stateCalc_iff.mp hrest
  have hstart : (requestOf e0 : Request N).command.isStart = true :=
    (isStart_commandOf e0).trans he0
  -- the START begins a tally of nothing over the sums held
  have htally : (m.step (requestOf e0)).tally = Tally.adding 0 Feed.nothing := by
    simp only [RunningSums.step, hresting, Tally.step, hstart, if_true]
  have hbase : (m.step (requestOf e0)).base = fun i j => (q.array i j).cOut := by
    have hacc := hm.tally.acc_eq
    rw [hresting] at hacc
    simp only [RunningSums.step, hresting, Tally.last, Bool.false_eq_true, if_false]
    exact hacc.symm
  have hdone : (m.step (requestOf e0)).done = false := by
    simp only [RunningSums.step, hresting, Tally.last, hstart, Bool.not_true, Bool.false_and,
      Bool.or_false]
  have hrep : ∀ t, QsysRepresents (after t)
      ((m.step (requestOf e0)).after (fun u => requestOf (traffic u)) t) := fun t =>
    (qsys_represents_step hN.2).along_trace (qsys_represents_step hN.2 q m e0 hm) traffic t
  obtain ⟨hend, hset, -⟩ := RunningSums.tally_ends (r := fun u => requestOf (traffic u)) htally
  refine ⟨fun t ht => ⟨?_, ?_⟩, (hrep _).tally.stateCalc_iff.mpr hend, (hrep _).done.trans hset,
    fun t ht i j => ?_⟩
  · rw [← Bool.not_eq_false]
    intro hcalc
    have hnow := (hrep t).tally.stateCalc_iff.mp hcalc
    rw [(RunningSums.tally_adding (r := fun u => requestOf (traffic u)) htally (by omega)).1] at hnow
    cases hnow
  · exact (hrep t).done.trans (RunningSums.done_adding htally hdone ht)
  · have hacc : ((after t).array i j).cOut = _ := congrFun (congrFun (hrep t).tally.acc_eq i) j
    have hC := RunningSums.C_growing (r := fun u => requestOf (traffic u)) htally ht
    rw [RunningSums.C] at hC
    rw [hacc, hC, RunningSums.sums_fedBy, hbase]
    simp only [operandsAt, (hrep _).A, (hrep _).B]

/-- A run with a START on every one of its cycles. -/
theorem qsys_reads_running_sums_reset :
    (trace Qsys.MatrixAccelTop.step ((Qsys.MatrixAccelTop.reset 3).step Driver.startWrite)
      (fun _ => Driver.startWrite) 12).fsm.ctrlDone = true :=
  (qsys_reads_running_sums 3 (by decide) (Qsys.MatrixAccelTop.reset 3) Reachable.refl rfl
    Driver.startWrite (by decide) fun _ => Driver.startWrite).2.2.1

end MatrixAccelerator.Analysis
