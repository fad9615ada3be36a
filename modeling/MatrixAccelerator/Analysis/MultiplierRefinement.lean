import MatrixAccelerator.Analysis.BusDecoding
import MatrixAccelerator.Analysis.StartRuns
import MatrixAccelerator.Interface.Multiplier
import MatrixAccelerator.Library.Simulation
import MatrixAccelerator.Model.Driver

/-!
# The accelerator refines the multiplier

The registers of the phase machine, of the skew lines and of the array, seen as a job.  While
calculating, each cell settles to the sum the job has; while draining, each row brings to its
last wire the words the job is to return.  `Represents` ties the two machines together, and
one edge keeps it under any bus cycle (`represents_step`), a START on any edge included.
-/

set_option autoImplicit false

namespace MatrixAccelerator.Analysis

open MatrixAccelerator.Library MatrixAccelerator.Model MatrixAccelerator.Interface

variable {N : ℕ}

/-- The core sums: its lines hold what was fed, and its cells settle to the sums. -/
structure Summing (s : MatrixAccelTop N) (c cleared : ℕ) (fed : Feed N) : Prop where
  calculating : phase s.fsm = Phase.calculating c
  cleared_le : cleared ≤ c
  laneA : ∀ i k, s.core.skew.delayA i k = if k.val < c then (fed (c - 1 - k.val)).1 i else 0#16
  laneB : ∀ j k, s.core.skew.delayB j k = if k.val < c then (fed (c - 1 - k.val)).2 j else 0#16
  passed : ∀ i j, N + i.val + j.val + 1 ≤ c → (s.core.array i j).aOut = 0#16
  settled : ∀ i j, (coreGrid s.core).settled fp16Mac 0#16 0#16 i j = summed c cleared fed i j

/-- The core drains: every column still to be returned is on its way along the rows. -/
structure Returning (s : MatrixAccelTop N) (c : ℕ) (result : Fin N → Fin N → Word) : Prop where
  draining : phase s.fsm = Phase.draining c
  columns : ∀ i j : Fin N, c ≤ 2 * (N - 1 - j.val) + 1 → incoming s.core i j c = result i j

/-- The phase machine and the core do the job. -/
def DoesJob (s : MatrixAccelTop N) : Job N → Prop
  | Job.idle => phase s.fsm = Phase.idle
  | Job.summing c cleared fed => Summing s c cleared fed
  | Job.returning c result => Returning s c result

/-! ## The sums -/

/-- Before anything is fed the sum is zero. -/
theorem summed_nothing_fed (c : ℕ) (i j : Fin N) :
    summed c 0 Feed.nothing i j = 0#16 := by
  apply macFold_zero_pairs
  intro p hp
  obtain ⟨k, -, rfl⟩ := List.mem_map.mp hp
  exact Or.inl rfl

/-- The next pair is added to the sum last. -/
theorem summed_succ {c cleared : ℕ} (h : cleared ≤ c) (fed : Feed N)
    (xy : (Fin N → Word) × (Fin N → Word)) (i j : Fin N) :
    summed (c + 1) cleared (Function.update fed c xy) i j =
      fp16Mac (xy.1 i) (xy.2 j) (summed c cleared fed i j) := by
  have hold : ((List.range c).drop (cleared - min i.val j.val)).map
        (Feed.pair (Function.update fed c xy) i j) =
      ((List.range c).drop (cleared - min i.val j.val)).map (fed.pair i j) := by
    apply List.map_congr_left
    intro k hk
    have hne : k ≠ c := Nat.ne_of_lt (List.mem_range.mp (List.mem_of_mem_drop hk))
    simp only [Feed.pair, Function.update_of_ne hne]
  have hnow : Feed.pair (Function.update fed c xy) i j c = (xy.1 i, xy.2 j) := by
    simp only [Feed.pair, Function.update_self]
  rw [summed, List.range_succ,
    List.drop_append_of_le_length (by rw [List.length_range]; omega), List.map_append, hold,
    List.map_singleton, hnow]
  exact accumulate_concat _ _ _ _

/-! ## The feeder and the lines -/

/-- The feeder shows the column and the row of its count. -/
theorem feed_eq_columnAndRow {s : MatrixAccelTop N} {c : ℕ}
    (hp : phase s.fsm = Phase.calculating c) {A B : Fin N → Fin N → Word}
    (hA : ∀ i j, s.memA (cell i j) = A i j) (hB : ∀ i j, s.memB (cell i j) = B i j) :
    (s.aColFeed, s.bRowFeed) = columnAndRow A B c := by
  obtain ⟨hcalc, hcnt⟩ := stateCalc_of_phase hp
  rw [feed_eq_feedOf hcalc, hcnt]
  simp only [feedOf, hA, hB]

/-- INTERNAL: A line that holds what was fed takes the next word. -/
theorem shift_fed {n c : ℕ} {line : Fin n → Word} {x : ℕ → Word}
    (h : ∀ k, line k = if k.val < c then x (c - 1 - k.val) else 0#16) (k : Fin n) :
    DelayLine.shift line (x c) k = if k.val < c + 1 then x (c + 1 - 1 - k.val) else 0#16 := by
  rw [DelayLine.shift_apply]
  by_cases hk : 0 < k.val
  · rw [DelayLine.taps_of_pos _ _ _ (by simpa using hk), h]
    simp only [Fin.val_castSucc]
    by_cases hc : k.val < c + 1
    · rw [if_pos hc, if_pos (by omega)]
      congr 1
      omega
    · rw [if_neg hc, if_neg (by omega)]
  · have hzero : k.castSucc = 0 := Fin.ext (by simpa using hk)
    rw [hzero, DelayLine.taps_zero, if_pos (by omega)]
    congr 1
    omega

section Calculating

variable {s : MatrixAccelTop N} {c cleared : ℕ} {fed : Feed N}
  {A B : Fin N → Fin N → Word}

/-- INTERNAL: The lines after a calculating edge, a START or not.
RTL: skew_buffer.v:19-45 -/
theorem Summing.lanes_step (h : Summing s c cleared fed)
    (hfeed : (s.aColFeed, s.bRowFeed) = columnAndRow A B c) (bus : AvsCycle) :
    (∀ i k, (s.step bus).core.skew.delayA i k =
        if k.val < c + 1 then
          (Function.update fed c (columnAndRow A B c) (c + 1 - 1 - k.val)).1 i
        else 0#16) ∧
      ∀ j k, (s.step bus).core.skew.delayB j k =
        if k.val < c + 1 then
          (Function.update fed c (columnAndRow A B c) (c + 1 - 1 - k.val)).2 j
        else 0#16 := by
  have hcalc := (stateCalc_of_phase h.calculating).1
  have hbefore : ∀ k, k < c →
      Function.update fed c (columnAndRow A B c) (c - 1 - k) = fed (c - 1 - k) := fun k hk =>
    Function.update_of_ne (by omega) _ _
  have hnow : Function.update fed c (columnAndRow A B c) c = (s.aColFeed, s.bRowFeed) := by
    rw [Function.update_self, hfeed]
  rw [skew_step_of_calc hcalc]
  constructor
  · intro i k
    have hline : ∀ k : Fin i.val, s.core.skew.delayA i k = if k.val < c then
        (Function.update fed c (columnAndRow A B c) (c - 1 - k.val)).1 i else 0#16 := by
      intro k
      rw [h.laneA]
      exact ite_congr rfl (fun hk => by rw [hbefore _ hk]) fun _ => rfl
    have hshift := shift_fed
      (x := fun u => (Function.update fed c (columnAndRow A B c) u).1 i) hline k
    simpa only [hnow] using hshift
  · intro j k
    have hline : ∀ k : Fin j.val, s.core.skew.delayB j k = if k.val < c then
        (Function.update fed c (columnAndRow A B c) (c - 1 - k.val)).2 j else 0#16 := by
      intro k
      rw [h.laneB]
      exact ite_congr rfl (fun hk => by rw [hbefore _ hk]) fun _ => rfl
    have hshift := shift_fed
      (x := fun u => (Function.update fed c (columnAndRow A B c) u).2 j) hline k
    simpa only [hnow] using hshift

/-- INTERNAL: The zeros behind the last column of A move one cell an edge.
RTL: pe_fp16.v:42 -/
theorem Summing.passed_step (h : Summing s c cleared fed) (hclean : CleanPipeline s)
    {bus : AvsCycle} (hs : bus.clrPeSig = false) (i j : Fin N)
    (hij : N + i.val + j.val + 1 ≤ c + 1) : ((s.step bus).core.array i j).aOut = 0#16 := by
  have hgrid := congrArg (fun g => g.right i j)
    (grid_step_of_calc hclean.wellPhased h.calculating hs)
  simp only [coreGrid, Grid.step, Grid.rowWire] at hgrid
  rw [hgrid]
  by_cases hj : 0 < j.val
  · rw [DelayLine.taps_of_pos _ _ _ (by simpa using hj)]
    exact h.passed i _ (by simp only [Fin.val_castSucc]; omega)
  · have hzero : j.castSucc = 0 := Fin.ext (by simpa using hj)
    rw [hzero, DelayLine.taps_zero, DelayLine.output]
    by_cases hi : 0 < i.val
    · rw [DelayLine.taps_of_pos _ _ _ (by simpa using hi)]
      apply hclean.delayA
      rw [h.calculating]
      simp only [LaneLive, Fin.val_last]
      omega
    · have hlast : Fin.last i.val = 0 := Fin.ext (by simpa using hi)
      rw [hlast, DelayLine.taps_zero]
      exact (feed_of_ge (by rw [(stateCalc_of_phase h.calculating).2]; omega) i).1

/-- INTERNAL: What a cell settles to after a calculating edge: one more pair, or, behind a
START, the pairs that are still in the lines. -/
theorem Summing.settled_step (h : Summing s c cleared fed) (hclean : CleanPipeline s)
    (hfeed : (s.aColFeed, s.bRowFeed) = columnAndRow A B c) (bus : AvsCycle) (i j : Fin N) :
    (coreGrid (s.step bus).core).settled fp16Mac 0#16 0#16 i j =
      summed (c + 1) (if bus.clrPeSig then c + 1 else cleared)
        (Function.update fed c (columnAndRow A B c)) i j := by
  cases hs : bus.clrPeSig with
  | false =>
    rw [grid_step_of_calc hclean.wellPhased h.calculating hs, Grid.settled_step, h.settled,
      hfeed]
    exact (summed_succ h.cleared_le fed _ i j).symm
  | true =>
    have harray := array_step_of_start s hs
    have hacc : (coreGrid (s.step bus).core).acc i j = 0#16 := by
      simp only [coreGrid, harray]
      rfl
    obtain ⟨hA, hB⟩ := h.lanes_step hfeed bus
    rw [Grid.settled_of_forwardClear fp16Mac_neutral (forwardClear_of_reset harray), hacc]
    exact Grid.accumulate_lanePairs fp16Mac_neutral
      (x := fun u => (Function.update fed c (columnAndRow A B c) u).1 i)
      (y := fun u => (Function.update fed c (columnAndRow A B c) u).2 j) (hA i) (hB j) _

/-- INTERNAL: The job after a calculating edge. -/
theorem Summing.step (hN : N ≤ 84) (h : Summing s c cleared fed) (hclean : CleanPipeline s)
    (hfeed : (s.aColFeed, s.bRowFeed) = columnAndRow A B c) (bus : AvsCycle) :
    DoesJob (s.step bus) ((Job.summing c cleared fed).step A B bus.clrPeSig) := by
  have hphase := (fsm_step hN hclean.wellPhased bus).2.1
  rw [← fsm_step_eq, h.calculating] at hphase
  have hle := hclean.wellPhased.calculating_le h.calculating
  have hsettled := h.settled_step hclean hfeed bus
  simp only [Job.step]
  by_cases hlast : c = 3 * N + 2
  · -- the last count: every pair has met, and the drain takes the accumulators
    rw [if_pos hlast]
    simp only [Phase.step, hlast, if_true] at hphase
    refine ⟨hphase, fun i j _ => ?_⟩
    have hi := i.isLt
    have hj := j.isLt
    have hclean' := hclean.step hN bus
    have hrow : ∀ k : Fin N, k.val < j.val → ((s.step bus).core.array i k).aOut = 0#16 := by
      intro k hk
      cases hs : bus.clrPeSig with
      | false => exact h.passed_step hclean hs i k (by omega)
      | true =>
        rw [array_step_of_start s hs]
        rfl
    have hacc := Grid.settled_of_row_clear (g := coreGrid (s.step bus).core) (j := j)
      fp16Mac_neutral (w := 0#16)
      (fun k => hclean'.delayA i k (not_laneLive_of_not_calc (stateDrain_of_phase hphase).1 _))
      hrow
    rw [incoming_zero, ← hsettled]
    exact hacc.symm
  · -- an earlier count: a START in it clears the array and leaves the lines
    rw [if_neg hlast]
    simp only [Phase.step, hlast, if_false] at hphase
    obtain ⟨hA, hB⟩ := h.lanes_step hfeed bus
    refine ⟨hphase, ?_, hA, hB, fun i j hij => ?_, hsettled⟩
    · split
      · exact le_rfl
      · exact Nat.le_succ_of_le h.cleared_le
    · cases hs : bus.clrPeSig with
      | false => exact h.passed_step hclean hs i j hij
      | true =>
        rw [array_step_of_start s hs]
        rfl

end Calculating

/-! ## The other phases -/

/-- INTERNAL: A START outside the calculation begins a sum over empty lines. -/
theorem summing_of_start {s : MatrixAccelTop N} (hclean : CleanPipeline s)
    (hcalc : s.fsm.stateCalc = false) {bus : AvsCycle} (hs : bus.clrPeSig = true) {c : ℕ}
    (hp : phase (s.step bus).fsm = Phase.calculating c) :
    Summing (s.step bus) c 0 Feed.nothing := by
  have harray := array_step_of_start s hs
  have hlanes := fun i k => hclean.lanes_hold hcalc bus i k
  refine ⟨hp, Nat.zero_le c, fun i k => ?_, fun i k => ?_, fun i j _ => ?_, fun i j => ?_⟩
  · exact (hlanes i k).1.trans (ite_self _).symm
  · exact (hlanes i k).2.trans (ite_self _).symm
  · rw [harray]
    rfl
  · rw [Grid.settled_of_forwardClear fp16Mac_neutral (forwardClear_of_reset harray),
      summed_nothing_fed, ← macFold_eq_accumulate,
      macFold_lanePairs_zero fun k => (hlanes i k).1]
    simp only [coreGrid, harray]
    rfl

/-- An idle accelerator stays idle, or a START begins a job. -/
theorem idle_step (hN : N ≤ 84) {s : MatrixAccelTop N} (hclean : CleanPipeline s)
    (hp : phase s.fsm = Phase.idle) (A B : Fin N → Fin N → Word) (bus : AvsCycle) :
    DoesJob (s.step bus) (Job.idle.step A B bus.clrPeSig) := by
  have hphase := (fsm_step hN hclean.wellPhased bus).2.1
  rw [← fsm_step_eq, hp] at hphase
  cases hs : bus.clrPeSig with
  | false =>
    rw [hs] at hphase
    exact hphase
  | true =>
    rw [hs] at hphase
    exact summing_of_start hclean ((phase_eq_idle_iff s.fsm).mp hp).1 hs hphase

section Draining

variable {s : MatrixAccelTop N} {c : ℕ} {result : Fin N → Fin N → Word}

/-- A return is a drain at its count. -/
theorem Returning.drainingAt (h : Returning s c result) : DrainingAt s c :=
  (stateDrain_of_phase h.draining).2

/-- INTERNAL: The job after a draining edge.  A START leaves the count where it was going. -/
theorem Returning.step (hN : N ≤ 84) (h : Returning s c result) (hclean : CleanPipeline s)
    (A B : Fin N → Fin N → Word) (bus : AvsCycle) :
    DoesJob (s.step bus) ((Job.returning c result).step A B bus.clrPeSig) := by
  have hphase := (fsm_step hN hclean.wellPhased bus).2.1
  rw [← fsm_step_eq, h.draining] at hphase
  cases hs : bus.clrPeSig with
  | true =>
    rw [hs] at hphase
    exact summing_of_start hclean (stateDrain_of_phase h.draining).1 hs hphase
  | false =>
    simp only [Job.step, Bool.false_eq_true, if_false]
    by_cases hlast : c = 2 * N
    · rw [if_pos hlast]
      simp only [hs, Phase.step, hlast, Bool.false_eq_true, if_false, if_true] at hphase
      exact hphase
    · rw [if_neg hlast]
      simp only [hs, Phase.step, hlast, Bool.false_eq_true, if_false] at hphase
      refine ⟨hphase, fun i j hj => ?_⟩
      -- the word of column `j` moves one register along its row
      have hchain := rowChain_step h.drainingAt (s := s)
        (e := ⟨bus, s.core.skew.aOutFlat s.aColFeed, s.core.skew.bOutFlat s.bRowFeed⟩) hs i
      rw [← MatrixAccelTop.step_eq_stepEdges] at hchain
      rw [← h.columns i j (by omega), incoming, incoming, dif_pos (by omega),
        dif_pos (by omega), hchain, DelayLine.shift_apply,
        DelayLine.taps_of_pos _ _ _ (by simp only [Fin.val_castSucc]; omega)]
      rfl

/-- INTERNAL: A draining edge writes the column whose count it is, a START or not.
RTL: matrix_accel_top_systolic_array.v:131-135 -/
theorem Returning.memC_step (h : Returning s c result) (bus : AvsCycle) (i j : Fin N) :
    (s.step bus).memC (cell i j) =
      if c = 2 * (N - 1 - j.val) + 1 then result i j else s.memC (cell i j) := by
  have hj := j.isLt
  rw [MatrixAccelTop.step_eq_stepEdges]
  simp only [MatrixAccelTop.stepEdges]
  rw [foldl_update_eq_latest, latest, memCWrites_filter h.drainingAt]
  by_cases hc : c = 2 * (N - 1 - j.val) + 1
  · rw [if_pos hc, if_pos hc, ← h.columns i j (le_of_eq hc), cRightOut_eq_output, incoming,
      dif_pos (by omega), DelayLine.output,
      DelayLine.taps_of_pos _ _ _ (by simp only [Fin.val_last]; omega)]
    have hregister : ∀ hlt, (⟨(Fin.last (2 * N)).val - 1, hlt⟩ : Fin (2 * N)) =
        ⟨2 * j.val + c, by omega⟩ := fun _ => Fin.ext (by simp only [Fin.val_last]; omega)
    simp only [hregister, List.getLast?_singleton, Option.map_some, Option.getD_some]
  · rw [if_neg hc, if_neg hc]
    rfl

end Draining

/-! ## The two machines -/

/-- The registers of the accelerator stand for a state of the multiplier. -/
structure Represents (s : MatrixAccelTop N) (m : Multiplier N) : Prop where
  clean : CleanPipeline s
  A : ∀ i j, s.memA (cell i j) = m.A i j
  B : ∀ i j, s.memB (cell i j) = m.B i j
  C : ∀ i j, s.memC (cell i j) = m.C i j
  job : DoesJob s m.job
  started : s.fsm.ctrlStart = m.started
  done : s.fsm.ctrlDone = m.done
  shown : s.avsReaddata = m.shown

/-- Both machines out of reset. -/
theorem reset_represents (N : ℕ) : Represents (MatrixAccelTop.reset N) (Multiplier.reset N) where
  clean := reset_cleanPipeline N
  A _ _ := rfl
  B _ _ := rfl
  C _ _ := rfl
  job := rfl
  started := rfl
  done := rfl
  shown := rfl

/-- The last count of a job is that of the drain. -/
theorem DoesJob.last_eq {s : MatrixAccelTop N} {job : Job N} (h : DoesJob s job) :
    job.last = decide (phase s.fsm = Phase.draining (2 * N)) := by
  cases job with
  | idle =>
    have hp : phase s.fsm = Phase.idle := h
    simp [Job.last, hp]
  | summing c cleared fed =>
    have hp := Summing.calculating h
    simp [Job.last, hp]
  | returning c result =>
    have hp := Returning.draining h
    simp [Job.last, hp]

/-- **One edge of a job.**  One case for each job, and in each a START or none. -/
theorem DoesJob.step (hN : N ≤ 84) {s : MatrixAccelTop N} {job : Job N} (h : DoesJob s job)
    (hclean : CleanPipeline s) {A B : Fin N → Fin N → Word}
    (hA : ∀ i j, s.memA (cell i j) = A i j) (hB : ∀ i j, s.memB (cell i j) = B i j)
    (bus : AvsCycle) : DoesJob (s.step bus) (job.step A B bus.clrPeSig) := by
  cases job with
  | idle => exact idle_step hN hclean h A B bus
  | summing c cleared fed =>
    exact Summing.step hN h hclean (feed_eq_columnAndRow (Summing.calculating h) hA hB) bus
  | returning c result => exact Returning.step hN h hclean A B bus

/-- What one edge of a job does to the words of `mem_C`. -/
theorem DoesJob.memC_step {s : MatrixAccelTop N} {job : Job N} (h : DoesJob s job)
    (hclean : CleanPipeline s) {C : Fin N → Fin N → Word}
    (hC : ∀ i j, s.memC (cell i j) = C i j) (bus : AvsCycle) (i j : Fin N) :
    (s.step bus).memC (cell i j) = job.returned C i j := by
  cases job with
  | idle =>
    rw [memC_step_of_not_drain ((phase_eq_idle_iff s.fsm).mp h).2]
    exact hC i j
  | summing c cleared fed =>
    rw [memC_step_of_not_drain (hclean.wellPhased.stateDrain_of_calculating
      (Summing.calculating h))]
    exact hC i j
  | returning c result =>
    rw [Returning.memC_step h, hC]
    rfl

/-- INTERNAL: **One edge of both machines.** -/
theorem represents_step (hN : N ≤ 84) :
    Simulates MatrixAccelTop.step (Multiplier.step (N := N)) requestOf Represents := by
  intro s m bus h
  have hdone := (fsm_step hN h.clean.wellPhased bus).2.2
  have hstart := ctrlStart_step N s.fsm h.clean.wellPhased.exclusive bus
  refine ⟨h.clean.step hN bus, fun i j => ?_, fun i j => ?_,
    h.job.memC_step h.clean h.C bus, ?_, ?_, ?_, ?_⟩
  · refine (writeA_apply bus s.memA (cell i j)).trans ?_
    rw [h.A]
    exact (storedA_apply bus m.A i j).symm
  · refine (writeB_apply bus s.memB (cell i j)).trans ?_
    rw [h.B]
    exact (storedB_apply bus m.B i j).symm
  · simpa only [Multiplier.step, requestOf, isStart_commandOf] using
      h.job.step hN h.clean h.A h.B bus
  · rw [fsm_step_eq, hstart, h.started, ← h.job.last_eq]
    rfl
  · rw [fsm_step_eq, hdone, h.done, ← h.job.last_eq, ← isStart_commandOf (N := N) bus]
    rfl
  · refine (readdataNext_eq_answer s bus).trans ?_
    simp only [h.C, h.done, h.started, h.shown]
    rfl

/-- **The accelerator refines the multiplier.**  After any bus cycles from reset, with STARTs,
window writes and reads on any of them, the port, the two status bits and the three memories
are those of the multiplier after the requests that the cycles carry.
RTL: matrix_accel_top_systolic_array.v:49-177, systolic_array.v:10-57, pe_fp16.v:13-46,
skew_buffer.v:10-49 -/
theorem accelerator_refines_multiplier (N : ℕ) (hN : 1 ≤ N ∧ N ≤ 84) (cycles : List AvsCycle) :
    let s := run MatrixAccelTop.step (MatrixAccelTop.reset N) cycles
    let m := run Multiplier.step (Multiplier.reset N) (cycles.map requestOf)
    s.avsReaddata = m.shown ∧ s.fsm.ctrlDone = m.done ∧ s.fsm.ctrlStart = m.started ∧
      ∀ i j, s.memA (cell i j) = m.A i j ∧ s.memB (cell i j) = m.B i j ∧
        s.memC (cell i j) = m.C i j := by
  intro s m
  have h : Represents s m := (represents_step hN.2).along_run (reset_represents N) cycles
  exact ⟨h.shown, h.done, h.started, fun i j => ⟨h.A i j, h.B i j, h.C i j⟩⟩

/-- A whole run, and a read of the second word of C. -/
def pairSession : List AvsCycle := pairRun 14 ++ [Driver.iord32Direct Driver.accelMemC 4]

/-- After the run both machines show 0.75, which is `1.5 * -2.0 + 2.5 * 1.5`. -/
theorem accelerator_refines_multiplier_session :
    let s := run MatrixAccelTop.step (MatrixAccelTop.reset 2) pairSession
    let m := run Multiplier.step (Multiplier.reset 2) (pairSession.map requestOf)
    s.avsReaddata = m.shown ∧ m.shown = 0x00003A00#32 ∧ s.fsm.ctrlDone = m.done ∧ m.done = true ∧
      ∀ i j, s.memA (cell i j) = m.A i j ∧ s.memB (cell i j) = m.B i j ∧
        s.memC (cell i j) = m.C i j := by
  intro s m
  obtain ⟨hshown, hdone, -, hmem⟩ := accelerator_refines_multiplier 2 (by decide) pairSession
  exact ⟨hshown, by decide, hdone, by decide, hmem⟩

end MatrixAccelerator.Analysis
