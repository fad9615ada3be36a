import MatrixAccelerator.Analysis.RunPhases

/-!
# What a START computes

A START clears the array, so a run that begins or restarts at count `c` accumulates what
the skew lines still hold and then the columns from `c` on (`acc_after_calculation`).
From idle the lines are empty and `c` is `0`: the run computes the product of the operands
as they are fed, under any bus traffic without a START.
-/

set_option autoImplicit false

namespace MatrixAccelerator.Analysis

open MatrixAccelerator.Library MatrixAccelerator.Model MatrixAccelerator.Interface

variable {N : ℕ}

/-- A cleared array forwards zeros. -/
theorem forwardClear_of_reset {core : SystolicCore N} (h : core.array = SystolicArray.reset) :
    (coreGrid core).ForwardClear 0#16 0#16 where
  right i j := by simp only [coreGrid, h]; rfl
  down i j := by simp only [coreGrid, h]; rfl

/-- What is fed at a count: the operands of its index, and zeros past the last. -/
theorem feedStream_calculating (hN : N ≤ 84) {s : MatrixAccelTop N} (h : WellPhased N s.fsm)
    {c : ℕ} (hp : phase s.fsm = Phase.calculating c) {traffic : ℕ → AvsCycle} {u : ℕ}
    (hq : NoStart traffic u) (i j : Fin N) :
    (∀ hu : c + u < N, ((feedStream s traffic u).1 i, (feedStream s traffic u).2 j) =
      ((topTrace s traffic u).memA (cell i ⟨c + u, hu⟩),
        (topTrace s traffic u).memB (cell ⟨c + u, hu⟩ j))) ∧
      (N ≤ c + u → c + u ≤ 3 * N + 2 → (feedStream s traffic u).1 i = 0#16) := by
  constructor
  · intro hu
    have hphase := phase_calculating_trace hN h hp (by omega) hq
    have hfeed := fun g => feed_of_calc (k := ⟨c + u, hu⟩) hphase g
    simp only [feedStream, hfeed]
  · intro hge hle
    have hphase := phase_calculating_trace hN h hp hle hq
    exact (feed_of_ge (by rw [(stateCalc_of_phase hphase).2]; exact hge) i).1

/-- **A calculation from count `c` over a cleared array.**  Each accumulator folds the
pairs its two skew lines hold, then the operands from index `c` on. -/
theorem acc_after_calculation (hN : N ≤ 84) {s : MatrixAccelTop N} (h : CleanPipeline s)
    {c : ℕ} (hp : phase s.fsm = Phase.calculating c)
    (harray : s.core.array = SystolicArray.reset) {traffic : ℕ → AvsCycle}
    (hq : NoStart traffic (3 * N + 3 - c)) (i j : Fin N) :
    (trace (Grid.step fp16Mac) (coreGrid s.core) (feedStream s traffic) (3 * N + 3 - c)).acc i j =
      macFold 0#16 ((coreGrid s.core).lanePairs i j ++
        operandsFrom c (fun u => (topTrace s traffic u).memA)
          (fun u => (topTrace s traffic u).memB) i j) := by
  have hi := i.isLt
  have hj := j.isLt
  have hc := h.wellPhased.calculating_le hp
  have hclear := forwardClear_of_reset harray
  have hacc : (coreGrid s.core).acc i j = 0#16 := by simp only [coreGrid, harray]; rfl
  have hfeed := fun u (hu : u ≤ 3 * N + 3 - c) =>
    feedStream_calculating hN h.wellPhased hp (hq.mono hu) i j
  -- the pairs that have not arrived by the end of the calculation are zero
  have hlate : ∀ s' , 3 * N + 3 - c ≤ s' → s' < i.val + j.val + (N - c) →
      (Grid.arrived (coreGrid s.core) (feedStream s traffic) i j s').1 = 0#16 ∨
        (Grid.arrived (coreGrid s.core) (feedStream s traffic) i j s').2 = 0#16 := by
    intro s' hge hlt
    by_cases hs : s' < i.val + j.val
    · rcases Grid.arrived_of_lt (feedStream s traffic) hclear hs with hz | ⟨m, ha, hb, hm, hpair⟩
      · exact hz
      · left
        rw [hpair]
        exact h.delayA i ⟨m, ha⟩ (by rw [hp]; simp only [LaneLive]; omega)
    · omega
  -- and so are those that arrive after index `N - 1`
  have hpast : ∀ s', i.val + j.val + (N - c) ≤ s' → s' < 3 * N + 3 - c →
      (Grid.arrived (coreGrid s.core) (feedStream s traffic) i j s').1 = 0#16 ∨
        (Grid.arrived (coreGrid s.core) (feedStream s traffic) i j s').2 = 0#16 := by
    intro s' hge hlt
    obtain ⟨u, rfl⟩ := Nat.exists_eq_add_of_le (le_trans (Nat.le_add_right _ _) hge)
    rw [Grid.arrived_add]
    exact Or.inl ((hfeed u (by omega)).2 (by omega) (by omega))
  have hwhole := Grid.acc_trace_of_forward_clear (feedStream s traffic) i j fp16Mac_neutral
    hclear (N - c)
  rw [hacc, operandsFrom_eq_range c _ _ i j _ fun u hu => (hfeed u (by omega)).1 hu] at hwhole
  rw [macFold_eq_accumulate, ← hwhole, Grid.acc_trace, Grid.acc_trace]
  rcases Nat.le_total (3 * N + 3 - c) (i.val + j.val + (N - c)) with hle | hle
  · exact (fp16Mac_neutral.accumulate_range_le _ hle hlate _).symm
  · exact fp16Mac_neutral.accumulate_range_le _ hle hpast _

/-- Pairs with a zero leave the accumulator as it is. -/
theorem macFold_zero_pairs {ps : List (Word × Word)} (h : ∀ p ∈ ps, p.1 = 0#16 ∨ p.2 = 0#16)
    (acc : Word) : macFold acc ps = acc := fp16Mac_neutral.accumulate_eq h acc

/-- Empty skew lines bring nothing that counts. -/
theorem macFold_lanePairs_zero {core : SystolicCore N} {i j : Fin N}
    (h : ∀ k, core.skew.delayA i k = 0#16) (acc : Word) :
    macFold acc ((coreGrid core).lanePairs i j) = acc := by
  apply macFold_zero_pairs
  intro p hp
  obtain ⟨m, rfl⟩ := (List.mem_ofFn' _ _).mp hp
  exact Or.inl (h _)

/-- A START while idle begins a calculation at count zero. -/
theorem start_of_idle (hN : N ≤ 84) {s : MatrixAccelTop N} (h : CleanPipeline s)
    (hp : phase s.fsm = Phase.idle) {e0 : AvsCycle} (he0 : e0.clrPeSig = true) :
    phase (s.step e0).fsm = Phase.calculating 0 ∧ (s.step e0).fsm.ctrlDone = false := by
  obtain ⟨-, hphase, hdone⟩ := fsm_step hN h.wellPhased e0
  rw [fsm_step_eq, hphase, hdone, hp, he0]
  exact ⟨rfl, rfl⟩

/-- From idle on the calculation folds the operands as they are fed. -/
theorem macFold_of_idle_start (hN : N ≤ 84) {s : MatrixAccelTop N} (h : CleanPipeline s)
    (hp : phase s.fsm = Phase.idle) {e0 : AvsCycle} (he0 : e0.clrPeSig = true)
    {traffic : ℕ → AvsCycle} (hq : NoStart traffic (3 * N + 3)) (i j : Fin N) :
    (trace (Grid.step fp16Mac) (coreGrid (s.step e0).core) (feedStream (s.step e0) traffic)
        (3 * N + 3)).acc i j =
      macFold 0#16 (operandsAt (fun k => (topTrace (s.step e0) traffic k).memA)
        (fun k => (topTrace (s.step e0) traffic k).memB) i j) := by
  have hcalc := ((phase_eq_idle_iff s.fsm).mp hp).1
  have hacc := acc_after_calculation hN (h.step hN e0) (start_of_idle hN h hp he0).1
    (array_step_of_start s he0) hq i j
  rw [Nat.sub_zero] at hacc
  rw [hacc, macFold_append, operandsFrom_zero,
    macFold_lanePairs_zero fun k => (h.lanes_hold hcalc e0 i k).1]

/-- A read of the C window shows the word of `mem_C`. -/
theorem read_cWindow (s : MatrixAccelTop N) {bus : AvsCycle} {k : Fin (N * N)}
    (hr : bus.read = true) (ha : bus.address.toNat = 0xC00 + k.val) :
    (s.step bus).avsReaddata = 0#16 ++ s.memC k := readdataNext_cWindow s hr ha

/-- **Whole-run correctness under concurrent bus traffic.**  A START taken in any idle
state the design can be driven to leads, without a further START, to `ctrl_done` exactly
`5 * N + 4` edges later; `mem_C` then holds the product of the operand words as they stood
in the cycles they were fed, and every read of the C window returns it until the next
START.
RTL: matrix_accel_top_systolic_array.v:49-177, systolic_array.v:10-57, pe_fp16.v:13-46,
skew_buffer.v:10-49 -/
theorem start_run_correct (N : ℕ) (hN : 1 ≤ N ∧ N ≤ 32) (s : MatrixAccelTop N)
    (hs : ReachableTop N s) (hcalc : s.fsm.stateCalc = false)
    (hdrain : s.fsm.stateDrain = false) (e0 : AvsCycle) (he0 : e0.clrPeSig = true)
    (traffic : ℕ → AvsCycle) (hq : ∀ t < 5 * N + 4, (traffic t).clrPeSig = false) :
    let after := trace MatrixAccelTop.step (s.step e0) traffic
    let result := fun i j : Fin N =>
      macFold 0#16 (operandsAt (fun k => (after k).memA) (fun k => (after k).memB) i j)
    (∀ t ≤ 5 * N + 3, (after t).fsm.ctrlDone = false) ∧
      (after (5 * N + 4)).fsm.ctrlDone = true ∧
      (after (5 * N + 4)).fsm.stateCalc = false ∧
      (after (5 * N + 4)).fsm.stateDrain = false ∧
      (∀ i j, (after (5 * N + 4)).memC (cell i j) = result i j) ∧
      ∀ t, 5 * N + 4 ≤ t → (∀ u, 5 * N + 4 ≤ u → u < t → (traffic u).clrPeSig = false) →
        ∀ i j : Fin N, (traffic t).read = true →
          (traffic t).address.toNat = 0xC00 + (i.val * N + j.val) →
          (after (t + 1)).avsReaddata = 0#16 ++ result i j := by
  intro after result
  have hN84 : N ≤ 84 := by omega
  have hclean := cleanPipeline_of_reachable hN84 hs
  have hidle : phase s.fsm = Phase.idle := (phase_eq_idle_iff s.fsm).mpr ⟨hcalc, hdrain⟩
  obtain ⟨hstart, hcleared⟩ := start_of_idle hN84 hclean hidle he0
  have hwell := (hclean.step hN84 e0).wellPhased
  obtain ⟨hend, hdone, hbefore, hmem⟩ := run_completes (c := 0) hN84 hwell hstart hq
  simp only [Nat.sub_zero] at hend hdone hbefore hmem
  have hresult : ∀ i j, (after (5 * N + 4)).memC (cell i j) = result i j := fun i j =>
    (hmem i j).trans (macFold_of_idle_start hN84 hclean hidle he0
      (NoStart.mono hq (by omega)) i j)
  obtain ⟨hcalc', hdrain'⟩ := (phase_eq_idle_iff _).mp hend
  refine ⟨fun t ht => ?_, hdone, hcalc', hdrain', hresult, ?_⟩
  · exact (hbefore t (by omega)).2.trans hcleared
  · intro t ht hlater i j hr ha
    obtain ⟨d, rfl⟩ := Nat.exists_eq_add_of_le ht
    have hquiet : NoStart (fun u => traffic (5 * N + 4 + u)) d :=
      fun u hu => hlater (5 * N + 4 + u) (by omega) (by omega)
    have hhold :=
      (idle_holds hN84 (wellPhased_trace hN84 hwell traffic (5 * N + 4)) hend hquiet).2.2
    have hat : (after (5 * N + 4 + d)).memC = (after (5 * N + 4)).memC := by
      rw [← hhold]
      exact congrArg MatrixAccelTop.memC (trace_add _ _ _ _ _)
    rw [← hresult i j, ← hat]
    exact read_cWindow (after (5 * N + 4 + d)) (k := cell i j) hr ha

/-- The two matrices multiplied once. -/
def workedTop : MatrixAccelTop 2 :=
  run MatrixAccelTop.step (MatrixAccelTop.reset 2) (pairRun 14)

/-- Traffic over a run: 4.0 into the second word of A before it is fed, 4.0 into the first one
after it was, and reads of the second word of C. -/
def meddling : ℕ → AvsCycle
  | 0 => Driver.iowr32Direct Driver.accelMemA 4 0x4400#32
  | 1 => Driver.iowr32Direct Driver.accelMemA 0 0x4400#32
  | _ => Driver.iord32Direct Driver.accelMemC 4

/-- A second run, written over while it is fed: `1.5 * -2.0 + 4.0 * 1.5`. -/
theorem start_run_correct_meddled :
    (∀ t ≤ 13, (trace MatrixAccelTop.step (workedTop.step Driver.startWrite) meddling
        t).fsm.ctrlDone = false) ∧
      (trace MatrixAccelTop.step (workedTop.step Driver.startWrite) meddling 14).fsm.ctrlDone =
        true ∧
      (trace MatrixAccelTop.step (workedTop.step Driver.startWrite) meddling 14).memC (cell 0 1) =
        0x4200#16 ∧
      (trace MatrixAccelTop.step (workedTop.step Driver.startWrite) meddling 20).avsReaddata =
        0x00004200#32 := by
  have hquiet : ∀ t, (meddling t).clrPeSig = false
    | 0 => by decide
    | 1 => by decide
    | _ + 2 => rfl
  have hresult : macFold 0#16 (operandsAt
      (fun k => (trace MatrixAccelTop.step (workedTop.step Driver.startWrite) meddling k).memA)
      (fun k => (trace MatrixAccelTop.step (workedTop.step Driver.startWrite) meddling k).memB)
      0 1) = 0x4200#16 := by decide
  obtain ⟨hbusy, hdone, -, -, hmem, hread⟩ := start_run_correct 2 (by decide) workedTop ⟨_, rfl⟩
    (by decide) (by decide) Driver.startWrite (by decide) meddling fun t _ => hquiet t
  refine ⟨hbusy, hdone, (hmem 0 1).trans hresult, ?_⟩
  have hword := hread 19 (by decide) (fun u _ _ => hquiet u) 0 1 rfl (by decide)
  exact hword.trans (congrArg (0#16 ++ ·) hresult)

end MatrixAccelerator.Analysis
