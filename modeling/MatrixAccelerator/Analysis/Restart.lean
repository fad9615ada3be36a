import MatrixAccelerator.Analysis.DoneTruthful
import MatrixAccelerator.Analysis.RegisterMap

/-!
# A START on top of a run

The START branch resets the counter and the phase flags, but the branch of the running
phase assigns the counter after it and wins; the array is cleared, the skew lines are not.
A START that lands while the machine is draining at count `c` therefore restarts at index
`c + 1`; one that lands while it is calculating at count `c` restarts at index `c + 1`
behind skew lines that still hold operands of the run it aborts.  `survivingPairs` lists
what is accumulated then, for each element, from the registers before the START;
`start_fresh_iff` says that the START makes a fresh run exactly if these pairs accumulate
to the product.
-/

set_option autoImplicit false

namespace MatrixAccelerator.Analysis

open MatrixAccelerator.Library MatrixAccelerator.Model MatrixAccelerator.Interface

variable {N : ℕ}

/-- The pairs that the skew lines of row `i` and column `j` hold side by side before an
edge and still hold after it, the oldest first. -/
def shiftedLanePairs (s : MatrixAccelTop N) (i j : Fin N) : List (Word × Word) :=
  List.ofFn fun m : Fin (min i.val j.val - 1) =>
    (s.core.skew.delayA i ⟨min i.val j.val - 2 - m.val, by omega⟩,
      s.core.skew.delayB j ⟨min i.val j.val - 2 - m.val, by omega⟩)

/-- The operand pairs of element `(i, j)` that a START taken in state `s` leaves to be
accumulated.  From idle they are all pairs; in the first row and column nothing survives
of the columns already fed; elsewhere the column being fed and those still in both skew
lines do. -/
def survivingPairs (s : MatrixAccelTop N) (i j : Fin N) : List (Word × Word) :=
  match phase s.fsm with
  | Phase.idle => operands s.memA s.memB i j
  | Phase.draining c => (operands s.memA s.memB i j).drop (c + 1)
  | Phase.calculating c =>
    if i.val = 0 ∨ j.val = 0 then (operands s.memA s.memB i j).drop (c + 1)
    else shiftedLanePairs s i j ++ (operands s.memA s.memB i j).drop c

/-- The machine becomes idle, and when it first does `ctrl_done` is set and `mem_C` holds
`result`. -/
def CompletesWith (s : MatrixAccelTop N) (traffic : ℕ → AvsCycle)
    (result : Fin N → Fin N → Word) : Prop :=
  ∃ n, phase (topTrace s traffic n).fsm = Phase.idle ∧
    (∀ t < n, phase (topTrace s traffic t).fsm ≠ Phase.idle) ∧
    (topTrace s traffic n).fsm.ctrlDone = true ∧
    ∀ i j, (topTrace s traffic n).memC (cell i j) = result i j

/-- The START `e0` taken in `s` makes a fresh run: under any cycles after it without a
START and without a window write, the machine completes with the product of the operands held
at the START. -/
def FreshRun (s : MatrixAccelTop N) (e0 : AvsCycle) : Prop :=
  ∀ traffic : ℕ → AvsCycle, (∀ t, (traffic t).clrPeSig = false) →
    (∀ t, ¬ WindowWrite N (traffic t)) →
    CompletesWith (s.step e0) traffic (productEntry s.memA s.memB)

/-- Equal results are the same completion. -/
theorem CompletesWith.congr {s : MatrixAccelTop N} {traffic : ℕ → AvsCycle}
    {result result' : Fin N → Fin N → Word} (h : CompletesWith s traffic result)
    (heq : ∀ i j, result i j = result' i j) : CompletesWith s traffic result' := by
  obtain ⟨n, hidle, hbefore, hdone, hmem⟩ := h
  exact ⟨n, hidle, hbefore, hdone, fun i j => (hmem i j).trans (heq i j)⟩

/-- A run completes with one result. -/
theorem CompletesWith.unique {s : MatrixAccelTop N} {traffic : ℕ → AvsCycle}
    {result result' : Fin N → Fin N → Word} (h : CompletesWith s traffic result)
    (h' : CompletesWith s traffic result') : result = result' := by
  obtain ⟨n, hn, hbefore, -, hmem⟩ := h
  obtain ⟨n', hn', hbefore', -, hmem'⟩ := h'
  have hfirst : n = n' := by
    rcases Nat.lt_trichotomy n n' with hlt | heq | hgt
    · exact absurd hn (hbefore' n hlt)
    · exact heq
    · exact absurd hn' (hbefore n' hgt)
  subst hfirst
  funext i j
  rw [← hmem i j, hmem' i j]

/-- INTERNAL: The lane pairs after a calculating edge: those that moved along, then the
pair just fed. -/
theorem lanePairs_step (s : MatrixAccelTop N) (hcalc : s.fsm.stateCalc = true)
    (bus : AvsCycle) (i j : Fin N) (hi : i.val ≠ 0) (hj : j.val ≠ 0) :
    (coreGrid (s.step bus).core).lanePairs i j =
      shiftedLanePairs s i j ++ [(s.aColFeed i, s.bRowFeed j)] := by
  have hlen : ((coreGrid (s.step bus).core).lanePairs i j).length = min i.val j.val := by
    rw [Grid.lanePairs, List.length_ofFn]
  apply List.ext_getElem
  · rw [hlen, List.length_append, shiftedLanePairs, List.length_ofFn, List.length_singleton]
    omega
  · intro m hm hm'
    rw [hlen] at hm
    simp only [Grid.lanePairs, List.getElem_ofFn, coreGrid, skew_step_of_calc hcalc,
      DelayLine.shift_apply]
    by_cases hlast : m < min i.val j.val - 1
    · rw [List.getElem_append_left (by simpa [shiftedLanePairs] using hlast),
        DelayLine.taps_of_pos _ _ _ (by simp only [Fin.castSucc_mk]; omega),
        DelayLine.taps_of_pos _ _ _ (by simp only [Fin.castSucc_mk]; omega)]
      simp only [shiftedLanePairs, List.getElem_ofFn, Fin.castSucc_mk]
      congr 3 <;> omega
    · rw [List.getElem_append_right (by simp only [shiftedLanePairs, List.length_ofFn]; omega)]
      have hza : (⟨min i.val j.val - 1 - m, by omega⟩ : Fin i.val).castSucc = 0 :=
        Fin.ext (by simp only [Fin.castSucc_mk, Fin.val_zero]; omega)
      have hzb : (⟨min i.val j.val - 1 - m, by omega⟩ : Fin j.val).castSucc = 0 :=
        Fin.ext (by simp only [Fin.castSucc_mk, Fin.val_zero]; omega)
      simp only [hza, hzb, DelayLine.taps_zero, List.getElem_singleton]

/-- The pair that is fed now and the operands after it are the operands from now on. -/
theorem macFold_feed_operands {s : MatrixAccelTop N} {c : ℕ}
    (hp : phase s.fsm = Phase.calculating c) (acc : Word) (i j : Fin N) :
    macFold acc ((s.aColFeed i, s.bRowFeed j) :: (operands s.memA s.memB i j).drop (c + 1)) =
      macFold acc ((operands s.memA s.memB i j).drop c) := by
  have hlen : (operands s.memA s.memB i j).length = N := by simp [operands]
  by_cases hc : c < N
  · have hlt : c < (operands s.memA s.memB i j).length := hlen.symm ▸ hc
    rw [List.drop_eq_getElem_cons hlt]
    congr 2
    have hfeed := fun g => feed_of_calc (k := ⟨c, hc⟩) hp g
    simp only [hfeed, operands, List.getElem_map, List.getElem_finRange]
    rfl
  · have hz := feed_of_ge (s := s) (by rw [(stateCalc_of_phase hp).2]; omega) i
    rw [List.drop_eq_nil_of_le (by omega), List.drop_eq_nil_of_le (by omega), hz.1]
    exact macFold_zero_pairs (fun p hp' => Or.inl (by rw [List.mem_singleton.mp hp'])) acc

/-- A run that a START leaves at count `c` takes what the skew lines still hold, and then the
operands from index `c` on. -/
theorem calculation_restart (hN : N ≤ 84) {s : MatrixAccelTop N} (h : CleanPipeline s)
    {e0 : AvsCycle} (he0 : e0.clrPeSig = true) {c : ℕ}
    (hp : phase (s.step e0).fsm = Phase.calculating c) {traffic : ℕ → AvsCycle}
    (hq : ∀ t, (traffic t).clrPeSig = false) (hw : ∀ t, ¬ WindowWrite N (traffic t)) :
    CompletesWith (s.step e0) traffic fun i j =>
      macFold 0#16 ((coreGrid (s.step e0).core).lanePairs i j ++
        (operands s.memA s.memB i j).drop c) := by
  have hclean := h.step hN e0
  have hquiet : NoStart traffic (5 * N + 4 - c) := fun t _ => hq t
  obtain ⟨hend, hdone, hbefore, hmem⟩ := run_completes hN hclean.wellPhased hp hquiet
  have hmemA : ∀ u, (topTrace (s.step e0) traffic u).memA = s.memA := fun u =>
    (operands_trace_const _ fun t _ => hw t).1.trans
      (write_of_not_window (not_windowWrite_of_start he0) _).1
  have hmemB : ∀ u, (topTrace (s.step e0) traffic u).memB = s.memB := fun u =>
    (operands_trace_const _ fun t _ => hw t).2.trans
      (write_of_not_window (not_windowWrite_of_start he0) _).2
  refine ⟨_, hend, fun t ht => (hbefore t ht).1, hdone, fun i j => ?_⟩
  rw [hmem, acc_after_calculation hN hclean hp (array_step_of_start s he0) (fun t _ => hq t)]
  simp only [hmemA, hmemB, operandsFrom_const]

/-- INTERNAL: A restart into the calculation from another phase, behind empty skew lines. -/
theorem calculation_restart_of_empty (hN : N ≤ 84) {s : MatrixAccelTop N} (h : CleanPipeline s)
    (hcalc : s.fsm.stateCalc = false) {e0 : AvsCycle} (he0 : e0.clrPeSig = true) {c : ℕ}
    (hp : phase (s.step e0).fsm = Phase.calculating c) {traffic : ℕ → AvsCycle}
    (hq : ∀ t, (traffic t).clrPeSig = false) (hw : ∀ t, ¬ WindowWrite N (traffic t)) :
    CompletesWith (s.step e0) traffic fun i j =>
      macFold 0#16 ((operands s.memA s.memB i j).drop c) := by
  apply (calculation_restart hN h he0 hp hq hw).congr
  intro i j
  rw [macFold_append, macFold_lanePairs_zero fun k => (h.lanes_hold hcalc e0 i k).1]

/-- INTERNAL: A restart within the calculation: in the first row and column no skew line
pairs up, elsewhere the pair on the feeder joins those in the lines. -/
theorem macFold_lanePairs_restart {s : MatrixAccelTop N} {c : ℕ}
    (hp : phase s.fsm = Phase.calculating c) (e0 : AvsCycle) (i j : Fin N) :
    macFold 0#16 ((coreGrid (s.step e0).core).lanePairs i j ++
        (operands s.memA s.memB i j).drop (c + 1)) = macFold 0#16 (survivingPairs s i j) := by
  have hcalc := (stateCalc_of_phase hp).1
  simp only [survivingPairs, hp]
  by_cases hedge : i.val = 0 ∨ j.val = 0
  · have hnil : (coreGrid (s.step e0).core).lanePairs i j = [] := by
      apply List.eq_nil_of_length_eq_zero
      rw [Grid.lanePairs, List.length_ofFn]
      omega
    rw [if_pos hedge, hnil, List.nil_append]
  · rw [if_neg hedge, lanePairs_step s hcalc e0 i j (fun hz => hedge (Or.inl hz))
        (fun hz => hedge (Or.inr hz)), List.append_assoc, List.singleton_append,
      macFold_append, macFold_append, macFold_feed_operands hp]

/-- INTERNAL: At the last count of the calculation nothing is left in the skew lines, so
nothing survives a START. -/
theorem macFold_survivors_last_count {s : MatrixAccelTop N} (h : CleanPipeline s)
    (hp : phase s.fsm = Phase.calculating (3 * N + 2)) (i j : Fin N) :
    macFold 0#16 (survivingPairs s i j) = 0#16 := by
  have hi := i.isLt
  have hlen : (operands s.memA s.memB i j).length = N := by simp [operands]
  have hdrop : ∀ d, N ≤ d → (operands s.memA s.memB i j).drop d = [] := fun d hd =>
    List.drop_eq_nil_of_le (hlen.symm ▸ hd)
  simp only [survivingPairs, hp, hdrop (3 * N + 2) (by omega), hdrop (3 * N + 2 + 1) (by omega),
    List.append_nil]
  split
  · rfl
  · apply macFold_zero_pairs
    intro p hmem
    obtain ⟨m, rfl⟩ := (List.mem_ofFn' _ _).mp hmem
    exact Or.inl (h.delayA i _ (by rw [hp]; simp only [LaneLive]; omega))

/-- INTERNAL: On the last count of the calculation the phase branch wins: the drain starts
over an array the START has cleared. -/
theorem last_count_restart (hN : N ≤ 84) {s : MatrixAccelTop N} (h : CleanPipeline s)
    {e0 : AvsCycle} (he0 : e0.clrPeSig = true)
    (hp : phase s.fsm = Phase.calculating (3 * N + 2)) {traffic : ℕ → AvsCycle}
    (hq : ∀ t, (traffic t).clrPeSig = false) :
    CompletesWith (s.step e0) traffic fun i j => macFold 0#16 (survivingPairs s i j) := by
  have hdrain : phase (s.step e0).fsm = Phase.draining 0 := by
    rw [fsm_step_eq, (fsm_step hN h.wellPhased e0).2.1, hp]
    simp [Phase.step]
  have hwell := (h.step hN e0).wellPhased
  obtain ⟨hend, hdone, hmem⟩ := drain_completes hN hwell hdrain fun t _ => hq t
  refine ⟨2 * N + 1, hend, fun t ht => ?_, hdone, fun i j => ?_⟩
  · rw [phase_draining_trace hN hwell hdrain (by omega) fun u _ => hq u]
    exact fun hd => by cases hd
  · rw [hmem, array_step_of_start s he0]
    exact (macFold_survivors_last_count h hp i j).symm

/-- **What a START computes, whenever it lands.**  With no START and no window write after
it, the machine becomes idle with `ctrl_done` set, and every element of `mem_C` is the
accumulation of the pairs the START left. -/
theorem restart_completes (hN : N ≤ 84) {s : MatrixAccelTop N} (h : CleanPipeline s)
    {e0 : AvsCycle} (he0 : e0.clrPeSig = true) {traffic : ℕ → AvsCycle}
    (hq : ∀ t, (traffic t).clrPeSig = false) (hw : ∀ t, ¬ WindowWrite N (traffic t)) :
    CompletesWith (s.step e0) traffic fun i j => macFold 0#16 (survivingPairs s i j) := by
  have hphase := (fsm_step hN h.wellPhased e0).2.1
  rw [he0, ← fsm_step_eq] at hphase
  cases hp : phase s.fsm with
  | idle =>
    rw [hp] at hphase
    have hcalc := ((phase_eq_idle_iff s.fsm).mp hp).1
    simpa only [survivingPairs, hp, List.drop_zero] using
      calculation_restart_of_empty hN h hcalc he0 hphase hq hw
  | draining c =>
    rw [hp] at hphase
    have hcalc := (stateDrain_of_phase hp).1
    simpa only [survivingPairs, hp] using
      calculation_restart_of_empty hN h hcalc he0 hphase hq hw
  | calculating c =>
    by_cases hc : c = 3 * N + 2
    · subst hc
      exact last_count_restart hN h he0 hp hq
    · have hnext : phase (s.step e0).fsm = Phase.calculating (c + 1) := by
        rw [hphase, hp]
        simp only [Phase.step, hc, if_false]
      apply (calculation_restart hN h he0 hnext hq hw).congr
      exact macFold_lanePairs_restart hp e0

/-- If the run is fresh, what survives the START is the whole product. -/
theorem FreshRun.survivors (hN : N ≤ 84) {s : MatrixAccelTop N} (h : CleanPipeline s)
    {e0 : AvsCycle} (he0 : e0.clrPeSig = true) (hfresh : FreshRun s e0) (i j : Fin N) :
    macFold 0#16 (survivingPairs s i j) = productEntry s.memA s.memB i j := by
  have hidle : ∀ t : ℕ, ((fun _ => default : ℕ → AvsCycle) t).clrPeSig = false := fun _ => rfl
  have hno : ∀ t : ℕ, ¬ WindowWrite N ((fun _ => default : ℕ → AvsCycle) t) := by
    rintro t ⟨hw, -⟩
    cases hw
  have hproduct : CompletesWith (s.step e0) (fun _ => default) (productEntry s.memA s.memB) :=
    hfresh _ hidle hno
  exact congrFun (congrFun ((restart_completes hN h he0 hidle hno).unique hproduct) i) j

/-- **When a START makes a fresh run.**  In any state the design can be driven to, a START
makes a fresh run if and only if, for every element of the result, the operand pairs that
survive it accumulate to the product of the operands held.
RTL: matrix_accel_top_systolic_array.v:49-53, 94-145, skew_buffer.v:19-27 -/
theorem start_fresh_iff (N : ℕ) (hN : 1 ≤ N ∧ N ≤ 32) (s : MatrixAccelTop N)
    (hs : ReachableTop N s) (e0 : AvsCycle) (he0 : e0.clrPeSig = true) :
    FreshRun s e0 ↔
      ∀ i j, macFold 0#16 (survivingPairs s i j) = productEntry s.memA s.memB i j := by
  have hN84 : N ≤ 84 := by omega
  have hclean := cleanPipeline_of_reachable hN84 hs
  constructor
  · exact fun hfresh i j => hfresh.survivors hN84 hclean he0 i j
  · intro hsurv traffic hq hw
    exact (restart_completes hN84 hclean he0 hq hw).congr hsurv

/-- At count 4 of a calculation that a START has interrupted before, a START is not fresh; after
the end of that run it is. -/
theorem start_fresh_iff_restarted :
    ¬ FreshRun (restartedTop 0) Driver.startWrite ∧ FreshRun (restartedTop 10) Driver.startWrite :=
  ⟨fun hfresh => absurd ((start_fresh_iff 2 (by decide) (restartedTop 0) ⟨_, rfl⟩
      Driver.startWrite (by decide)).mp hfresh) (by decide),
    (start_fresh_iff 2 (by decide) (restartedTop 10) ⟨_, rfl⟩ Driver.startWrite (by decide)).mpr
      (by decide)⟩

/-- A START in idle is always fresh: all pairs survive it. -/
theorem survivingPairs_idle {s : MatrixAccelTop N} (hp : phase s.fsm = Phase.idle)
    (i j : Fin N) : survivingPairs s i j = operands s.memA s.memB i j := by
  simp only [survivingPairs, hp]

/-- One word of A and B set to 1.0 and a START, for `N = 1`. -/
def heldStartRun : List AvsCycle :=
  [Driver.iowr32Direct Driver.accelMemA 0 0x3C00#32,
    Driver.iowr32Direct Driver.accelMemB 0 0x3C00#32, Driver.startWrite]

/-- A START held for a second cycle computes zero in place of `1.0 * 1.0`. -/
theorem held_start_not_fresh :
    ReachableTop 1 (run MatrixAccelTop.step (MatrixAccelTop.reset 1) heldStartRun) ∧
      ¬ FreshRun (run MatrixAccelTop.step (MatrixAccelTop.reset 1) heldStartRun)
        Driver.startWrite := by
  refine ⟨⟨heldStartRun, rfl⟩, fun hfresh => ?_⟩
  have hclean : CleanPipeline (run MatrixAccelTop.step (MatrixAccelTop.reset 1) heldStartRun) :=
    cleanPipeline_of_reachable (by decide) ⟨heldStartRun, rfl⟩
  have hsurv := hfresh.survivors (by decide) hclean (by decide) 0 0
  exact absurd hsurv (by decide)

end MatrixAccelerator.Analysis
