import MatrixAccelerator.Analysis.DriverRun

/-!
# The driver's software reset

The driver clears C by writing zeros to its window, but the window is not decoded for
writes: `mem_C` is assigned by the drain alone.  So the reset leaves every result where it
is, and a run in flight still delivers its own.  `pendingWrite` says what such a run has
yet to do to an element, from the registers before the reset; `mem_C` at any later time is
then known (`memC_pending`), and with it exactly when the reset clears (`reset_clears_iff`).
-/

set_option autoImplicit false

namespace MatrixAccelerator.Analysis

open MatrixAccelerator.Library MatrixAccelerator.Model MatrixAccelerator.Model.Driver
  MatrixAccelerator.Interface

variable {N : ℕ}

/-! ## What a run in flight has yet to write -/

/-- The accumulator of element `(i, j)` at the end of a calculation now at count `c`: the
pairs on their way to its cell, in the array, in the skew lines and in the memories, folded
onto what it holds. -/
def accumulatorToCome (s : MatrixAccelTop N) (c : ℕ) (i j : Fin N) : Word :=
  macFold (s.core.array i j).cReg
    ((List.range (3 * N + 3 - c)).map
      (Grid.arrived (coreGrid s.core) (fun u => feedOf s.memA s.memB (c + u)) i j))

/-- The assignment of element `(i, j)` of `mem_C` that the run in flight has yet to make:
the edge, counted from `s`, and the word. -/
def pendingWrite (s : MatrixAccelTop N) (i j : Fin N) : Option (ℕ × Word) :=
  match phase s.fsm with
  | Phase.idle => none
  | Phase.calculating c =>
    some (3 * N + 3 - c + (2 * (N - 1 - j.val) + 1), accumulatorToCome s c i j)
  | Phase.draining c =>
    if c ≤ 2 * (N - 1 - j.val) + 1 then
      some (2 * (N - 1 - j.val) + 1 - c, incoming s.core i j c)
    else none

/-- A word that holds `old`, `t` edges later, with the assignment `next` still to come. -/
def wordAfter (old : Word) (next : Option (ℕ × Word)) (t : ℕ) : Word :=
  match next with
  | none => old
  | some (e, w) => if e < t then w else old

/-- If the windows are left alone, the feeder goes on showing the matrices as they are now. -/
theorem feedStream_held (hN : N ≤ 84) {s : MatrixAccelTop N} (h : WellPhased N s.fsm) {c : ℕ}
    (hp : phase s.fsm = Phase.calculating c) {traffic : ℕ → AvsCycle} {u : ℕ}
    (hu : c + u ≤ 3 * N + 2) (hq : NoStart traffic u)
    (hw : ∀ v < N, ¬ WindowWrite N (traffic v)) :
    feedStream s traffic u = feedOf s.memA s.memB (c + u) := by
  obtain ⟨hcalc, hcnt⟩ := stateCalc_of_phase (phase_calculating_trace hN h hp hu hq)
  have hfeed := feed_eq_feedOf hcalc
  rw [hcnt] at hfeed
  by_cases hlt : c + u < N
  · obtain ⟨hA, hB⟩ := operands_trace_const s (t := u) fun v hv => hw v (by omega)
    rwa [hA, hB] at hfeed
  · -- past the last index the feeder shows zeros, whatever is written meanwhile
    have hzero := fun A B : Fin (N * N) → Word => columnAndRow_past (fun i k => A (cell i k))
      (fun k j => B (cell k j)) (Nat.le_of_not_lt hlt)
    rw [feedStream, hfeed]
    exact Prod.ext (funext fun k => ((hzero _ _ k).1).trans (hzero _ _ k).1.symm)
      (funext fun k => ((hzero _ _ k).2).trans (hzero _ _ k).2.symm)

/-- INTERNAL: The accumulators at the end of the calculation. -/
theorem cReg_calculating_end (hN : N ≤ 84) {s : MatrixAccelTop N} (h : WellPhased N s.fsm)
    {c : ℕ} (hp : phase s.fsm = Phase.calculating c) (hc : c ≤ 3 * N + 2)
    {traffic : ℕ → AvsCycle} (hq : NoStart traffic (3 * N + 3 - c))
    (hw : ∀ v < N, ¬ WindowWrite N (traffic v)) (i j : Fin N) :
    ((topTrace s traffic (3 * N + 3 - c)).core.array i j).cReg = accumulatorToCome s c i j := by
  have hgrid := (calculation_trace hN h hp (by omega) hq).1
  have hheld : trace (Grid.step fp16Mac) (coreGrid s.core) (feedStream s traffic)
      (3 * N + 3 - c) =
        trace (Grid.step fp16Mac) (coreGrid s.core) (fun u => feedOf s.memA s.memB (c + u))
          (3 * N + 3 - c) := by
    apply trace_simulates (Grid.step fp16Mac) (coreGrid s.core) id
    intro u hu
    rw [feedStream_held hN h hp (by omega) (hq.mono (le_of_lt hu)) hw]
    rfl
  rw [hheld] at hgrid
  exact (congrArg (fun g => g.acc i j) hgrid).trans
    (Grid.acc_trace fp16Mac (coreGrid s.core) (fun u => feedOf s.memA s.memB (c + u)) _ i j)

/-- INTERNAL: From a drain on, an element changes once if its count is still to come. -/
theorem memC_pending_draining (hN : N ≤ 84) {s : MatrixAccelTop N} (h : WellPhased N s.fsm)
    {c : ℕ} (hp : phase s.fsm = Phase.draining c) {traffic : ℕ → AvsCycle} {t : ℕ}
    (hq : NoStart traffic t) (i j : Fin N) :
    (topTrace s traffic t).memC (cell i j) =
      wordAfter (s.memC (cell i j)) (pendingWrite s i j) t := by
  have hj := j.isLt
  have hc := h.draining_le hp
  -- after its last count the drain leaves the memory alone
  have hstop : (topTrace s traffic t).memC =
      (topTrace s traffic (min t (2 * N + 1 - c))).memC := by
    cases Nat.le_total t (2 * N + 1 - c) with
    | inl hle => rw [Nat.min_eq_left hle]
    | inr hle =>
      obtain ⟨d, rfl⟩ := Nat.exists_eq_add_of_le hle
      rw [Nat.min_eq_right hle, topTrace, trace_add]
      exact (idle_holds hN (wellPhased_trace hN h traffic _)
        (drain_idle hN h hp (hq.mono hle)) hq.shift).2.2
  rw [hstop, drain_memC_from hN hp (by omega) (hq.mono (Nat.min_le_left _ _)), pendingWrite, hp]
  simp only
  by_cases hcome : c ≤ 2 * (N - 1 - j.val) + 1
  · rw [if_pos hcome, wordAfter]
    by_cases hpast : 2 * (N - 1 - j.val) + 1 - c < t
    · rw [if_pos (by omega), if_pos hpast]
    · rw [if_neg (by omega), if_neg hpast]
  · rw [if_neg hcome, if_neg (by omega), wordAfter]

/-- INTERNAL: From a calculation on, every element changes once, in the drain after it. -/
theorem memC_pending_calculating (hN : N ≤ 84) {s : MatrixAccelTop N}
    (h : WellPhased N s.fsm) {c : ℕ} (hp : phase s.fsm = Phase.calculating c)
    {traffic : ℕ → AvsCycle} {t : ℕ} (hq : NoStart traffic t)
    (hw : ∀ v < N, ¬ WindowWrite N (traffic v)) (i j : Fin N) :
    (topTrace s traffic t).memC (cell i j) =
      wordAfter (s.memC (cell i j)) (pendingWrite s i j) t := by
  have hc := h.calculating_le hp
  have hpending : pendingWrite s i j =
      some (3 * N + 3 - c + (2 * (N - 1 - j.val) + 1), accumulatorToCome s c i j) := by
    simp only [pendingWrite, hp]
  rw [hpending, wordAfter]
  cases Nat.le_total t (3 * N + 3 - c) with
  | inl hle => rw [(calculation_trace hN h hp (by omega) hq).2, if_neg (by omega)]
  | inr hle =>
    obtain ⟨d, rfl⟩ := Nat.exists_eq_add_of_le hle
    have hcalc := hq.mono hle
    have hend := phase_calculating_end hN h hp hc hcalc
    have hdrain := memC_pending_draining hN (wellPhased_trace hN h traffic _) hend hq.shift i j
    have hnext : pendingWrite (topTrace s traffic (3 * N + 3 - c)) i j =
        some (2 * (N - 1 - j.val) + 1, accumulatorToCome s c i j) := by
      simp only [pendingWrite, hend, Nat.zero_le, if_true, Nat.sub_zero, incoming_zero,
        cReg_calculating_end hN h hp hc hcalc hw]
    rw [hnext, wordAfter, (calculation_trace hN h hp (by omega) hcalc).2] at hdrain
    rw [topTrace, trace_add, hdrain]
    simp only [Nat.add_lt_add_iff_left]

/-- **The result memory at any later time.**  Without a START, and if the operand memories
hold while the feeder may still read them, an element holds what it held until the run in
flight assigns it, and then that word. -/
theorem memC_pending (hN : N ≤ 84) {s : MatrixAccelTop N} (h : WellPhased N s.fsm)
    {traffic : ℕ → AvsCycle} {t : ℕ} (hq : NoStart traffic t)
    (hw : ∀ v < N, ¬ WindowWrite N (traffic v)) (i j : Fin N) :
    (topTrace s traffic t).memC (cell i j) =
      wordAfter (s.memC (cell i j)) (pendingWrite s i j) t := by
  cases hp : phase s.fsm with
  | idle =>
    rw [(idle_holds hN h hp hq).2.2]
    simp only [pendingWrite, hp, wordAfter]
  | calculating c => exact memC_pending_calculating hN h hp hq hw i j
  | draining c => exact memC_pending_draining hN h hp hq i j

/-! ## When the reset clears -/

/-- The word is zero from edge `n` on: what is assigned is zero, and so is what it holds
unless it is overwritten before. -/
def ZeroFrom (n : ℕ) (old : Word) : Option (ℕ × Word) → Prop
  | none => old = 0#16
  | some (e, w) => w = 0#16 ∧ (n ≤ e → old = 0#16)

instance (n : ℕ) (old : Word) (next : Option (ℕ × Word)) : Decidable (ZeroFrom n old next) :=
  match next with
  | none => inferInstanceAs (Decidable (old = 0#16))
  | some (_, w) => inferInstanceAs (Decidable (w = 0#16 ∧ _))

/-- The decidable form: the word is zero from then on. -/
theorem zeroFrom_iff (n : ℕ) (old : Word) (next : Option (ℕ × Word)) :
    ZeroFrom n old next ↔ ∀ t, wordAfter old next (n + t) = 0#16 := by
  cases next with
  | none =>
    constructor
    · exact fun hz _ => hz
    · exact fun hz => hz 0
  | some p =>
    obtain ⟨e, w⟩ := p
    simp only [ZeroFrom, wordAfter]
    constructor
    · rintro ⟨hw, hold⟩ t
      by_cases hpast : e < n + t
      · rw [if_pos hpast, hw]
      · rw [if_neg hpast, hold (by omega)]
    · intro hz
      constructor
      · have hlate := hz (e + 1)
        rwa [if_pos (by omega)] at hlate
      · intro hle
        have hnow := hz 0
        rwa [if_neg (by omega)] at hnow

/-- The bus cycles of the driver's software reset. -/
abbrev resetCycles (N : ℕ) (gap : Gaps) : List AvsCycle := spaced gap 0 (resetWrites N)

/-- After the driver's reset, and as long as no START follows, every read of a word of the
C window returns 0. -/
def ResetClears (s : MatrixAccelTop N) (gap : Gaps) : Prop :=
  ∀ (traffic : ℕ → AvsCycle) (t : ℕ), NoStart traffic t → ∀ k : Fin (N * N),
    (traffic t).read = true → (traffic t).address.toNat = 0xC00 + k.val →
    (topTrace (run MatrixAccelTop.step s (resetCycles N gap)) traffic (t + 1)).avsReaddata =
      0#32

/-- The cycles of the software reset start nothing and write no window of an operand. -/
theorem resetCycles_quiet (hN : N * N ≤ 0x400) {gap : Gaps} {bus : AvsCycle}
    (h : bus ∈ resetCycles N gap) : bus.clrPeSig = false ∧ ¬ WindowWrite N bus := by
  cases mem_spaced h with
  | inl hw => exact quiet_of_not_write hw
  | inr hr => exact resetWrites_quiet hN hr

/-- INTERNAL: `mem_C` after the reset is what it was before, and what the run in flight
then assigns; the reset takes longer than the feeder reads operands.
RTL: matrix_accel_top_systolic_array.v:126-176 -/
theorem memC_after_reset (hN : 1 ≤ N ∧ N ≤ 32) {s : MatrixAccelTop N}
    (h : WellPhased N s.fsm) (gap : Gaps) {traffic : ℕ → AvsCycle} {t : ℕ}
    (hq : NoStart traffic t) (i j : Fin N) :
    (topTrace (run MatrixAccelTop.step s (resetCycles N gap)) traffic t).memC (cell i j) =
      wordAfter (s.memC (cell i j)) (pendingWrite s i j) ((resetCycles N gap).length + t) := by
  have hwindow : N * N ≤ 0x400 := Nat.mul_le_mul hN.2 hN.2
  have hlong : N ≤ (resetCycles N gap).length := by
    have hspaced := length_le_spaced gap 0 (resetWrites N)
    have hwrites : (resetWrites N).length = N * N + 1 := by
      simp only [resetWrites, List.length_cons, List.length_map, List.length_finRange]
    have hsquare := Nat.le_mul_self N
    unfold resetCycles
    omega
  have hquiet : ∀ v < (resetCycles N gap).length + t,
      (prefixed (resetCycles N gap) traffic v).clrPeSig = false :=
    forall_prefixed (P := fun bus : AvsCycle => bus.clrPeSig = false)
      (fun _ hb => (resetCycles_quiet hwindow hb).1) hq
  have hheld : ∀ v < (resetCycles N gap).length + 0,
      ¬ WindowWrite N (prefixed (resetCycles N gap) traffic v) :=
    forall_prefixed (P := fun bus : AvsCycle => ¬ WindowWrite N bus)
      (fun _ hb => (resetCycles_quiet hwindow hb).2) fun u hu => absurd hu (Nat.not_lt_zero u)
  rw [topTrace, trace_run]
  exact memC_pending (by omega) h hquiet (fun v hv => hheld v (by omega)) i j

/-- INTERNAL: A reset that clears leaves zeros in `mem_C`: the bus may read at any time. -/
theorem ResetClears.memC (hN : N * N ≤ 0x400) {s : MatrixAccelTop N} {gap : Gaps}
    (h : ResetClears s gap) (k : Fin (N * N)) (t : ℕ) :
    (topTrace (run MatrixAccelTop.step s (resetCycles N gap))
      (fun _ => iord32Direct accelMemC (k.val * 4)) t).memC k = 0#16 := by
  have hk := k.isLt
  have haddr : (iord32Direct accelMemC (k.val * 4)).address.toNat = 0xC00 + k.val :=
    (access_address (0xC00 + k.val) (by omega) 0#32 accelMemC _ (by simp only [accelMemC]; omega)).2
  have hread := h (fun _ => iord32Direct accelMemC (k.val * 4)) t (fun _ _ => rfl) k rfl haddr
  rw [topTrace, trace_succ, read_cWindow _ rfl haddr] at hread
  have hlow := congrArg (BitVec.extractLsb' 0 16) hread
  rwa [low_half_append] at hlow

/-- **When the software reset clears.**  From every state the design can be driven to, the
driver's reset makes all later reads of C return 0 exactly if every element that no run in
flight will still overwrite is zero before the reset, and every other is overwritten by
zero and, unless that happens during the reset, is zero before it too.
RTL: Software/matrix_accel_SW/source.c:68-76,
matrix_accel_top_systolic_array.v:104-144, 157-176 -/
theorem reset_clears_iff (N : ℕ) (hN : 1 ≤ N ∧ N ≤ 32) (s : MatrixAccelTop N)
    (hs : ReachableTop N s) (gap : Gaps) :
    ResetClears s gap ↔
      ∀ i j, ZeroFrom (resetCycles N gap).length (s.memC (cell i j)) (pendingWrite s i j) := by
  have hwell := (cleanPipeline_of_reachable (by omega) hs).wellPhased
  constructor
  · intro hclears i j
    rw [zeroFrom_iff]
    intro t
    have hquiet : NoStart (fun _ => iord32Direct accelMemC ((cell i j).val * 4)) t :=
      fun _ _ => rfl
    rw [← memC_after_reset hN hwell gap hquiet i j]
    exact hclears.memC (Nat.mul_le_mul hN.2 hN.2) (cell i j) t
  · intro hzero traffic t hq k hr ha
    have hmem := memC_after_reset hN hwell gap hq k.divNat k.modNat
    rw [(zeroFrom_iff _ _ _).mp (hzero _ _), cell_divNat_modNat] at hmem
    rw [topTrace, trace_succ, read_cWindow _ hr ha, hmem]
    rfl

/-- A finished product in `mem_C`, and a run on a zero A under way, for `N = 2`. -/
def zeroRunTop : MatrixAccelTop 2 :=
  run MatrixAccelTop.step (MatrixAccelTop.reset 2)
    (pairRun 14 ++ loadWrites (fun _ => 0#16) pairB ++ [startWrite, default, default])

/-- A slow reset clears, since the run in flight overwrites the product with zeros during it; a
fast one does not. -/
theorem reset_clears_iff_zero_run :
    ResetClears zeroRunTop (fun _ => List.replicate 5 (0#14, 0#32)) ∧
      ¬ ResetClears zeroRunTop (fun _ => []) := by
  constructor
  · exact (reset_clears_iff 2 (by decide) zeroRunTop ⟨_, rfl⟩ _).mpr (by decide)
  · intro hclears
    have hzero := (reset_clears_iff 2 (by decide) zeroRunTop ⟨_, rfl⟩ _).mp hclears 0 0
    exact absurd hzero (by decide)

/-- For `N = 1`: 1.0 times 1.0, run to its end. -/
def finishedRun : List AvsCycle :=
  [iowr32Direct accelMemA 0 0x3C00#32, iowr32Direct accelMemB 0 0x3C00#32, startWrite] ++
    List.replicate 9 default

/-- The reset leaves the result of a finished run in `mem_C`. -/
theorem reset_keeps_result :
    ReachableTop 1 (run MatrixAccelTop.step (MatrixAccelTop.reset 1) finishedRun) ∧
      ¬ ResetClears (run MatrixAccelTop.step (MatrixAccelTop.reset 1) finishedRun)
        fun _ => [] := by
  refine ⟨⟨finishedRun, rfl⟩, fun hclears => ?_⟩
  have hmem := hclears.memC (by decide) 0 0
  exact absurd hmem (by decide)

end MatrixAccelerator.Analysis
