import MatrixAccelerator.Analysis.TopStep
import MatrixAccelerator.Library.EventLog
import MatrixAccelerator.Library.LatestWrite

/-!
# What a drain writes

Through the drain each row of the array is one shift register of `2 * N` words, the
accumulator and the forwarded word of each column in turn, whose last wire is sampled on
the odd counts.  The samples fall into the columns of `mem_C` from the last to the first:
the one that column `j` takes is on count `2 * (N - 1 - j) + 1`, by which the register
`2 * j` of the row has reached the last wire.  Nothing that enters at the left edge gets
there in time, so the array is cut from the skew buffer here and its edges carry anything.

`writeLog_filter` finds the assignments of one element in the log of a drain, from any
count on; what `mem_C` holds then is the latest of them.
-/

set_option autoImplicit false

namespace MatrixAccelerator.Analysis

open MatrixAccelerator.Library MatrixAccelerator.Model MatrixAccelerator.Interface

variable {N : ℕ}

/-- The state `t` edges after `s` with the edges of the array driven by `cycles`. -/
abbrev edgeTrace (s : MatrixAccelTop N) (cycles : ℕ → EdgeCycle N) (t : ℕ) :
    MatrixAccelTop N :=
  trace MatrixAccelTop.stepEdges s cycles t

/-- The assignments to `mem_C` in the first `t` edges, in order. -/
abbrev writeLog (s : MatrixAccelTop N) (cycles : ℕ → EdgeCycle N) (t : ℕ) :
    List (Fin (N * N) × Word) :=
  emitted MatrixAccelTop.stepEdges (fun s c => s.memCWrites c.aLeftIn) s cycles t

/-- An element of `mem_C` is its latest assignment in the log. -/
theorem memC_eq_latest (s : MatrixAccelTop N) (cycles : ℕ → EdgeCycle N) (t : ℕ)
    (k : Fin (N * N)) :
    (edgeTrace s cycles t).memC k =
      latest (fun w => w.1 = k) Prod.snd (s.memC k) (writeLog s cycles t) := by
  rw [edgeTrace, trace_eq_foldl_emitted MatrixAccelTop.memC fun _ _ => rfl,
    foldl_update_eq_latest]

/-! ## The counts of a drain -/

/-- `state_drain` is set and the counter is at `c`. -/
def DrainingAt (s : MatrixAccelTop N) (c : ℕ) : Prop :=
  s.fsm.stateDrain = true ∧ s.fsm.cycleCnt.toNat = c

/-- INTERNAL: A draining edge counts on, and `state_drain` falls on the last count.
RTL: matrix_accel_top_systolic_array.v:117-143 -/
theorem fsm_step_draining (hN : N ≤ 84) {f : Fsm} (hd : f.stateDrain = true)
    (hc : f.cycleCnt.toNat ≤ 2 * N) {bus : AvsCycle} (hs : bus.clrPeSig = false) :
    (f.step N bus).cycleCnt.toNat = f.cycleCnt.toNat + 1 ∧
      ((f.step N bus).stateDrain = true ↔ f.cycleCnt.toNat < 2 * N) := by
  have hsucc : (f.cycleCnt + 1#8).toNat = f.cycleCnt.toNat + 1 := cycleCnt_succ (by omega)
  have hcalc : f.cycleCnt.toNat ≠ 3 * N + 2 := by omega
  obtain ⟨b, hb⟩ := startBranch_quiet hs f
  by_cases hlast : f.cycleCnt.toNat = 2 * N
  · cases hflag : f.stateCalc <;>
      simp [Fsm.step, Fsm.calcBranch, Fsm.drainBranch, hb, hd, hlast, hflag] <;> omega
  · cases hflag : f.stateCalc <;>
      simp [Fsm.step, Fsm.calcBranch, Fsm.drainBranch, hb, hd, hcalc, hlast, hflag, hsucc] <;>
        omega

/-- Without a START a drain goes on to the next count. -/
theorem DrainingAt.step (hN : N ≤ 84) {s : MatrixAccelTop N} {c : ℕ} (h : DrainingAt s c)
    (hc : c < 2 * N) {e : EdgeCycle N} (hs : e.bus.clrPeSig = false) :
    DrainingAt (s.stepEdges e) (c + 1) := by
  obtain ⟨hd, rfl⟩ := h
  obtain ⟨hcnt, hflag⟩ := fsm_step_draining hN hd (le_of_lt hc) hs
  exact ⟨hflag.mpr hc, hcnt⟩

/-- Without a START a drain counts the edges. -/
theorem drainingAt_trace (hN : N ≤ 84) {s : MatrixAccelTop N} {c : ℕ} (h : DrainingAt s c)
    {cycles : ℕ → EdgeCycle N} {t : ℕ} (ht : c + t ≤ 2 * N)
    (hq : ∀ u < t, (cycles u).bus.clrPeSig = false) :
    DrainingAt (edgeTrace s cycles t) (c + t) := by
  apply trace_invariant MatrixAccelTop.stepEdges s (P := fun u x => DrainingAt x (c + u)) h
  intro u hu hx
  exact hx.step hN (by omega) (hq u hu)

/-- After count `2 * N` the drain is over. -/
theorem drain_ends (hN : N ≤ 84) {s : MatrixAccelTop N} (h : DrainingAt s (2 * N))
    {e : EdgeCycle N} (hs : e.bus.clrPeSig = false) :
    (s.stepEdges e).fsm.stateDrain = false := by
  obtain ⟨hd, hc⟩ := h
  have hflag := (fsm_step_draining hN hd (le_of_eq hc) hs).2
  rw [hc] at hflag
  exact Bool.eq_false_iff.mpr fun h => lt_irrefl _ (hflag.mp h)

/-! ## The rows as shift registers -/

/-- A row of the array as the drain sees it: the accumulator and the forwarded word of
each column in turn. -/
def rowChain (core : SystolicCore N) (i : Fin N) : Fin (2 * N) → Word :=
  DelayLine.interleave (fun j => (core.array i j).cReg) (fun j => (core.array i j).aOut)

/-- The word of row `i` that a drain at count `c` will have brought to the last wire on the
count of column `j`: register `2 * j + c`, if that count is still to come. -/
def incoming (core : SystolicCore N) (i j : Fin N) (c : ℕ) : Word :=
  if h : 2 * j.val + c < 2 * N then rowChain core i ⟨2 * j.val + c, h⟩ else 0#16

/-- At the beginning of a drain that is the accumulator of column `j`. -/
theorem incoming_zero (core : SystolicCore N) (i j : Fin N) :
    incoming core i j 0 = (core.array i j).cReg := by
  have hj := j.isLt
  have hcol : ∀ h, (⟨(2 * j.val + 0) / 2, h⟩ : Fin N) = j := fun h =>
    Fin.ext (by simp only; omega)
  unfold incoming rowChain DelayLine.interleave
  rw [dif_pos (by omega), if_pos (by simp only; omega)]
  simp only [hcol]

/-- INTERNAL: A draining edge shifts every row by one word, the left edge coming in.
RTL: pe_fp16.v:36-40 -/
theorem rowChain_step {s : MatrixAccelTop N} {c : ℕ} (h : DrainingAt s c) {e : EdgeCycle N}
    (hs : e.bus.clrPeSig = false) (i : Fin N) :
    rowChain (s.stepEdges e).core i = DelayLine.shift (rowChain s.core i) (e.aLeftIn i) := by
  have hcell : ∀ j, (s.stepEdges e).core.array i j =
      { aOut := (s.core.array i j).cReg
        bOut := s.core.array.bWire e.bTopIn j i.castSucc
        cReg := s.core.array.aWire e.aLeftIn i j.castSucc } := by
    intro j
    simp only [MatrixAccelTop.stepEdges, SystolicArray.step, PeFp16.step, hs, h.1,
      Bool.or_true, Bool.false_eq_true, if_false, if_true]
  simp only [rowChain, DelayLine.shift_interleave, hcell]
  rfl

/-- The last wire of a row is the output of its chain of registers. -/
theorem cRightOut_eq_output (core : SystolicCore N) (aLeftIn : Fin N → Word) (i : Fin N) :
    core.array.cRightOut aLeftIn i = DelayLine.output (aLeftIn i) (rowChain core i) :=
  (DelayLine.output_interleave _ _ _).symm

/-- INTERNAL: From count `c` of a drain the last wire of a row shows its registers from
the last to the first.
RTL: systolic_array.v:25-57 -/
theorem cRightOut_trace (hN : N ≤ 84) {s : MatrixAccelTop N} {c : ℕ} (h : DrainingAt s c)
    {cycles : ℕ → EdgeCycle N} {t : ℕ} (ht : c + t < 2 * N)
    (hq : ∀ u < t, (cycles u).bus.clrPeSig = false) (i : Fin N) :
    (edgeTrace s cycles t).core.array.cRightOut (cycles t).aLeftIn i =
      rowChain s.core i ⟨2 * N - 1 - t, by omega⟩ := by
  have hchain : rowChain (edgeTrace s cycles t).core i =
      trace DelayLine.shift (rowChain s.core i) (fun u => (cycles u).aLeftIn i) t := by
    apply trace_simulates MatrixAccelTop.stepEdges s fun x => rowChain x.core i
    intro u hu
    exact rowChain_step (drainingAt_trace hN h (by omega) fun v hv => hq v (by omega))
      (hq u hu) i
  rw [cRightOut_eq_output, hchain]
  have hout := DelayLine.output_trace (rowChain s.core i) (fun u => (cycles u).aLeftIn i) t
  rw [dif_pos (by omega)] at hout
  exact hout

/-! ## The log of a drain -/

/-- INTERNAL: One edge of the drain assigns the element of row `i` and column `j` once, on
the count of that column, and otherwise not at all.
RTL: matrix_accel_top_systolic_array.v:131-135 -/
theorem memCWrites_filter {s : MatrixAccelTop N} {c : ℕ} (h : DrainingAt s c)
    (aLeftIn : Fin N → Word) (i j : Fin N) :
    (s.memCWrites aLeftIn).filter (fun w => w.1 = cell i j) =
      if c = 2 * (N - 1 - j.val) + 1 then
        [(cell i j, s.core.array.cRightOut aLeftIn i)]
      else [] := by
  obtain ⟨hd, hcnt⟩ := h
  have hj := j.isLt
  have hbit : s.fsm.cycleCnt.getLsbD 0 = true ↔ c % 2 = 1 := by
    rw [BitVec.getLsbD, hcnt, Nat.testBit_zero, decide_eq_true_iff]
  have hhalf : c >>> 1 = c / 2 := Nat.shiftRight_eq_div_pow c 1
  simp only [MatrixAccelTop.memCWrites, hd, hbit, hcnt, true_and, hhalf]
  by_cases hodd : c % 2 = 1 ∧ c < 2 * N
  · rw [dif_pos hodd, List.filter_map]
    by_cases hcol : c = 2 * (N - 1 - j.val) + 1
    · have hsame : (⟨N - 1 - c / 2, by omega⟩ : Fin N) = j := Fin.ext (by simp only; omega)
      have hone : (List.finRange N).filter (fun m => m = i) = [i] := by
        rw [List.filter_eq, List.count_finRange, List.replicate_one]
      simp only [Function.comp_def, hsame, cell_inj, and_true, hone, List.map_singleton,
        if_pos hcol]
    · have hother : (⟨N - 1 - c / 2, by omega⟩ : Fin N) ≠ j := fun h =>
        hcol (by have := congrArg Fin.val h; simp only at this; omega)
      simp only [Function.comp_def, cell_inj, hother, and_false, decide_false, if_neg hcol,
        List.filter_false, List.map_nil]
  · rw [dif_neg hodd, if_neg (by omega), List.filter_nil]

/-- **The log of a drain.**  From count `c` on, the element of row `i` and column `j` is
assigned once, when its count comes, and then takes the word that its row brings there; an
element whose count has passed is not assigned. -/
theorem writeLog_filter (hN : N ≤ 84) {s : MatrixAccelTop N} {c : ℕ} (h : DrainingAt s c)
    {cycles : ℕ → EdgeCycle N} {t : ℕ} (ht : c + t ≤ 2 * N + 1)
    (hq : ∀ u < t, (cycles u).bus.clrPeSig = false) (i j : Fin N) :
    (writeLog s cycles t).filter (fun w => w.1 = cell i j) =
      if c ≤ 2 * (N - 1 - j.val) + 1 ∧ 2 * (N - 1 - j.val) + 1 < c + t then
        [(cell i j, incoming s.core i j c)]
      else [] := by
  have hj := j.isLt
  induction t with
  | zero =>
    rw [if_neg (by omega)]
    rfl
  | succ t ih =>
    have hquiet : ∀ u < t, (cycles u).bus.clrPeSig = false := fun u hu => hq u (by omega)
    have hdrain := drainingAt_trace hN h (by omega) hquiet
    rw [writeLog, emitted, List.filter_append, ih (by omega) hquiet, memCWrites_filter hdrain]
    by_cases hnow : c + t = 2 * (N - 1 - j.val) + 1
    · have hregister : 2 * N - 1 - t = 2 * j.val + c := by omega
      rw [if_neg (by omega), if_pos hnow, if_pos (by omega), List.nil_append,
        cRightOut_trace hN h (by omega) hquiet, incoming, dif_pos (by omega)]
      simp only [hregister]
    · rw [if_neg hnow, List.append_nil]
      by_cases hpast : c ≤ 2 * (N - 1 - j.val) + 1 ∧ 2 * (N - 1 - j.val) + 1 < c + t
      · rw [if_pos hpast, if_pos (by omega)]
      · rw [if_neg hpast, if_neg (by omega)]

/-- **The memory through a drain.**  From count `c` on, an element holds what it held until
its count has come, and from then on the word its row has brought there. -/
theorem memC_draining (hN : N ≤ 84) {s : MatrixAccelTop N} {c : ℕ} (h : DrainingAt s c)
    {cycles : ℕ → EdgeCycle N} {t : ℕ} (ht : c + t ≤ 2 * N + 1)
    (hq : ∀ u < t, (cycles u).bus.clrPeSig = false) (i j : Fin N) :
    (edgeTrace s cycles t).memC (cell i j) =
      if c ≤ 2 * (N - 1 - j.val) + 1 ∧ 2 * (N - 1 - j.val) + 1 < c + t then
        incoming s.core i j c
      else s.memC (cell i j) := by
  rw [memC_eq_latest, latest, writeLog_filter hN h ht hq]
  by_cases hcount : c ≤ 2 * (N - 1 - j.val) + 1 ∧ 2 * (N - 1 - j.val) + 1 < c + t
  · rw [if_pos hcount, if_pos hcount]
    rfl
  · rw [if_neg hcount, if_neg hcount]
    rfl

/-! ## A whole drain -/

section WholeDrain

variable (hN : N ≤ 84) {s : MatrixAccelTop N} (h : DrainingAt s 0) {cycles : ℕ → EdgeCycle N}
  {t : ℕ} (ht : t ≤ 2 * N + 1) (hq : ∀ u < t, (cycles u).bus.clrPeSig = false)

include hN h ht hq

/-- From count zero on an element is assigned once, when its count has passed. -/
theorem writeLog_filter_start (i j : Fin N) :
    (writeLog s cycles t).filter (fun w => w.1 = cell i j) =
      if 2 * (N - 1 - j.val) + 1 < t then [(cell i j, (s.core.array i j).cReg)] else [] := by
  rw [writeLog_filter hN h (by omega) hq]
  simp only [Nat.zero_le, true_and, Nat.zero_add, incoming_zero]

/-- During a drain from count zero an element has its old word, and then its accumulator. -/
theorem memC_draining_start (i j : Fin N) :
    (edgeTrace s cycles t).memC (cell i j) =
      if 2 * (N - 1 - j.val) + 1 < t then (s.core.array i j).cReg else s.memC (cell i j) := by
  rw [memC_draining hN h (by omega) hq]
  simp only [Nat.zero_le, true_and, Nat.zero_add, incoming_zero]

/-- INTERNAL: A drain assigns nothing but accumulators to their own elements. -/
theorem mem_writeLog {w : Fin (N * N) × Word} (hw : w ∈ writeLog s cycles t) :
    ∃ i j, w = (cell i j, (s.core.array i j).cReg) := by
  -- every word of the memory is some element
  have hself : w ∈ (writeLog s cycles t).filter
      (fun w' => w'.1 = cell w.1.divNat w.1.modNat) :=
    List.mem_filter.mpr ⟨hw, decide_eq_true (cell_divNat_modNat w.1).symm⟩
  rw [writeLog_filter_start hN h ht hq] at hself
  split at hself
  · exact ⟨_, _, List.mem_singleton.mp hself⟩
  · exact absurd hself List.not_mem_nil

/-- INTERNAL: A read on edge `t` returns what the element held before the drain or what it
takes in it. -/
theorem read_draining {i j : Fin N} (hr : (cycles t).bus.read = true)
    (ha : (cycles t).bus.address.toNat = 0xC00 + (cell i j).val) :
    (edgeTrace s cycles (t + 1)).avsReaddata = 0#16 ++ s.memC (cell i j) ∨
      (edgeTrace s cycles (t + 1)).avsReaddata = 0#16 ++ (s.core.array i j).cReg := by
  have hread : (edgeTrace s cycles (t + 1)).avsReaddata =
      0#16 ++ (edgeTrace s cycles t).memC (cell i j) := readdataNext_cWindow _ hr ha
  rw [hread, memC_draining_start hN h ht hq]
  split
  · exact Or.inr rfl
  · exact Or.inl rfl

end WholeDrain

/-- INTERNAL: The operand memories are written by the bus alone.
RTL: matrix_accel_top_systolic_array.v:159-163 -/
theorem operands_edgeTrace (s : MatrixAccelTop N) {cycles : ℕ → EdgeCycle N} {t : ℕ}
    (hw : ∀ u < t, (cycles u).bus.write = false) :
    (edgeTrace s cycles t).memA = s.memA ∧ (edgeTrace s cycles t).memB = s.memB := by
  constructor
  · apply trace_const MatrixAccelTop.stepEdges s MatrixAccelTop.memA
    intro u hu
    exact dif_neg fun h => Bool.false_ne_true ((hw u hu).symm.trans h.1)
  · apply trace_const MatrixAccelTop.stepEdges s MatrixAccelTop.memB
    intro u hu
    exact dif_neg fun h => Bool.false_ne_true ((hw u hu).symm.trans h.1)

/-- **A drain captures every accumulator once.**  Whatever the registers of the array hold
and whatever enters at its edges, the edges at the counts `0` to `2 * N` of a drain without
a START assign every word of `mem_C` once, the word of row `i` and column `j` on count
`2 * (N - 1 - j) + 1` and with the accumulator of that cell as it was when the drain began,
and assign nothing else; a read of the C window meanwhile returns the word held before or
that accumulator.
RTL: matrix_accel_top_systolic_array.v:126-143, pe_fp16.v:33-45, systolic_array.v:25-57 -/
theorem drain_captures_once (N : ℕ) (hN : 1 ≤ N ∧ N ≤ 84) (s : MatrixAccelTop N)
    (hdrain : s.fsm.stateDrain = true) (hcount : s.fsm.cycleCnt = 0#8)
    (cycles : ℕ → EdgeCycle N) (hq : ∀ t ≤ 2 * N, (cycles t).bus.clrPeSig = false) :
    let after := edgeTrace s cycles
    let acc := fun i j : Fin N => (s.core.array i j).cReg
    (∀ t ≤ 2 * N, (after t).fsm.stateDrain = true ∧ (after t).fsm.cycleCnt.toNat = t) ∧
      (after (2 * N + 1)).fsm.stateDrain = false ∧
      (∀ i j, (writeLog s cycles (2 * N + 1)).filter (fun w => w.1 = cell i j) =
        [(cell i j, acc i j)]) ∧
      (∀ w ∈ writeLog s cycles (2 * N + 1), ∃ i j, w = (cell i j, acc i j)) ∧
      (∀ t ≤ 2 * N + 1, ∀ i j : Fin N,
        (writeLog s cycles t).filter (fun w => w.1 = cell i j) =
            (if 2 * (N - 1 - j.val) + 1 < t then [(cell i j, acc i j)] else []) ∧
          (after t).memC (cell i j) =
            if 2 * (N - 1 - j.val) + 1 < t then acc i j else s.memC (cell i j)) ∧
      (∀ t ≤ 2 * N + 1, (∀ u < t, (cycles u).bus.write = false) →
        (after t).memA = s.memA ∧ (after t).memB = s.memB) ∧
      ∀ t ≤ 2 * N, ∀ i j : Fin N, (cycles t).bus.read = true →
        (cycles t).bus.address.toNat = 0xC00 + (i.val * N + j.val) →
        (after (t + 1)).avsReaddata = 0#16 ++ s.memC (cell i j) ∨
          (after (t + 1)).avsReaddata = 0#16 ++ acc i j := by
  intro after acc
  have hstart : DrainingAt s 0 := ⟨hdrain, by rw [hcount]; rfl⟩
  have hquiet : ∀ t ≤ 2 * N + 1, ∀ u < t, (cycles u).bus.clrPeSig = false :=
    fun t ht u hu => hq u (by omega)
  have hphase : ∀ t ≤ 2 * N, DrainingAt (after t) t := by
    intro t ht
    have hd := drainingAt_trace hN.2 hstart (by omega) (hquiet t (by omega))
    rwa [Nat.zero_add] at hd
  have hlog : ∀ t ≤ 2 * N + 1, ∀ i j : Fin N,
      (writeLog s cycles t).filter (fun w => w.1 = cell i j) =
        if 2 * (N - 1 - j.val) + 1 < t then [(cell i j, acc i j)] else [] :=
    fun t ht => writeLog_filter_start hN.2 hstart ht (hquiet t ht)
  refine ⟨hphase, drain_ends hN.2 (hphase _ le_rfl) (hq _ le_rfl), fun i j => ?_,
    fun w => mem_writeLog hN.2 hstart le_rfl (hquiet _ le_rfl), fun t ht i j => ⟨hlog t ht i j, ?_⟩,
    fun t _ => operands_edgeTrace s, fun t ht i j => ?_⟩
  · have hj := j.isLt
    rw [hlog _ le_rfl, if_pos (by omega)]
  · exact memC_draining_start hN.2 hstart ht (hquiet t ht) i j
  · exact read_draining hN.2 hstart (by omega) (hquiet t (by omega))

/-- A drain of four accumulators among left-over words. -/
def leftoverDrain : MatrixAccelTop 2 where
  memA := fun _ => 0x3C00#16
  memB := fun _ => 0x3C00#16
  memC := fun _ => 0x7BFF#16
  fsm := ⟨true, false, 0#8, false, true⟩
  avsReaddataReg := 0#32
  core := ⟨SkewBuffer.reset, fun _ _ => ⟨0xFFFF#16, 0xFFFF#16, 0x4000#16⟩⟩

/-- A drain of an array with words left in its forwarding registers. -/
theorem drain_captures_leftover :
    (writeLog leftoverDrain
        (fun _ => ⟨default, fun _ => 0xFFFF#16, fun _ => 0xFFFF#16⟩) (2 * 2 + 1)).filter
        (fun w => w.1 = cell 0 1) = [(cell 0 1, 0x4000#16)] :=
  (drain_captures_once 2 (by decide) leftoverDrain rfl rfl
    (fun _ => ⟨default, fun _ => 0xFFFF#16, fun _ => 0xFFFF#16⟩) fun _ _ => rfl).2.2.1 0 1

end MatrixAccelerator.Analysis
