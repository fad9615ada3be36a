import MatrixAccelerator.Analysis.RegisterMap
import MatrixAccelerator.Model.Driver

/-!
# The driver, end to end

Between the driver's first write and its START lie at least `3 * N * N + 1` edges, more
than any run in flight has left once `3 ≤ N`; so the START is taken in idle, with A and B
in the memories, and clears the status of whatever ran before.  From there the status
reads set exactly from the end of the driver's own run on: the polling loop ends, and
every word read out is the product.
-/

set_option autoImplicit false

namespace MatrixAccelerator.Analysis

open MatrixAccelerator.Library MatrixAccelerator.Model MatrixAccelerator.Model.Driver
  MatrixAccelerator.Interface

variable {N : ℕ}

/-! ## The accesses on the bus -/

/-- The word address of an access at a byte offset. -/
theorem access_address (w : ℕ) (hw : w < 2 ^ 14) (data : BitVec 32) (base offset : ℕ)
    (h : base + offset = w * 4) :
    (iowr32Direct base offset data).address.toNat = w ∧
      (iord32Direct base offset).address.toNat = w := by
  have hdiv : (base + offset) / 4 = w := by omega
  simp only [iowr32Direct, iord32Direct, hdiv, BitVec.toNat_ofNat]
  exact ⟨Nat.mod_eq_of_lt hw, Nat.mod_eq_of_lt hw⟩

/-- An access to another address than CTRL is no START. -/
theorem clrPeSig_of_address_ne {bus : AvsCycle} (h : bus.address.toNat ≠ 0) :
    bus.clrPeSig = false := by
  have hne : bus.address ≠ 0#14 := fun h0 => h (by rw [h0]; rfl)
  simp [AvsCycle.clrPeSig, hne]

/-- A cycle that writes nothing is quiet. -/
theorem quiet_of_not_write {bus : AvsCycle} (h : bus.write = false) :
    bus.clrPeSig = false ∧ ¬ WindowWrite N bus :=
  ⟨by simp [AvsCycle.clrPeSig, h], fun hw => by rw [hw.1] at h; cases h⟩

/-- A cycle of a spaced program is an idle one or one of the program. -/
theorem mem_spaced {gap : Gaps} {n : ℕ} {l : List AvsCycle} {bus : AvsCycle}
    (h : bus ∈ spaced gap n l) : bus.write = false ∨ bus ∈ l := by
  induction l generalizing n with
  | nil => simp [spaced] at h
  | cons a l ih =>
    simp only [spaced, List.mem_append, List.mem_map, List.mem_cons] at h
    rcases h with ⟨wires, -, rfl⟩ | rfl | h
    · exact Or.inl rfl
    · exact Or.inr List.mem_cons_self
    · exact (ih h).imp id (List.mem_cons_of_mem a)

/-- The spaced program is no shorter. -/
theorem length_le_spaced (gap : Gaps) (n : ℕ) (l : List AvsCycle) :
    l.length ≤ (spaced gap n l).length := by
  induction l generalizing n with
  | nil => simp [spaced]
  | cons a l ih =>
    have := ih (n + 1)
    simp only [spaced, List.length_append, List.length_cons]
    omega

/-- A program in two parts is spaced part after part. -/
theorem spaced_append (gap : Gaps) (n : ℕ) (l l' : List AvsCycle) :
    spaced gap n (l ++ l') = spaced gap n l ++ spaced gap (n + l.length) l' := by
  induction l generalizing n with
  | nil => rfl
  | cons a l ih =>
    simp only [List.cons_append, spaced, ih, List.append_assoc, List.length_cons]
    rw [Nat.add_right_comm n 1 l.length, Nat.add_assoc]

/-- What every cycle leaves alone is left alone by all of them. -/
theorem foldl_ignored {α : Type*} (f : α → AvsCycle → α) (l : List AvsCycle)
    (h : ∀ bus ∈ l, ∀ m, f m bus = m) (m : α) : l.foldl f m = m := by
  induction l with
  | nil => rfl
  | cons a l ih =>
    rw [List.foldl_cons, h a List.mem_cons_self]
    exact ih fun bus hb => h bus (List.mem_cons_of_mem a hb)

/-- What an idle cycle leaves alone is left alone by any number of them. -/
theorem foldl_idle {α : Type*} {f : α → AvsCycle → α}
    (hidle : ∀ m wires, f m (idleCycle wires) = m) (ws : List (BitVec 14 × BitVec 32)) (m : α) :
    (ws.map idleCycle).foldl f m = m := by
  apply foldl_ignored
  intro bus hb m
  obtain ⟨wires, -, rfl⟩ := List.mem_map.mp hb
  exact hidle m wires

/-- What idle cycles leave alone does not depend on the gaps. -/
theorem foldl_spaced {α : Type*} {f : α → AvsCycle → α}
    (hidle : ∀ m wires, f m (idleCycle wires) = m) (gap : Gaps) (n : ℕ) (l : List AvsCycle)
    (m : α) : (spaced gap n l).foldl f m = l.foldl f m := by
  induction l generalizing n m with
  | nil => rfl
  | cons a l ih =>
    rw [spaced, List.foldl_append, foldl_idle hidle, List.foldl_cons, List.foldl_cons, ih]

/-- The bus cycles of the driver before its START: the reset, the loads, and the idle
cycles up to the START. -/
def cyclesBeforeStart (gap : Gaps) (matrixA matrixB : Fin (N * N) → Word) : List AvsCycle :=
  spaced gap 0 (resetWrites N ++ loadWrites matrixA matrixB) ++
    (gap (resetWrites N ++ loadWrites matrixA matrixB).length).map idleCycle

/-- The writes of the driver end in its START. -/
theorem spaced_commandWrites (gap : Gaps) (matrixA matrixB : Fin (N * N) → Word) :
    spaced gap 0 (commandWrites matrixA matrixB) =
      cyclesBeforeStart gap matrixA matrixB ++ [startWrite] := by
  rw [commandWrites, spaced_append, Nat.zero_add, cyclesBeforeStart, List.append_assoc]
  rfl

/-- A cycle before the START is no write, or one of the reset or of the loading. -/
theorem mem_cyclesBeforeStart {gap : Gaps} {matrixA matrixB : Fin (N * N) → Word}
    {bus : AvsCycle} (h : bus ∈ cyclesBeforeStart gap matrixA matrixB) :
    bus.write = false ∨ bus ∈ resetWrites N ∨ bus ∈ loadWrites matrixA matrixB := by
  rcases List.mem_append.mp h with h | h
  · exact (mem_spaced h).imp id List.mem_append.mp
  · obtain ⟨wires, -, rfl⟩ := List.mem_map.mp h
    exact Or.inl rfl

/-- INTERNAL: The writes before the START alone take `3 * N * N + 1` edges. -/
theorem le_length_cyclesBeforeStart (gap : Gaps) (matrixA matrixB : Fin (N * N) → Word) :
    3 * (N * N) + 1 ≤ (cyclesBeforeStart gap matrixA matrixB).length := by
  have hspaced := length_le_spaced gap 0 (resetWrites N ++ loadWrites matrixA matrixB)
  have hwrites : (resetWrites N ++ loadWrites matrixA matrixB).length = 3 * (N * N) + 1 := by
    simp only [resetWrites, loadWrites, List.length_append, List.length_cons, List.length_map,
      List.length_finRange]
    omega
  rw [cyclesBeforeStart, List.length_append]
  omega

/-! ## The memories at the START -/

/-- INTERNAL: A sequence of single-word updates leaves at `k` the last word written there;
here every word is written with its own value. -/
theorem foldl_update_apply {n : ℕ} (f : (Fin n → Word) → AvsCycle → Fin n → Word)
    (cycle : Fin n → AvsCycle) (value : Fin n → Word)
    (hf : ∀ mem i, f mem (cycle i) = Function.update mem i (value i)) (l : List (Fin n))
    (mem : Fin n → Word) (k : Fin n) :
    (l.map cycle).foldl f mem k = if k ∈ l then value k else mem k := by
  induction l generalizing mem with
  | nil => simp
  | cons i l ih =>
    rw [List.map_cons, List.foldl_cons, ih, hf]
    by_cases hk : k ∈ l
    · simp [hk]
    · by_cases hi : k = i
      · subst hi
        simp [hk]
      · simp [hk, hi]

theorem low_half_setWidth (w : Word) : (w.setWidth 32).extractLsb' 0 16 = w := by
  apply BitVec.eq_of_toNat_eq
  have := w.isLt
  simp only [BitVec.extractLsb'_toNat, BitVec.toNat_setWidth, Nat.shiftRight_zero]
  omega

theorem low_half_append (w : Word) : (0#16 ++ w).extractLsb' 0 16 = w := by
  apply BitVec.eq_of_toNat_eq
  have := w.isLt
  simp only [BitVec.extractLsb'_toNat, BitVec.toNat_append, BitVec.toNat_ofNat, Nat.zero_mod,
    Nat.zero_shiftLeft, Nat.zero_or, Nat.shiftRight_zero]
  omega

/-- INTERNAL: A driver write of word `i` of the A window stores its low half there.
RTL: matrix_accel_top_systolic_array.v:160-161 -/
theorem writeA_load (hN : N * N ≤ 0x400) (i : Fin (N * N)) (w : Word)
    (mem : Fin (N * N) → Word) :
    MatrixAccelTop.writeA (iowr32Direct accelMemA (i.val * 4) (w.setWidth 32)) mem =
        Function.update mem i w ∧
      MatrixAccelTop.writeB (iowr32Direct accelMemA (i.val * 4) (w.setWidth 32)) mem = mem := by
  have hi := i.isLt
  have haddr := (access_address (0x400 + i.val) (by omega) (w.setWidth 32) accelMemA (i.val * 4)
    (by simp only [accelMemA]; omega)).1
  have hwin : 0x400 ≤ 0x400 + i.val ∧ 0x400 + i.val < 0x400 + N * N := by omega
  have hdata : (iowr32Direct accelMemA (i.val * 4) (w.setWidth 32)).writedata.extractLsb' 0 16 =
      w := low_half_setWidth w
  constructor
  · simp only [MatrixAccelTop.writeA, haddr, hdata]
    rw [dif_pos ⟨rfl, hwin⟩]
    simp only [Nat.add_sub_cancel_left]
  · simp only [MatrixAccelTop.writeB, haddr]
    rw [dif_neg fun h => h.2.1 hwin]

/-- INTERNAL: A driver write of word `i` of the B window stores its low half there.
RTL: matrix_accel_top_systolic_array.v:162-163 -/
theorem writeB_load (hN : N * N ≤ 0x400) (i : Fin (N * N)) (w : Word)
    (mem : Fin (N * N) → Word) :
    MatrixAccelTop.writeB (iowr32Direct accelMemB (i.val * 4) (w.setWidth 32)) mem =
        Function.update mem i w ∧
      MatrixAccelTop.writeA (iowr32Direct accelMemB (i.val * 4) (w.setWidth 32)) mem = mem := by
  have hi := i.isLt
  have haddr := (access_address (0x800 + i.val) (by omega) (w.setWidth 32) accelMemB (i.val * 4)
    (by simp only [accelMemB]; omega)).1
  have hnotA : ¬ (0x400 ≤ 0x800 + i.val ∧ 0x800 + i.val < 0x400 + N * N) := by omega
  have hwin : 0x800 ≤ 0x800 + i.val ∧ 0x800 + i.val < 0x800 + N * N := by omega
  have hdata : (iowr32Direct accelMemB (i.val * 4) (w.setWidth 32)).writedata.extractLsb' 0 16 =
      w := low_half_setWidth w
  constructor
  · simp only [MatrixAccelTop.writeB, haddr, hdata]
    rw [dif_pos ⟨rfl, hnotA, hwin⟩]
    simp only [Nat.add_sub_cancel_left]
  · simp only [MatrixAccelTop.writeA, haddr]
    rw [dif_neg fun h => hnotA h.2]

/-- INTERNAL: The reset writes address neither operand window, and none is a START.
RTL: Software/matrix_accel_SW/source.c:72-76 -/
theorem resetWrites_quiet (hN : N * N ≤ 0x400) {bus : AvsCycle} (h : bus ∈ resetWrites N) :
    bus.clrPeSig = false ∧ ¬ WindowWrite N bus := by
  rw [resetWrites, List.mem_cons] at h
  rcases h with rfl | h
  · refine ⟨by decide, ?_⟩
    rintro ⟨-, hwin⟩
    rw [(access_address 0 (by decide) 0#32 accelCtrlReg 0 rfl).1] at hwin
    omega
  · obtain ⟨i, -, rfl⟩ := List.mem_map.mp h
    have hi := i.isLt
    have haddr := (access_address (0xC00 + i.val) (by omega) 0#32 accelMemC (i.val * 4)
      (by simp only [accelMemC]; omega)).1
    refine ⟨clrPeSig_of_address_ne (by omega), ?_⟩
    rintro ⟨-, hwin⟩
    rw [haddr] at hwin
    omega

/-- Loading a matrix that fits its window starts nothing. -/
theorem loadWrites_no_start (hN : N * N ≤ 0x400) {matrixA matrixB : Fin (N * N) → Word}
    {bus : AvsCycle} (h : bus ∈ loadWrites matrixA matrixB) : bus.clrPeSig = false := by
  apply clrPeSig_of_address_ne
  rw [loadWrites, List.mem_append, List.mem_map, List.mem_map] at h
  rcases h with ⟨i, -, rfl⟩ | ⟨i, -, rfl⟩
  · have hi := i.isLt
    rw [(access_address (0x400 + i.val) (by omega) _ accelMemA (i.val * 4)
      (by simp only [accelMemA]; omega)).1]
    omega
  · have hi := i.isLt
    rw [(access_address (0x800 + i.val) (by omega) _ accelMemB (i.val * 4)
      (by simp only [accelMemB]; omega)).1]
    omega

/-- What the idle cycles and the reset leave alone takes the loading alone. -/
theorem foldl_cyclesBeforeStart {α : Type*} {f : α → AvsCycle → α}
    (hidle : ∀ m wires, f m (idleCycle wires) = m)
    (hreset : ∀ bus ∈ resetWrites N, ∀ m, f m bus = m) (gap : Gaps)
    (matrixA matrixB : Fin (N * N) → Word) (m : α) :
    (cyclesBeforeStart gap matrixA matrixB).foldl f m =
      (loadWrites matrixA matrixB).foldl f m := by
  unfold cyclesBeforeStart
  rw [List.foldl_append, foldl_idle hidle, foldl_spaced hidle, List.foldl_append,
    foldl_ignored f (resetWrites N) hreset]

/-- The loading leaves both matrices in the memories. -/
theorem foldl_loadWrites (hN : N * N ≤ 0x400) (matrixA matrixB memA memB : Fin (N * N) → Word) :
    (loadWrites matrixA matrixB).foldl (fun mem bus => MatrixAccelTop.writeA bus mem) memA =
        matrixA ∧
      (loadWrites matrixA matrixB).foldl (fun mem bus => MatrixAccelTop.writeB bus mem) memB =
        matrixB := by
  unfold loadWrites
  rw [List.foldl_append, List.foldl_append]
  constructor
  · rw [foldl_ignored]
    · funext k
      rw [foldl_update_apply (fun mem bus => MatrixAccelTop.writeA bus mem) _ matrixA
        (fun mem i => (writeA_load hN i (matrixA i) mem).1), if_pos (List.mem_finRange k)]
    · intro bus hb m
      obtain ⟨i, -, rfl⟩ := List.mem_map.mp hb
      exact (writeB_load hN i (matrixB i) m).2
  · rw [foldl_ignored (fun mem bus => MatrixAccelTop.writeB bus mem)
      ((List.finRange (N * N)).map fun i =>
        iowr32Direct accelMemA (i.val * 4) ((matrixA i).setWidth 32))]
    · funext k
      rw [foldl_update_apply (fun mem bus => MatrixAccelTop.writeB bus mem) _ matrixB
        (fun mem i => (writeB_load hN i (matrixB i) mem).1), if_pos (List.mem_finRange k)]
    · intro bus hb m
      obtain ⟨i, -, rfl⟩ := List.mem_map.mp hb
      exact (writeA_load hN i (matrixA i) m).2

/-- Before the START the operands are in the memories, whatever the gaps are. -/
theorem loaded_operands (hN : N * N ≤ 0x400) (matrixA matrixB : Fin (N * N) → Word) (gap : Gaps)
    (s : MatrixAccelTop N) :
    (run MatrixAccelTop.step s (cyclesBeforeStart gap matrixA matrixB)).memA = matrixA ∧
      (run MatrixAccelTop.step s (cyclesBeforeStart gap matrixA matrixB)).memB = matrixB := by
  have hidle : ∀ (m : Fin (N * N) → Word) wires,
      MatrixAccelTop.writeA (idleCycle wires) m = m ∧
        MatrixAccelTop.writeB (idleCycle wires) m = m := fun m wires =>
    write_of_not_window (quiet_of_not_write rfl).2 m
  have hreset : ∀ bus ∈ resetWrites N, ∀ m : Fin (N * N) → Word,
      MatrixAccelTop.writeA bus m = m ∧ MatrixAccelTop.writeB bus m = m := fun bus hb m =>
    write_of_not_window (resetWrites_quiet hN hb).2 m
  obtain ⟨hmemA, hmemB⟩ := operands_run s (cyclesBeforeStart gap matrixA matrixB)
  obtain ⟨hloadA, hloadB⟩ := foldl_loadWrites hN matrixA matrixB s.memA s.memB
  constructor
  · rw [hmemA, foldl_cyclesBeforeStart (fun m w => (hidle m w).1) fun bus hb m =>
      (hreset bus hb m).1, hloadA]
  · rw [hmemB, foldl_cyclesBeforeStart (fun m w => (hidle m w).2) fun bus hb m =>
      (hreset bus hb m).2, hloadB]

/-! ## The run the driver starts -/

/-- INTERNAL: The driver's START finds the machine idle: its earlier writes take more
edges than any run in flight has left. -/
theorem idle_at_start (hN : 3 ≤ N ∧ N ≤ 32) {s : MatrixAccelTop N} (h : CleanPipeline s)
    (matrixA matrixB : Fin (N * N) → Word) (gap : Gaps) :
    phase (run MatrixAccelTop.step s (cyclesBeforeStart gap matrixA matrixB)).fsm =
      Phase.idle := by
  have hwindow : N * N ≤ 0x400 := Nat.mul_le_mul hN.2 hN.2
  have hquiet : ∀ bus ∈ cyclesBeforeStart gap matrixA matrixB, bus.clrPeSig = false := by
    intro bus hb
    rcases mem_cyclesBeforeStart hb with hw | hr | hl
    · exact (quiet_of_not_write (N := N) hw).1
    · exact (resetWrites_quiet hwindow hr).1
    · exact loadWrites_no_start hwindow hl
  have hlong := le_length_cyclesBeforeStart gap matrixA matrixB
  have hsquare : 3 * N ≤ N * N := Nat.mul_le_mul_right N hN.1
  rw [run_eq_trace]
  have hno := noStart_getD hquiet (cyclesBeforeStart gap matrixA matrixB).length
  have hwell := wellPhased_trace (by omega) h.wellPhased
    (fun t => (cyclesBeforeStart gap matrixA matrixB).getD t default)
    (cyclesBeforeStart gap matrixA matrixB).length
  rw [← Phase.remaining_eq_zero_iff N hwell.bounded, remaining_trace (by omega) h.wellPhased hno]
  have hmost := Phase.remaining_le N (phase s.fsm)
  omega

/-! ## Polling and reading out -/

/-- INTERNAL: The word a CTRL read returns has bit 1 set exactly if `ctrl_done` is.
RTL: matrix_accel_top_systolic_array.v:168-169, Software/matrix_accel_SW/source.c:106 -/
theorem poll_read (s : MatrixAccelTop N) :
    (s.step (iord32Direct accelCtrlReg 0)).avsReaddata &&& 0x02#32 ≠ 0#32 ↔
      s.fsm.ctrlDone = true := by
  have hread : (s.step (iord32Direct accelCtrlReg 0)).avsReaddata =
      0#30 ++ BitVec.ofBool s.fsm.ctrlDone ++ BitVec.ofBool s.fsm.ctrlStart := rfl
  rw [hread]
  cases s.fsm.ctrlDone <;> cases s.fsm.ctrlStart <;> decide

/-- An access is a run of its idle cycles and itself. -/
theorem access_run (gap : Gaps) (n : ℕ) (bus : AvsCycle) (s : MatrixAccelTop N)
    (l : List AvsCycle) :
    access gap n bus (run MatrixAccelTop.step s l) =
        run MatrixAccelTop.step s (l ++ (gap n).map idleCycle ++ [bus]) ∧
      access gap n bus (run MatrixAccelTop.step s l) =
        (run MatrixAccelTop.step s (l ++ (gap n).map idleCycle)).step bus := by
  rw [access, ← run_append, ← List.append_assoc]
  exact ⟨rfl, run_append _ _ _ _⟩

/-- The cycles of a read write nothing. -/
theorem read_access_write_false (gap : Gaps) (n : ℕ) {l : List AvsCycle}
    (hl : ∀ bus ∈ l, bus.write = false) (base offset : ℕ) :
    (∀ bus ∈ l ++ (gap n).map idleCycle, bus.write = false) ∧
      ∀ bus ∈ l ++ (gap n).map idleCycle ++ [iord32Direct base offset], bus.write = false := by
  have hidle : ∀ bus ∈ l ++ (gap n).map idleCycle, bus.write = false := by
    intro bus hb
    rcases List.mem_append.mp hb with hb | hb
    · exact hl bus hb
    · obtain ⟨wires, -, rfl⟩ := List.mem_map.mp hb
      rfl
  refine ⟨hidle, fun bus hb => ?_⟩
  rcases List.mem_append.mp hb with hb | hb
  · exact hidle bus hb
  · rw [List.mem_singleton.mp hb]
    rfl

section OwnRun

variable (hN : N ≤ 84) {s : MatrixAccelTop N} (h : CleanPipeline s)
  (hp : phase s.fsm = Phase.idle) {e0 : AvsCycle} (he0 : e0.clrPeSig = true) (gap : Gaps)

include hN h hp he0

/-- INTERNAL: **The polling loop ends**, and not before the driver's own run has. -/
theorem pollLoop_returns (fuel n : ℕ) (l : List AvsCycle) (hl : ∀ bus ∈ l, bus.write = false)
    (hfuel : 1 ≤ fuel) (hlong : 5 * N + 5 ≤ l.length + fuel) :
    ∃ n' l', pollLoop gap fuel n (run MatrixAccelTop.step (s.step e0) l) =
        some (n', run MatrixAccelTop.step (s.step e0) l') ∧
      (∀ bus ∈ l', bus.write = false) ∧ 5 * N + 4 ≤ l'.length := by
  -- on the fuel: a poll that reads no done bit is earlier than the end of the run
  induction fuel generalizing n l with
  | zero => omega
  | succ fuel ih =>
    obtain ⟨hidle, hnext⟩ := read_access_write_false gap n hl accelCtrlReg 0
    obtain ⟨hrun, hedge⟩ := access_run gap n (iord32Direct accelCtrlReg 0) (s.step e0) l
    have hpoll := poll_read
      (run MatrixAccelTop.step (s.step e0) (l ++ (gap n).map idleCycle))
    rw [← hedge, hrun] at hpoll
    obtain ⟨hearly, hlate⟩ := run_from_idle hN h hp he0 fun bus hb => quiet_of_not_write (hidle bus hb)
    rw [pollLoop, hrun]
    by_cases hdone : (run MatrixAccelTop.step (s.step e0)
        (l ++ (gap n).map idleCycle)).fsm.ctrlDone = true
    · rw [if_pos (hpoll.mpr hdone)]
      refine ⟨n + 1, _, rfl, hnext, ?_⟩
      have hge : 5 * N + 4 ≤ (l ++ (gap n).map idleCycle).length := by
        by_contra hlt
        rw [hearly (by omega)] at hdone
        cases hdone
      rw [List.length_append]
      omega
    · rw [if_neg fun hbit => hdone (hpoll.mp hbit)]
      have hlt : (l ++ (gap n).map idleCycle).length < 5 * N + 4 := by
        by_contra hge
        exact hdone (hlate (by omega)).2.1
      apply ih (n + 1) _ hnext
      · rw [List.length_append] at hlt
        omega
      · simp only [List.length_append, List.length_cons, List.length_nil]
        omega

/-- INTERNAL: Every word read out is the element of the product at its place. -/
theorem readLoop_returns (order : List (Fin N × Fin N)) (hwindow : N * N ≤ 0x400) (n : ℕ)
    (l : List AvsCycle) (hl : ∀ bus ∈ l, bus.write = false) (hlong : 5 * N + 4 ≤ l.length) :
    readLoop gap n order (run MatrixAccelTop.step (s.step e0) l) =
      order.map fun p => productEntry s.memA s.memB p.1 p.2 := by
  induction order generalizing n l with
  | nil => rfl
  | cons p rest ih =>
    obtain ⟨i, j⟩ := p
    have hcell := (cell i j).isLt
    obtain ⟨hidle, hnext⟩ := read_access_write_false gap n hl accelMemC
      ((i.val * N + j.val) * 4)
    obtain ⟨hrun, hedge⟩ := access_run gap n
      (iord32Direct accelMemC ((i.val * N + j.val) * 4)) (s.step e0) l
    have haddr : (iord32Direct accelMemC ((i.val * N + j.val) * 4)).address.toNat =
        0xC00 + (cell i j).val :=
      (access_address (0xC00 + (cell i j).val) (by omega) 0#32 accelMemC _
        (by simp only [accelMemC, cell]; omega)).2
    have hmem := ((run_from_idle hN h hp he0 fun bus hb => quiet_of_not_write (hidle bus hb)).2
      (by rw [List.length_append]; omega)).2.2 i j
    have hword : (access gap n (iord32Direct accelMemC ((i.val * N + j.val) * 4))
        (run MatrixAccelTop.step (s.step e0) l)).avsReaddata =
          0#16 ++ productEntry s.memA s.memB i j := by
      rw [hedge, ← hmem]
      exact read_cWindow _ rfl haddr
    rw [readLoop, hword, low_half_append, hrun, List.map_cons]
    congr 1
    exact ih (n + 1) _ hnext (by simp only [List.length_append]; omega)

end OwnRun

/-- **The driver end to end.**  From every state the design can be driven to, with any
idle cycles between its accesses, the driver's bus program leaves its polling loop and
reads out, row by row, exactly the product of the matrices it wrote; up to edge
`5 * N + 4` after its START no cycle without a write shows it a set status.
RTL: Software/matrix_accel_SW/source.c:65-127, matrix_accel_top_systolic_array.v:94-177 -/
theorem driver_end_to_end (N : ℕ) (hN : 3 ≤ N ∧ N ≤ 32) (s : MatrixAccelTop N)
    (hs : ReachableTop N s) (matrixA matrixB : Fin (N * N) → Word) (gap : Gaps) :
    (∀ fuel, 5 * N + 5 ≤ fuel →
      main fuel gap matrixA matrixB s =
        some ((readOrder N).map fun p => productEntry matrixA matrixB p.1 p.2)) ∧
      ∀ l : List AvsCycle, (∀ bus ∈ l, bus.write = false) → l.length < 5 * N + 4 →
        (run MatrixAccelTop.step s
          (spaced gap 0 (commandWrites matrixA matrixB) ++ l)).fsm.ctrlDone = false := by
  have hN84 : N ≤ 84 := by omega
  have hwindow : N * N ≤ 0x400 := Nat.mul_le_mul hN.2 hN.2
  have hstart : startWrite.clrPeSig = true := by decide
  have hidle := idle_at_start hN (cleanPipeline_of_reachable hN84 hs) matrixA matrixB gap
  obtain ⟨hmemA, hmemB⟩ := loaded_operands hwindow matrixA matrixB gap s
  have hclean := cleanPipeline_of_reachable hN84
    (hs.run_of (cyclesBeforeStart gap matrixA matrixB))
  have hcommand : run MatrixAccelTop.step s (spaced gap 0 (commandWrites matrixA matrixB)) =
      (run MatrixAccelTop.step s (cyclesBeforeStart gap matrixA matrixB)).step startWrite := by
    rw [spaced_commandWrites, run_append]
    rfl
  constructor
  · intro fuel hfuel
    obtain ⟨n, l, hpoll, hquiet, hlong⟩ := pollLoop_returns hN84 hclean hidle hstart gap fuel
      (commandWrites matrixA matrixB).length [] (by simp) (by omega) (by simpa using hfuel)
    rw [run_nil, ← hcommand] at hpoll
    have hread := readLoop_returns hN84 hclean hidle hstart gap (readOrder N) hwindow n l hquiet
      hlong
    rw [hmemA, hmemB, ← hcommand] at hread
    simp only [main, hpoll, hread]
  · intro l hquiet hshort
    rw [run_append, hcommand]
    exact (run_from_idle hN84 hclean hidle hstart fun bus hb =>
      quiet_of_not_write (hquiet bus hb)).1 hshort

/-- The whole program for `N = 3`, on matrices of ones and of twos. -/
theorem driver_end_to_end_reset :
    main 20 (fun _ => []) (fun _ : Fin (3 * 3) => 0x3C00#16) (fun _ => 0x4000#16)
        (MatrixAccelTop.reset 3) =
      some ((readOrder 3).map fun p =>
        productEntry (fun _ => 0x3C00#16) (fun _ => 0x4000#16) p.1 p.2) :=
  (driver_end_to_end 3 (by decide) _ Reachable.refl _ _ _).1 20 (by decide)

end MatrixAccelerator.Analysis
