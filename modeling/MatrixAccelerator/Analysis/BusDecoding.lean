import MatrixAccelerator.Analysis.ControlRefinement
import MatrixAccelerator.Analysis.RegisterStore
import MatrixAccelerator.Interface.BusRequest
import MatrixAccelerator.Analysis.TopStep

/-!
# The bus decode against its meaning

One edge of the registers that the bus alone drives, read through `requestOf`: the operand
memories store what the command stores, the start bit follows the command, and the read
register answers the query.
-/

set_option autoImplicit false

namespace MatrixAccelerator.Analysis

open MatrixAccelerator.Library MatrixAccelerator.Model MatrixAccelerator.Interface

variable {N : ℕ}

/-! ## The windows -/

/-- The element an address of a window stands for. -/
theorem windowElement_eq_some_iff {base a : ℕ} {i j : Fin N} :
    windowElement N base a = some (i, j) ↔ a = base + (cell i j).val := by
  have hlt := (cell i j).isLt
  unfold windowElement
  split
  · next hwin =>
    rw [Option.some.injEq, Prod.mk.injEq]
    constructor
    · rintro ⟨rfl, rfl⟩
      rw [cell_divNat_modNat]
      simp only
      omega
    · rintro rfl
      have hword : (⟨base + (cell i j).val - base, window_index_lt hwin⟩ : Fin (N * N)) =
          cell i j := Fin.ext (Nat.add_sub_cancel_left _ _)
      rw [hword]
      exact cell_inj.mp (cell_divNat_modNat _)
  · next hwin =>
    constructor
    · intro h
      cases h
    · intro h
      exact absurd ⟨by omega, by omega⟩ hwin

/-- An address outside the window stands for no element. -/
theorem windowElement_eq_none_iff {base a : ℕ} :
    windowElement N base a = none ↔ ¬ (base ≤ a ∧ a < base + N * N) := by
  unfold windowElement
  split
  · next hwin => exact iff_of_false (fun h => by cases h) fun h => h hwin
  · next hwin => exact iff_of_true rfl hwin

/-- Setting an entry changes that entry alone. -/
theorem setEntry_apply (M : Fin N → Fin N → Word) (i j i' j' : Fin N) (w : Word) :
    setEntry M i' j' w i j = if i' = i ∧ j' = j then w else M i j := by
  unfold setEntry
  by_cases hi : i' = i
  · subst hi
    by_cases hj : j' = j
    · subst hj
      simp
    · simp [hj, Function.update_of_ne (Ne.symm hj)]
  · simp [hi, Function.update_of_ne (Ne.symm hi)]

/-! ## The command -/

/-- The command is a START when the bus carries one. -/
@[simp] theorem isStart_commandOf (bus : AvsCycle) :
    (commandOf bus : Command N).isStart = bus.clrPeSig := by
  unfold commandOf AvsCycle.clrPeSig
  cases hw : bus.write with
  | false => rfl
  | true =>
    by_cases ha : bus.address = 0#14
    · cases hd : bus.writedata.getLsbD 0 <;> simp [ha, Command.isStart]
    · simp only [ha, if_true, if_false, decide_false, Bool.true_and, Bool.false_and, storeOf]
      split <;> rfl

/-- The start bit after the command is what the bus writes into it. -/
theorem startBit_commandOf (bus : AvsCycle) (old : Bool) :
    (commandOf bus : Command N).startBit old =
      if bus.write && decide (bus.address = 0#14) then bus.writedata.getLsbD 0 else old := by
  unfold commandOf
  cases hw : bus.write with
  | false => rfl
  | true =>
    by_cases ha : bus.address = 0#14
    · cases hd : bus.writedata.getLsbD 0 <;> simp [ha, Command.startBit]
    · simp only [ha, if_true, if_false, decide_false, Bool.and_false, Bool.false_eq_true, storeOf]
      split <;> rfl

/-- A write to another address than CTRL is a store. -/
theorem commandOf_store {bus : AvsCycle} (hw : bus.write = true) (ha : bus.address ≠ 0#14) :
    (commandOf bus : Command N) = storeOf bus := by
  simp only [commandOf, hw, if_true, if_neg ha]

/-- A cycle without a write, or with one to CTRL, writes no word of a window. -/
theorem not_writesWord {bus : AvsCycle} (h : bus.write = false ∨ bus.address = 0#14) {a : ℕ}
    (ha : 0 < a) : writesWord a bus = false := by
  rcases h with hw | haddr
  · simp [writesWord, hw]
  · have hne : (0 : ℕ) ≠ a := by omega
    simp [writesWord, haddr, hne]

/-- Such a cycle stores nothing in either matrix. -/
theorem commandOf_no_store {bus : AvsCycle} (h : bus.write = false ∨ bus.address = 0#14)
    (M : Fin N → Fin N → Word) :
    (commandOf bus).storedA M = M ∧ (commandOf bus).storedB M = M := by
  unfold commandOf
  cases hw : bus.write with
  | false => exact ⟨rfl, rfl⟩
  | true =>
    have ha : bus.address = 0#14 := h.resolve_left (by rw [hw]; exact Bool.true_eq_false.mp)
    cases hd : bus.writedata.getLsbD 0 <;> simp [ha, Command.storedA, Command.storedB]

/-- INTERNAL: The command stores into A what the edge stores into `mem_A`. -/
theorem storedA_apply (bus : AvsCycle) (M : Fin N → Fin N → Word) (i j : Fin N) :
    (commandOf bus).storedA M i j =
      if writesWord (0x400 + (cell i j).val) bus then bus.writedata.extractLsb' 0 16
      else M i j := by
  by_cases hidle : bus.write = false ∨ bus.address = 0#14
  · rw [(commandOf_no_store hidle M).1, not_writesWord hidle (by omega)]
    rfl
  obtain ⟨hw, ha⟩ := not_or.mp hidle
  rw [Bool.not_eq_false] at hw
  rw [commandOf_store hw ha, writesWord, hw, Bool.true_and]
  simp only [storeOf, decide_eq_true_eq, ← windowElement_eq_some_iff]
  cases hA : windowElement N 0x400 bus.address.toNat with
  | some p =>
    obtain ⟨i', j'⟩ := p
    simp only [Command.storedA, setEntry_apply, Option.some.injEq, Prod.mk.injEq]
  | none =>
    cases hB : windowElement N 0x800 bus.address.toNat <;> simp [Command.storedA]

/-- INTERNAL: And into B what it stores into `mem_B`. -/
theorem storedB_apply (bus : AvsCycle) (M : Fin N → Fin N → Word) (i j : Fin N) :
    (commandOf bus).storedB M i j =
      if writesWord (0x800 + (cell i j).val) bus ∧ N * N ≤ 0x400 + (cell i j).val then
        bus.writedata.extractLsb' 0 16
      else M i j := by
  by_cases hidle : bus.write = false ∨ bus.address = 0#14
  · rw [(commandOf_no_store hidle M).2, not_writesWord hidle (by omega), if_neg (by simp)]
  obtain ⟨hw, ha⟩ := not_or.mp hidle
  rw [Bool.not_eq_false] at hw
  rw [commandOf_store hw ha, writesWord, hw, Bool.true_and]
  simp only [storeOf, decide_eq_true_eq]
  cases hA : windowElement N 0x400 bus.address.toNat with
  | some p =>
    -- a word of both windows is a word of A
    obtain ⟨i', j'⟩ := p
    have hcell := windowElement_eq_some_iff.mp hA
    have hlt := (cell i' j').isLt
    rw [if_neg (by omega)]
    rfl
  | none =>
    have hout := windowElement_eq_none_iff.mp hA
    cases hB : windowElement N 0x800 bus.address.toNat with
    | some p =>
      obtain ⟨i', j'⟩ := p
      have hcell := windowElement_eq_some_iff.mp hB
      simp only [Command.storedB, setEntry_apply, ← cell_inj]
      apply if_congr _ rfl rfl
      constructor
      · rintro heq
        rw [← heq]
        exact ⟨hcell, by omega⟩
      · rintro ⟨heq, -⟩
        exact Fin.ext (by omega)
    | none =>
      have hnone := windowElement_eq_none_iff.mp hB
      have hlt := (cell i j).isLt
      rw [if_neg (by omega)]
      rfl

/-! ## The control registers -/

/-- INTERNAL: The last drain edge takes the start bit back whatever is written.
RTL: matrix_accel_top_systolic_array.v:106-114, 136-142 -/
theorem ctrlStart_step (N : ℕ) (s : Fsm) (h : ¬ (s.stateCalc = true ∧ s.stateDrain = true))
    (bus : AvsCycle) :
    (s.step N bus).ctrlStart =
      (!decide (phase s = Phase.draining (2 * N)) &&
        (commandOf bus : Command N).startBit s.ctrlStart) := by
  have hstart : (Fsm.startBranch bus s).ctrlStart =
      (commandOf bus : Command N).startBit s.ctrlStart := by
    rw [startBit_commandOf]
    unfold Fsm.startBranch
    split
    · split <;> rfl
    · rfl
  rw [← hstart]
  obtain ⟨st, dn, cnt, calcFlag, drainFlag⟩ := s
  cases calcFlag with
  | true =>
    have hdrain : drainFlag = false := Bool.eq_false_iff.mpr fun hd => h ⟨rfl, hd⟩
    subst hdrain
    by_cases hc : cnt.toNat = 3 * N + 2 <;>
      simp [Fsm.step, Fsm.calcBranch, Fsm.drainBranch, phase, hc]
  | false =>
    cases drainFlag with
    | true =>
      by_cases hc : cnt.toNat = 2 * N <;>
        simp [Fsm.step, Fsm.calcBranch, Fsm.drainBranch, phase, hc]
    | false => simp [Fsm.step, Fsm.calcBranch, Fsm.drainBranch, phase]

/-! ## The query -/

/-- INTERNAL: The read register answers the query.
RTL: matrix_accel_top_systolic_array.v:167-175 -/
theorem readdataNext_eq_answer (s : MatrixAccelTop N) (bus : AvsCycle) :
    s.readdataNext bus =
      (queryOf bus).answer (s.fsm.ctrlDone, s.fsm.ctrlStart) (fun i j => s.memC (cell i j))
        s.avsReaddata := by
  unfold queryOf
  cases hr : bus.read with
  | false => simp [MatrixAccelTop.readdataNext, hr, Query.answer, MatrixAccelTop.avsReaddata]
  | true =>
    by_cases ha : bus.address = 0#14
    · simp [MatrixAccelTop.readdataNext, hr, ha, Query.answer]
    · simp only [if_true, if_neg ha]
      cases hC : windowElement N 0xC00 bus.address.toNat with
      | some p =>
        obtain ⟨i, j⟩ := p
        exact readdataNext_cWindow s hr (windowElement_eq_some_iff.mp hC)
      | none =>
        have hout := windowElement_eq_none_iff.mp hC
        simp only [MatrixAccelTop.readdataNext, hr, if_true, if_neg ha, dif_neg hout, Query.answer]

end MatrixAccelerator.Analysis
