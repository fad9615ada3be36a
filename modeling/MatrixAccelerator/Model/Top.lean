import MatrixAccelerator.Model.SystolicCore
import Mathlib.Data.List.FinRange

/-!
# The top module `matrix_accel_top_systolic_array`

The root RTL: operand and result memories, the phase machine, the feeder and the Avalon
port.  Each `always` block is the sequence of its non-blocking assignments: every right
side reads the registers before the edge, and where two assignments hit one register the
later one stands.

`N` is an untyped parameter, so the constant expressions over it (`3 * N + 2`, `2 * N`,
`14'h400 + N*N`) take the width of the value given and do not wrap; the registers they
are compared with are zero-extended.
-/

set_option autoImplicit false

namespace MatrixAccelerator.Model

open MatrixAccelerator.Library

/-- What the bus drives in one clock cycle. -/
structure AvsCycle where
  address : BitVec 14
  write : Bool
  writedata : BitVec 32
  read : Bool
deriving DecidableEq

instance : Inhabited AvsCycle := ⟨⟨0#14, false, 0#32, false⟩⟩

/-- The inputs of one cycle when `a_left_in` and `b_top_in` of the array are driven from
outside instead of by the skew buffer. -/
structure EdgeCycle (N : ℕ) where
  bus : AvsCycle
  aLeftIn : Fin N → Word
  bTopIn : Fin N → Word

/-- `clr_pe_sig`, which is also the condition of a START: a write of address 0 with bit 0
of the data set.
RTL: matrix_accel_top_systolic_array.v:53 -/
def AvsCycle.clrPeSig (bus : AvsCycle) : Bool :=
  bus.write && decide (bus.address = 0#14) && bus.writedata.getLsbD 0

/-- The control registers of the phase machine. -/
@[ext] structure Fsm where
  ctrlStart : Bool
  ctrlDone : Bool
  cycleCnt : BitVec 8
  stateCalc : Bool
  stateDrain : Bool
deriving DecidableEq

namespace Fsm

def reset : Fsm := ⟨false, false, 0#8, false, false⟩

/-- The write of the control register.
RTL: matrix_accel_top_systolic_array.v:106-114 -/
def startBranch (bus : AvsCycle) (next : Fsm) : Fsm :=
  if bus.write && decide (bus.address = 0#14) then
    if bus.writedata.getLsbD 0 then
      { ctrlStart := bus.writedata.getLsbD 0, ctrlDone := false, cycleCnt := 0#8,
        stateCalc := true, stateDrain := false }
    else { next with ctrlStart := bus.writedata.getLsbD 0 }
  else next

/-- Phase 1, taken when `state_calc` was set before the edge.
RTL: matrix_accel_top_systolic_array.v:117-124 -/
def calcBranch (N : ℕ) (s next : Fsm) : Fsm :=
  if s.stateCalc then
    if s.cycleCnt.toNat = 3 * N + 2 then
      { next with stateCalc := false, stateDrain := true, cycleCnt := 0#8 }
    else { next with cycleCnt := s.cycleCnt + 1#8 }
  else next

/-- Phase 2, taken when `state_drain` was set before the edge.
RTL: matrix_accel_top_systolic_array.v:127-143 -/
def drainBranch (N : ℕ) (s next : Fsm) : Fsm :=
  if s.stateDrain then
    if s.cycleCnt.toNat = 2 * N then
      { next with cycleCnt := s.cycleCnt + 1#8, stateDrain := false, ctrlDone := true,
                  ctrlStart := false }
    else { next with cycleCnt := s.cycleCnt + 1#8 }
  else next

/-- One edge of the control registers: the three branches in source order. -/
def step (N : ℕ) (bus : AvsCycle) (s : Fsm) : Fsm :=
  drainBranch N s (calcBranch N s (startBranch bus s))

end Fsm

/-- The word `i * N + j` of a memory of `N*N` words. -/
def cell {N : ℕ} (i j : Fin N) : Fin (N * N) :=
  ⟨i.val * N + j.val, by
    calc i.val * N + j.val < i.val * N + N := Nat.add_lt_add_left j.isLt _
      _ = (i.val + 1) * N := (Nat.succ_mul _ _).symm
      _ ≤ N * N := Nat.mul_le_mul_right N i.isLt⟩

/-- The registers of the top module. -/
@[ext] structure MatrixAccelTop (N : ℕ) where
  memA : Fin (N * N) → Word
  memB : Fin (N * N) → Word
  memC : Fin (N * N) → Word
  fsm : Fsm
  avsReaddataReg : BitVec 32
  core : SystolicCore N

namespace MatrixAccelTop

variable {N : ℕ}

/-- The registers while `rst_n` is low. -/
def reset (N : ℕ) : MatrixAccelTop N where
  memA := fun _ => 0#16
  memB := fun _ => 0#16
  memC := fun _ => 0#16
  fsm := Fsm.reset
  avsReaddataReg := 0#32
  core := SystolicCore.reset

/-- `a_col_feed`: column `cycle_cnt` of A while calculating, zero outside.
RTL: matrix_accel_top_systolic_array.v:62 -/
def aColFeed (s : MatrixAccelTop N) (g : Fin N) : Word :=
  if h : s.fsm.stateCalc = true ∧ s.fsm.cycleCnt.toNat < N then
    s.memA (cell g ⟨s.fsm.cycleCnt.toNat, h.2⟩)
  else 0#16

/-- `b_row_feed`: row `cycle_cnt` of B while calculating, zero outside.
RTL: matrix_accel_top_systolic_array.v:64 -/
def bRowFeed (s : MatrixAccelTop N) (g : Fin N) : Word :=
  if h : s.fsm.stateCalc = true ∧ s.fsm.cycleCnt.toNat < N then
    s.memB (cell ⟨s.fsm.cycleCnt.toNat, h.2⟩ g)
  else 0#16

/-- `c_sys_out`. -/
def cSysOut (s : MatrixAccelTop N) : Fin N → Word :=
  s.core.array.cRightOut (s.core.skew.aOutFlat s.aColFeed)

/-- The loop that writes column `col` of `mem_C` from the lanes `c`.
RTL: matrix_accel_top_systolic_array.v:132-134 -/
def writeColumn (c : Fin N → Word) (col : Fin N) (mem : Fin (N * N) → Word) :
    Fin (N * N) → Word :=
  (List.finRange N).foldl (fun mem m => Function.update mem (cell m col) (c m)) mem

/-- `mem_C`, written on the odd counts of the drain phase.
RTL: matrix_accel_top_systolic_array.v:131-135 -/
def memCNext (s : MatrixAccelTop N) : Fin (N * N) → Word :=
  if h : s.fsm.stateDrain = true ∧ s.fsm.cycleCnt.getLsbD 0 = true ∧
      s.fsm.cycleCnt.toNat < 2 * N then
    writeColumn s.cSysOut ⟨N - 1 - s.fsm.cycleCnt.toNat >>> 1, by omega⟩ s.memC
  else s.memC

/-- `mem_A` after a bus cycle.
RTL: matrix_accel_top_systolic_array.v:159-161 -/
def writeA (bus : AvsCycle) (mem : Fin (N * N) → Word) : Fin (N * N) → Word :=
  if h : bus.write = true ∧ 0x400 ≤ bus.address.toNat ∧ bus.address.toNat < 0x400 + N * N then
    Function.update mem ⟨bus.address.toNat - 0x400, by omega⟩ (bus.writedata.extractLsb' 0 16)
  else mem

/-- `mem_B` after a bus cycle; the window of A is decoded first.
RTL: matrix_accel_top_systolic_array.v:159-163 -/
def writeB (bus : AvsCycle) (mem : Fin (N * N) → Word) : Fin (N * N) → Word :=
  if h : bus.write = true ∧
      ¬ (0x400 ≤ bus.address.toNat ∧ bus.address.toNat < 0x400 + N * N) ∧
      0x800 ≤ bus.address.toNat ∧ bus.address.toNat < 0x800 + N * N then
    Function.update mem ⟨bus.address.toNat - 0x800, by omega⟩ (bus.writedata.extractLsb' 0 16)
  else mem

/-- The offset of an address inside the C window is a word of `mem_C`. -/
theorem cWindow_index_lt {bus : AvsCycle}
    (h : 0xC00 ≤ bus.address.toNat ∧ bus.address.toNat < 0xC00 + N * N) :
    bus.address.toNat - 0xC00 < N * N := by omega

/-- `avs_readdata_reg` after a bus cycle.
RTL: matrix_accel_top_systolic_array.v:167-175 -/
def readdataNext (bus : AvsCycle) (s : MatrixAccelTop N) : BitVec 32 :=
  if bus.read then
    if bus.address = 0#14 then
      0#30 ++ BitVec.ofBool s.fsm.ctrlDone ++ BitVec.ofBool s.fsm.ctrlStart
    else if h : 0xC00 ≤ bus.address.toNat ∧ bus.address.toNat < 0xC00 + N * N then
      0#16 ++ s.memC ⟨bus.address.toNat - 0xC00, cWindow_index_lt h⟩
    else 0#32
  else s.avsReaddataReg

/-- `avs_readdata`. -/
def avsReaddata (s : MatrixAccelTop N) : BitVec 32 := s.avsReaddataReg

/-- One rising edge with `rst_n` high.
RTL: matrix_accel_top_systolic_array.v:49-177 -/
def step (s : MatrixAccelTop N) (bus : AvsCycle) : MatrixAccelTop N where
  memA := writeA bus s.memA
  memB := writeB bus s.memB
  memC := s.memCNext
  fsm := s.fsm.step N bus
  avsReaddataReg := s.readdataNext bus
  core := s.core.step bus.clrPeSig s.fsm.stateCalc (s.fsm.stateCalc || s.fsm.stateDrain)
    s.fsm.stateDrain s.aColFeed s.bRowFeed

/-! ## The top module cut at the edges of the array -/

/-- The assignments to `mem_C` on one edge, each the word assigned and its value, in the
order of the loop.
RTL: matrix_accel_top_systolic_array.v:131-135 -/
def memCWrites (s : MatrixAccelTop N) (aLeftIn : Fin N → Word) : List (Fin (N * N) × Word) :=
  if h : s.fsm.stateDrain = true ∧ s.fsm.cycleCnt.getLsbD 0 = true ∧
      s.fsm.cycleCnt.toNat < 2 * N then
    (List.finRange N).map fun m =>
      (cell m ⟨N - 1 - s.fsm.cycleCnt.toNat >>> 1, by omega⟩, s.core.array.cRightOut aLeftIn m)
  else []

/-- One rising edge with `rst_n` high, the array taking the words `a_left_in` and
`b_top_in` of the cycle. -/
def stepEdges (s : MatrixAccelTop N) (c : EdgeCycle N) : MatrixAccelTop N where
  memA := writeA c.bus s.memA
  memB := writeB c.bus s.memB
  memC := (s.memCWrites c.aLeftIn).foldl (fun mem w => Function.update mem w.1 w.2) s.memC
  fsm := s.fsm.step N c.bus
  avsReaddataReg := s.readdataNext c.bus
  core :=
    { skew := s.core.skew.step s.fsm.stateCalc s.aColFeed s.bRowFeed
      array := s.core.array.step c.bus.clrPeSig (s.fsm.stateCalc || s.fsm.stateDrain)
        s.fsm.stateDrain c.aLeftIn c.bTopIn }

/-- The top module is the cut one with the skew buffer at the edges of the array.
RTL: matrix_accel_top_systolic_array.v:71-89 -/
theorem step_eq_stepEdges (s : MatrixAccelTop N) (bus : AvsCycle) :
    s.step bus =
      s.stepEdges ⟨bus, s.core.skew.aOutFlat s.aColFeed, s.core.skew.bOutFlat s.bRowFeed⟩ := by
  have hmem : s.memCNext =
      (s.memCWrites (s.core.skew.aOutFlat s.aColFeed)).foldl
        (fun mem w => Function.update mem w.1 w.2) s.memC := by
    unfold memCNext memCWrites
    split
    · rw [List.foldl_map]
      rfl
    · rfl
  unfold step stepEdges
  rw [hmem]
  rfl

end MatrixAccelTop

end MatrixAccelerator.Model
