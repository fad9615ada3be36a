import MatrixAccelerator.Model.Top

/-!
# The Qsys copy of the accelerator

The version of the RTL under `system/synthesis/submodules`, which `system.qip` puts into
the board image.  Its `fp16_*` units, `skew_buffer` and bus-write decode are those of the
root RTL, text for text, and are shared here.  Its processing element has neither the
soft clear nor the drain mode, its phase machine has no drain phase, and the bus reads
the accumulators themselves.
-/

set_option autoImplicit false

namespace MatrixAccelerator.Model.Qsys

open MatrixAccelerator.Library

/-- The registers of `pe_fp16` in the Qsys copy. -/
@[ext] structure PeFp16 where
  aOut : Word
  bOut : Word
  cOut : Word
deriving DecidableEq

namespace PeFp16

def reset : PeFp16 := ⟨0#16, 0#16, 0#16⟩

/-- One edge.
RTL: system/synthesis/submodules/pe_fp16.v:22-32 -/
def step (en : Bool) (aIn bIn : Word) (pe : PeFp16) : PeFp16 :=
  if en then { aOut := aIn, bOut := bIn, cOut := fp16Mac aIn bIn pe.cOut } else pe

end PeFp16

/-- The registers of `systolic_array` in the Qsys copy. -/
abbrev SystolicArray (N : ℕ) := Fin N → Fin N → PeFp16

namespace SystolicArray

variable {N : ℕ}

def reset : SystolicArray N := fun _ _ => PeFp16.reset

/-- `a_wire[i][0..N]`. -/
def aWire (s : SystolicArray N) (aLeftIn : Fin N → Word) (i : Fin N) : Fin (N + 1) → Word :=
  DelayLine.taps (aLeftIn i) (fun j => (s i j).aOut)

/-- `b_wire[0..N][j]`. -/
def bWire (s : SystolicArray N) (bTopIn : Fin N → Word) (j : Fin N) : Fin (N + 1) → Word :=
  DelayLine.taps (bTopIn j) (fun i => (s i j).bOut)

/-- One edge of every processing element.
RTL: system/synthesis/submodules/systolic_array.v:23-47 -/
def step (en : Bool) (aLeftIn bTopIn : Fin N → Word) (s : SystolicArray N) : SystolicArray N :=
  fun i j => (s i j).step en (s.aWire aLeftIn i j.castSucc) (s.bWire bTopIn j i.castSucc)

end SystolicArray

/-- The control registers of the Qsys copy. -/
@[ext] structure Fsm where
  ctrlStart : Bool
  ctrlDone : Bool
  cycleCnt : BitVec 8
  stateCalc : Bool
deriving DecidableEq

namespace Fsm

def reset : Fsm := ⟨false, false, 0#8, false⟩

/-- The write of the control register.
RTL: system/synthesis/submodules/matrix_accel_top_systolic_array.v:74-81 -/
def startBranch (bus : AvsCycle) (next : Fsm) : Fsm :=
  if bus.write && decide (bus.address = 0#14) then
    if bus.writedata.getLsbD 0 then
      { ctrlStart := bus.writedata.getLsbD 0, ctrlDone := false, cycleCnt := 0#8,
        stateCalc := true }
    else { next with ctrlStart := bus.writedata.getLsbD 0 }
  else next

/-- The calculation phase; the counter keeps counting past its last cycle.
RTL: system/synthesis/submodules/matrix_accel_top_systolic_array.v:84-91 -/
def calcBranch (N : ℕ) (s next : Fsm) : Fsm :=
  if s.stateCalc then
    if s.cycleCnt.toNat = 3 * N + 2 then
      { cycleCnt := s.cycleCnt + 1#8, stateCalc := false, ctrlDone := true,
        ctrlStart := false }
    else { next with cycleCnt := s.cycleCnt + 1#8 }
  else next

/-- One edge of the control registers. -/
def step (N : ℕ) (bus : AvsCycle) (s : Fsm) : Fsm := calcBranch N s (startBranch bus s)

end Fsm

/-- The registers of the Qsys copy's top module. -/
@[ext] structure MatrixAccelTop (N : ℕ) where
  memA : Fin (N * N) → Word
  memB : Fin (N * N) → Word
  fsm : Fsm
  avsReaddataReg : BitVec 32
  skew : SkewBuffer N
  array : SystolicArray N

namespace MatrixAccelTop

variable {N : ℕ}

/-- The registers while `rst_n` is low. -/
def reset (N : ℕ) : MatrixAccelTop N where
  memA := fun _ => 0#16
  memB := fun _ => 0#16
  fsm := Fsm.reset
  avsReaddataReg := 0#32
  skew := SkewBuffer.reset
  array := SystolicArray.reset

/-- `a_col_feed`. -/
def aColFeed (s : MatrixAccelTop N) (g : Fin N) : Word :=
  if h : s.fsm.stateCalc = true ∧ s.fsm.cycleCnt.toNat < N then
    s.memA (cell g ⟨s.fsm.cycleCnt.toNat, h.2⟩)
  else 0#16

/-- `b_row_feed`. -/
def bRowFeed (s : MatrixAccelTop N) (g : Fin N) : Word :=
  if h : s.fsm.stateCalc = true ∧ s.fsm.cycleCnt.toNat < N then
    s.memB (cell ⟨s.fsm.cycleCnt.toNat, h.2⟩ g)
  else 0#16

/-- `mem_C_flat`: lane `i*N + j` is wired to the accumulator of row `i`, column `j`.
RTL: system/synthesis/submodules/systolic_array.v:42 -/
def memCFlat (s : MatrixAccelTop N) (k : Fin (N * N)) : Word :=
  (s.array k.divNat k.modNat).cOut

/-- `avs_readdata_reg` after a bus cycle.
RTL: system/synthesis/submodules/matrix_accel_top_systolic_array.v:113-121 -/
def readdataNext (bus : AvsCycle) (s : MatrixAccelTop N) : BitVec 32 :=
  if bus.read then
    if bus.address = 0#14 then
      0#30 ++ BitVec.ofBool s.fsm.ctrlDone ++ BitVec.ofBool s.fsm.ctrlStart
    else if h : 0xC00 ≤ bus.address.toNat ∧ bus.address.toNat < 0xC00 + N * N then
      0#16 ++ s.memCFlat ⟨bus.address.toNat - 0xC00, Model.MatrixAccelTop.cWindow_index_lt h⟩
    else 0#32
  else s.avsReaddataReg

/-- `avs_readdata`. -/
def avsReaddata (s : MatrixAccelTop N) : BitVec 32 := s.avsReaddataReg

/-- One rising edge with `rst_n` high.
RTL: system/synthesis/submodules/matrix_accel_top_systolic_array.v:38-123 -/
def step (s : MatrixAccelTop N) (bus : AvsCycle) : MatrixAccelTop N where
  memA := Model.MatrixAccelTop.writeA bus s.memA
  memB := Model.MatrixAccelTop.writeB bus s.memB
  fsm := s.fsm.step N bus
  avsReaddataReg := s.readdataNext bus
  skew := s.skew.step s.fsm.stateCalc s.aColFeed s.bRowFeed
  array := s.array.step s.fsm.stateCalc (s.skew.aOutFlat s.aColFeed)
    (s.skew.bOutFlat s.bRowFeed)

end MatrixAccelTop

end MatrixAccelerator.Model.Qsys
