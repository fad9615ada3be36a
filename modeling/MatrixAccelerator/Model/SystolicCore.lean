import MatrixAccelerator.Library.DelayLine
import MatrixAccelerator.Model.Fp16

/-!
# The data path: `skew_buffer`, `pe_fp16`, `systolic_array`

The three modules between the operand memories and the result memory.  A flat bus of
`N` sixteen-bit lanes is a function on `Fin N`; a register file inside a generate loop
is a function of the loop's index.  Each module is its registers, its reset value and
what one rising edge does to it, with the input wires as arguments.
-/

set_option autoImplicit false

namespace MatrixAccelerator.Model

open MatrixAccelerator.Library

/-- The registers of `skew_buffer`: `i` words in lane `i` of each side, so none in
lane 0, which the source wires through. -/
@[ext] structure SkewBuffer (N : ℕ) where
  delayA : (i : Fin N) → Fin i → Word
  delayB : (i : Fin N) → Fin i → Word

namespace SkewBuffer

variable {N : ℕ}

def reset : SkewBuffer N := ⟨fun _ _ => 0#16, fun _ _ => 0#16⟩

/-- One edge: `delay[0]` takes the lane's input and `delay[k]` takes `delay[k-1]`.
RTL: skew_buffer.v:21-26, 38-43 -/
def step (en : Bool) (aInFlat bInFlat : Fin N → Word) (s : SkewBuffer N) : SkewBuffer N :=
  if en then
    { delayA := fun i => DelayLine.shift (s.delayA i) (aInFlat i)
      delayB := fun i => DelayLine.shift (s.delayB i) (bInFlat i) }
  else s

/-- `a_out_flat`: the last register of the lane, or the input itself in lane 0.
RTL: skew_buffer.v:15, 28 -/
def aOutFlat (s : SkewBuffer N) (aInFlat : Fin N → Word) (i : Fin N) : Word :=
  DelayLine.output (aInFlat i) (s.delayA i)

/-- `b_out_flat`.
RTL: skew_buffer.v:35, 45 -/
def bOutFlat (s : SkewBuffer N) (bInFlat : Fin N → Word) (i : Fin N) : Word :=
  DelayLine.output (bInFlat i) (s.delayB i)

end SkewBuffer

/-- The registers of `pe_fp16`. -/
@[ext] structure PeFp16 where
  aOut : Word
  bOut : Word
  cReg : Word
deriving DecidableEq

namespace PeFp16

def reset : PeFp16 := ⟨0#16, 0#16, 0#16⟩

/-- One edge.  `clr` wins over `en`; while draining, `a_out` carries the accumulator to
the right and the accumulator takes what the left neighbour sends.
RTL: pe_fp16.v:24-45 -/
def step (clr en drainEn : Bool) (aIn bIn : Word) (pe : PeFp16) : PeFp16 :=
  if clr then reset
  else if en then
    if drainEn then { aOut := pe.cReg, bOut := bIn, cReg := aIn }
    else { aOut := aIn, bOut := bIn, cReg := fp16Mac aIn bIn pe.cReg }
  else pe

end PeFp16

/-- The registers of `systolic_array`: the processing element of every row and column. -/
abbrev SystolicArray (N : ℕ) := Fin N → Fin N → PeFp16

namespace SystolicArray

variable {N : ℕ}

def reset : SystolicArray N := fun _ _ => PeFp16.reset

/-- `a_wire[i][0..N]`: the left edge, then the `a_out` of each column.
RTL: systolic_array.v:20, 41 -/
def aWire (s : SystolicArray N) (aLeftIn : Fin N → Word) (i : Fin N) : Fin (N + 1) → Word :=
  DelayLine.taps (aLeftIn i) (fun j => (s i j).aOut)

/-- `b_wire[0..N][j]`: the top edge, then the `b_out` of each row.
RTL: systolic_array.v:21, 42 -/
def bWire (s : SystolicArray N) (bTopIn : Fin N → Word) (j : Fin N) : Fin (N + 1) → Word :=
  DelayLine.taps (bTopIn j) (fun i => (s i j).bOut)

/-- One edge of every processing element.
RTL: systolic_array.v:25-48 -/
def step (clr en drainEn : Bool) (aLeftIn bTopIn : Fin N → Word) (s : SystolicArray N) :
    SystolicArray N :=
  fun i j => (s i j).step clr en drainEn (s.aWire aLeftIn i j.castSucc)
    (s.bWire bTopIn j i.castSucc)

/-- `c_right_out`: the wires past the last column.
RTL: systolic_array.v:51-57 -/
def cRightOut (s : SystolicArray N) (aLeftIn : Fin N → Word) (k : Fin N) : Word :=
  s.aWire aLeftIn k (Fin.last N)

end SystolicArray

/-- `skew_buffer` feeding `systolic_array`, as the top module connects them. -/
@[ext] structure SystolicCore (N : ℕ) where
  skew : SkewBuffer N
  array : SystolicArray N

namespace SystolicCore

variable {N : ℕ}

def reset : SystolicCore N := ⟨SkewBuffer.reset, SystolicArray.reset⟩

/-- One edge of both instances.  `skewEn` is the enable of the skew buffer, `en` that of
the array; the array's edges are the skewed lanes of this cycle.
RTL: matrix_accel_top_systolic_array.v:71-89 -/
def step (clr skewEn en drainEn : Bool) (aInFlat bInFlat : Fin N → Word)
    (s : SystolicCore N) : SystolicCore N where
  skew := s.skew.step skewEn aInFlat bInFlat
  array := s.array.step clr en drainEn (s.skew.aOutFlat aInFlat) (s.skew.bOutFlat bInFlat)

end SystolicCore

end MatrixAccelerator.Model
