import MatrixAccelerator.Model.Top

/-!
# The driver `source.c`

The bus program of `main`, one Avalon access per clock edge.  The base offsets and the
access offsets are byte addresses; the slave's address port counts words.  `gap n` is
what the bus carries in the idle cycles before access `n`: any number of them, with
neither strobe up.  The polling loop has no bound in the source, so it is given fuel here
and its termination is a theorem.
-/

set_option autoImplicit false

namespace MatrixAccelerator.Model.Driver

open MatrixAccelerator.Library

/-- `ACCEL_CTRL_REG`, from the component's base. -/
def accelCtrlReg : ℕ := 0x000 * 4

/-- `ACCEL_MEM_A`. -/
def accelMemA : ℕ := 0x400 * 4

/-- `ACCEL_MEM_B`. -/
def accelMemB : ℕ := 0x800 * 4

/-- `ACCEL_MEM_C`. -/
def accelMemC : ℕ := 0xC00 * 4

/-- `matrix_A_fp16`.
RTL: Software/matrix_accel_SW/source.c:24-28 -/
def matrixAFp16 (i : Fin (3 * 3)) : Word :=
  [0x3E00#16, 0x4100#16, 0xB800#16, 0x3C00#16, 0x3400#16, 0xBD00#16, 0x4200#16, 0x0000#16,
    0x3C00#16].getD i.val 0#16

/-- `matrix_B_fp16`.
RTL: Software/matrix_accel_SW/source.c:31-35 -/
def matrixBFp16 (i : Fin (3 * 3)) : Word :=
  [0x3800#16, 0x3E00#16, 0xC000#16, 0x3C00#16, 0x4100#16, 0xB800#16, 0x3D00#16, 0x4000#16,
    0xBC00#16].getD i.val 0#16

/-- `IOWR_32DIRECT(base, offset, data)`. -/
def iowr32Direct (base offset : ℕ) (data : BitVec 32) : AvsCycle :=
  ⟨BitVec.ofNat 14 ((base + offset) / 4), true, data, false⟩

/-- `IORD_32DIRECT(base, offset)`. -/
def iord32Direct (base offset : ℕ) : AvsCycle :=
  ⟨BitVec.ofNat 14 ((base + offset) / 4), false, 0#32, true⟩

/-- A cycle with neither strobe up; the address and data wires carry anything. -/
def idleCycle (wires : BitVec 14 × BitVec 32) : AvsCycle := ⟨wires.1, false, wires.2, false⟩

/-- The idle cycles before each access of the program. -/
abbrev Gaps := ℕ → List (BitVec 14 × BitVec 32)

/-- The bus cycles of the accesses `n`, `n + 1`, and so on. -/
def spaced (gap : Gaps) : ℕ → List AvsCycle → List AvsCycle
  | _, [] => []
  | n, a :: as => (gap n).map idleCycle ++ a :: spaced gap (n + 1) as

variable {N : ℕ}

/-- The writes of the software reset.
RTL: Software/matrix_accel_SW/source.c:72-76 -/
def resetWrites (N : ℕ) : List AvsCycle :=
  iowr32Direct accelCtrlReg 0 0#32 ::
    (List.finRange (N * N)).map fun i => iowr32Direct accelMemC (i.val * 4) 0#32

/-- The writes that load A and then B.
RTL: Software/matrix_accel_SW/source.c:82-92 -/
def loadWrites (matrixA matrixB : Fin (N * N) → Word) : List AvsCycle :=
  ((List.finRange (N * N)).map fun i =>
      iowr32Direct accelMemA (i.val * 4) ((matrixA i).setWidth 32)) ++
    (List.finRange (N * N)).map fun i =>
      iowr32Direct accelMemB (i.val * 4) ((matrixB i).setWidth 32)

/-- The write of the START command.
RTL: Software/matrix_accel_SW/source.c:98 -/
def startWrite : AvsCycle := iowr32Direct accelCtrlReg 0 1#32

/-- Every write up to and including START. -/
def commandWrites (matrixA matrixB : Fin (N * N) → Word) : List AvsCycle :=
  resetWrites N ++ loadWrites matrixA matrixB ++ [startWrite]

/-- The state after access `n`, its idle cycles included. -/
def access (gap : Gaps) (n : ℕ) (bus : AvsCycle) (s : MatrixAccelTop N) : MatrixAccelTop N :=
  run MatrixAccelTop.step s ((gap n).map idleCycle ++ [bus])

/-- The polling loop: read CTRL until bit 1 of the word read is set.  It returns the
number of the next access and the state it leaves.
RTL: Software/matrix_accel_SW/source.c:104-110 -/
def pollLoop (gap : Gaps) : ℕ → ℕ → MatrixAccelTop N → Option (ℕ × MatrixAccelTop N)
  | 0, _, _ => none
  | fuel + 1, n, s =>
    let s' := access gap n (iord32Direct accelCtrlReg 0) s
    if s'.avsReaddata &&& 0x02#32 ≠ 0#32 then some (n + 1, s')
    else pollLoop gap fuel (n + 1) s'

/-- The indices of the two nested loops of the read-out, in order. -/
def readOrder (N : ℕ) : List (Fin N × Fin N) :=
  (List.finRange N).flatMap fun i => (List.finRange N).map fun j => (i, j)

/-- The read-out loops; each word read is cut to its low half.
RTL: Software/matrix_accel_SW/source.c:119-127 -/
def readLoop (gap : Gaps) : ℕ → List (Fin N × Fin N) → MatrixAccelTop N → List Word
  | _, [], _ => []
  | n, (i, j) :: rest, s =>
    let s' := access gap n (iord32Direct accelMemC ((i.val * N + j.val) * 4)) s
    s'.avsReaddata.extractLsb' 0 16 :: readLoop gap (n + 1) rest s'

/-- `main`, as far as the bus sees it.
RTL: Software/matrix_accel_SW/source.c:65-127 -/
def main (fuel : ℕ) (gap : Gaps) (matrixA matrixB : Fin (N * N) → Word)
    (s : MatrixAccelTop N) : Option (List Word) :=
  let s' := run MatrixAccelTop.step s (spaced gap 0 (commandWrites matrixA matrixB))
  match pollLoop gap fuel (commandWrites matrixA matrixB).length s' with
  | none => none
  | some (n, polled) => some (readLoop gap n (readOrder N) polled)

end MatrixAccelerator.Model.Driver
