import MatrixAccelerator.Interface.BusRequest
import MatrixAccelerator.Interface.Feed
import MatrixAccelerator.Library.SynchronousMachine

/-!
# What the accelerator is for

The accelerator without its array: three matrices, two status bits and a job.  A job is fed
a column of A and a row of B on each of its first `N` counts, sums, and then returns the
columns of the result from the last to the first, one every second count.  Nothing is
sequenced by data: what a START does to a job under way is part of the machine, as it is
part of the hardware.  While summing, it drops all operands that have reached the array and
the count goes on; while returning, it begins a sum in which the indices up to the present
count are missing.
-/

set_option autoImplicit false

namespace MatrixAccelerator.Interface

open MatrixAccelerator.Library MatrixAccelerator.Model

/-- What the machine is doing.  A sum is at count `c`, has been fed `fed k` on count `k`,
and was last cleared on count `cleared - 1`. -/
inductive Job (N : ℕ)
  | idle
  | summing (c cleared : ℕ) (fed : Feed N)
  | returning (c : ℕ) (result : Fin N → Fin N → Word)

variable {N : ℕ}

/-- Element `(i, j)` of a sum at count `c`: index `k` reaches the array only `min i j`
counts after it is fed, and a clear drops what has. -/
def summed (c cleared : ℕ) (fed : Feed N) (i j : Fin N) : Word :=
  macFold 0#16 (((List.range c).drop (cleared - min i.val j.val)).map (fed.pair i j))

namespace Job

/-- The last count of a job. -/
def last : Job N → Bool
  | returning c _ => decide (c = 2 * N)
  | _ => false

/-- One edge. -/
def step (A B : Fin N → Fin N → Word) (start : Bool) : Job N → Job N
  | idle => if start then summing 0 0 Feed.nothing else idle
  | summing c cleared fed =>
    let fed' := Function.update fed c (columnAndRow A B c)
    let cleared' := if start then c + 1 else cleared
    if c = 3 * N + 2 then returning 0 (summed (c + 1) cleared' fed')
    else summing (c + 1) cleared' fed'
  | returning c result =>
    if start then summing (c + 1) 0 Feed.nothing
    else if c = 2 * N then idle
    else returning (c + 1) result

/-- The result matrix after an edge. -/
def returned (C : Fin N → Fin N → Word) : Job N → Fin N → Fin N → Word
  | returning c result => fun i j => if c = 2 * (N - 1 - j.val) + 1 then result i j else C i j
  | _ => C

end Job

/-- The machine. -/
structure Multiplier (N : ℕ) where
  A : Fin N → Fin N → Word
  B : Fin N → Fin N → Word
  C : Fin N → Fin N → Word
  job : Job N
  started : Bool
  done : Bool
  shown : BitVec 32

namespace Multiplier

/-- After reset. -/
def reset (N : ℕ) : Multiplier N where
  A := fun _ _ => 0#16
  B := fun _ _ => 0#16
  C := fun _ _ => 0#16
  job := Job.idle
  started := false
  done := false
  shown := 0#32

/-- One edge. -/
def step (m : Multiplier N) (r : Request N) : Multiplier N where
  A := r.command.storedA m.A
  B := r.command.storedB m.B
  C := m.job.returned m.C
  job := m.job.step m.A m.B r.command.isStart
  started := !m.job.last && r.command.startBit m.started
  done := m.job.last || (!r.command.isStart && m.done)
  shown := r.query.answer (m.done, m.started) m.C m.shown

end Multiplier

end MatrixAccelerator.Interface
