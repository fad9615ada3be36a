import MatrixAccelerator.Interface.BusLog
import MatrixAccelerator.Model.Driver

/-!
# A program played on the data master

A processor that issues the accesses of a program one after the other, as fast as the
interconnect lets it: each stands for two cycles.  The other slaves are silent.
-/

set_option autoImplicit false

namespace MatrixAccelerator.Interface

open MatrixAccelerator.Library MatrixAccelerator.Model

/-- The other slaves ready, and without a response. -/
def silentOthers : Others :=
  ⟨true, true, true, ⟨false, 0#32, false⟩, ⟨false, 0#32, false⟩, ⟨false, 0#32, false⟩⟩

/-- The data master's request for an access of the accelerator's bus.
RTL: Software/matrix_accel_SW_bsp/system.h:202 -/
def request (bus : AvsCycle) : AvmCycle :=
  ⟨0#2 ++ bus.address ++ 0#2, 0xF#4, bus.read, bus.write, bus.writedata⟩

/-- A cycle in which the access stands. -/
def asking (bus : AvsCycle) : FabricCycle := ⟨request bus, silentOthers⟩

/-- A cycle without an access. -/
def noAccess : AvsCycle := Driver.idleCycle (0#14, 0#32)

/-- The program as a stream of accesses. -/
def accessAt (program : List AvsCycle) (k : ℕ) : AvsCycle := program.getD k noAccess

/-- The cycles of the program: out of reset the processor waits for one cycle. -/
def played (program : List AvsCycle) : ℕ → FabricCycle
  | 0 => asking noAccess
  | t + 1 => asking (accessAt program (t / 2))

/-- The access with its strobes taken back. -/
def released (bus : AvsCycle) : AvsCycle := ⟨bus.address, false, bus.writedata, false⟩

/-- A poll of the driver. -/
def statusRead : AvsCycle := Driver.iord32Direct Driver.accelCtrlReg 0

/-- A read of the driver's read-out. -/
def elementRead {N : ℕ} (p : Fin N × Fin N) : AvsCycle :=
  Driver.iord32Direct Driver.accelMemC ((p.1.val * N + p.2.val) * 4)

/-- The driver with `polls` polls before the last one.
RTL: Software/matrix_accel_SW/source.c:65-127 -/
def driverProgram {N : ℕ} (polls : ℕ) (A B : Fin (N * N) → Word) : List AvsCycle :=
  Driver.commandWrites A B ++
    (List.replicate polls statusRead ++ statusRead :: (Driver.readOrder N).map elementRead)

/-- Driver programs one after the other. -/
def driverPrograms {N : ℕ} (polls : ℕ)
    (runs : List ((Fin (N * N) → Word) × (Fin (N * N) → Word))) : List AvsCycle :=
  runs.flatMap fun p => driverProgram polls p.1 p.2

/-- The accelerator over the two cycles of an access. -/
def slotStep {σ : Type*} (coreStep : σ → AvsCycle → σ) (s : σ) (bus : AvsCycle) : σ :=
  coreStep (coreStep s bus) (released bus)

end MatrixAccelerator.Interface
