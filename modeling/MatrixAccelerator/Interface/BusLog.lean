import MatrixAccelerator.Model.Interconnect

/-!
# What both ends of the interconnect see

The log of one end is the list of its accesses in order, each load with the word it
returned.  The accelerator logs the accesses its bus carries; the processor logs the accesses
to the accelerator that `waitrequest` has let go.
-/

set_option autoImplicit false

namespace MatrixAccelerator.Interface

open MatrixAccelerator.Library MatrixAccelerator.Model

/-- One access, by word address. -/
inductive Access
  | store (address : BitVec 14) (data : BitVec 32)
  | load (address : BitVec 14) (value : BitVec 32)
deriving DecidableEq

section Ends

variable {σ : Type*} (coreStep : σ → AvsCycle → σ) (readdata : σ → BitVec 32)

/-- The access of one cycle of the accelerator's bus; the word read is in the register after
the edge. -/
def performedAt (s : σ) (bus : AvsCycle) : List Access :=
  (if bus.write then [Access.store bus.address bus.writedata] else []) ++
    if bus.read then [Access.load bus.address (readdata (coreStep s bus))] else []

/-- The access an edge performs at the accelerator. -/
def performed (b : Board σ) (c : FabricCycle) : List Access :=
  performedAt coreStep readdata b.core (b.fabric.avsCycle c)

/-- The access to the accelerator the processor sees done. -/
def completed (b : Board σ) (c : FabricCycle) : List Access :=
  if !b.waitrequest readdata c && decide (srcChannel c.av.address = Slave.matrixAccel) then
    (if c.av.write then [Access.store (c.av.address.extractLsb' 2 14) c.av.writedata] else []) ++
      if c.av.read then
        [Access.load (c.av.address.extractLsb' 2 14) (b.avReaddata readdata c)]
      else []
  else []

/-- The processor keeps its side of the protocol: never both strobes, and a request stands
as long as `waitrequest` does.
RTL: system/synthesis/submodules/altera_merlin_master_translator.sv:478-479 -/
structure Protocol (b : Board σ) (input : ℕ → FabricCycle) : Prop where
  exclusive : ∀ t, (input t).av.write = true → (input t).av.read = false
  held : ∀ t, (input t).av.read = true ∨ (input t).av.write = true →
    (trace (Board.step coreStep readdata) b input t).waitrequest readdata (input t) = true →
      (input (t + 1)).av = (input t).av

end Ends

/-- Some other slave responds. -/
def responding (o : Others) : Bool := o.sink0.valid || o.sink1.valid || o.sink2.valid

/-- The other slaves respond to nothing but a read of their own. -/
def Solicited (c : FabricCycle) : Prop :=
  responding c.others = true →
    c.av.read = true ∧ srcChannel c.av.address ≠ Slave.matrixAccel

end MatrixAccelerator.Interface
