import MatrixAccelerator.Library.SerialObject
import MatrixAccelerator.Model.SharedMemory
import Mathlib.Logic.Function.Basic

/-!
# One memory, one request after another

What the two masters should see: a memory that serves a request at a time.  A store writes the
bytes it enables, a load is answered with the word that is there, and only the master that
asked is answered.  The memory block keeps its documented behaviour: a write is seen from the
next edge on, and the word at the address of an edge that does not write is shown after it.
-/

set_option autoImplicit false

namespace MatrixAccelerator.Interface

open MatrixAccelerator.Library MatrixAccelerator.Model

/-- The eight bits of an enabled byte. -/
def byteMask (enabled : Bool) : BitVec 8 := if enabled then BitVec.allOnes 8 else 0#8

/-- The bits of the enabled bytes. -/
def wordMask (byteenable : BitVec 4) : BitVec 32 :=
  byteMask (byteenable.getLsbD 3) ++ byteMask (byteenable.getLsbD 2) ++
    byteMask (byteenable.getLsbD 1) ++ byteMask (byteenable.getLsbD 0)

/-- A word with the enabled bytes of another one written over it. -/
def merged (byteenable : BitVec 4) (data old : BitVec 32) : BitVec 32 :=
  (data &&& wordMask byteenable) ||| (old &&& ~~~wordMask byteenable)

/-! ## The memory block -/

/-- What a single-port memory block with an unregistered output does. -/
structure SinglePort {σ : Type*} (ramStep : σ → RamCycle → σ) (q : σ → BitVec 32)
    (contents : σ → BitVec 13 → BitVec 32) : Prop where
  write : ∀ s r, contents (ramStep s r) =
    if r.wren then
      Function.update (contents s) r.address (merged r.byteena r.data (contents s r.address))
    else contents s
  read : ∀ s r, r.wren = false → q (ramStep s r) = contents s r.address

/-! ## The requests -/

/-- What one master asks of the memory, by word address. -/
structure MemoryRequest where
  address : BitVec 13
  byteenable : BitVec 4
  read : Bool
  write : Bool
  writedata : BitVec 32
deriving DecidableEq

/-- The request of a master whose address the router sends to the memory. -/
def memoryRequest (uav : UavCycle) : MemoryRequest where
  address := uav.address.extractLsb' 2 13
  byteenable := uav.byteenable
  read := uav.read
  write := uav.write
  writedata := uav.writedata

/-- The memory serves one request. -/
def served (contents : BitVec 13 → BitVec 32) (e : Fin 2 × MemoryRequest) :
    BitVec 13 → BitVec 32 :=
  if e.2.write then
    Function.update contents e.2.address
      (merged e.2.byteenable e.2.writedata (contents e.2.address))
  else contents

/-- What master `i` is answered when the memory serves one request. -/
def replied (i : Fin 2) (contents : BitVec 13 → BitVec 32) (e : Fin 2 × MemoryRequest) :
    List (BitVec 32) :=
  if e.2.read && decide (e.1 = i) then [contents e.2.address] else []

/-! ## What the masters see -/

section Masters

variable {σ : Type*} (q : σ → BitVec 32)

/-- The requests that pass the multiplexer in one cycle. -/
def passed (s : SharedMemory σ) (c : Fin 2 → UavCycle) : List (Fin 2 × MemoryRequest) :=
  ((List.finRange 2).filter fun i =>
    (memorySink i (c i)).valid && s.mux.sinkReady (s.muxCycle c) i).map
      fun i => (i, memoryRequest (c i))

/-- The word the agent of master `i` is answered with. -/
def answered (i : Fin 2) (s : SharedMemory σ) (_ : Fin 2 → UavCycle) : List (BitVec 32) :=
  if MasterAgent.avReaddatavalid (s.response q i) then [(s.response q i).data] else []

end Masters

/-- No master asks for both at once. -/
def Exclusive (c : Fin 2 → UavCycle) : Prop := ∀ i, (c i).write = true → (c i).read = false

/-- A master holds a request to the memory until it passes. -/
def Standing {σ : Type*} (step : SharedMemory σ → (Fin 2 → UavCycle) → SharedMemory σ)
    (s : SharedMemory σ) (input : ℕ → Fin 2 → UavCycle) : Prop :=
  ∀ t i, (memorySink i (input t i)).valid = true →
    (trace step s input t).mux.sinkReady ((trace step s input t).muxCycle (input t)) i = false →
      input (t + 1) i = input t i

end MatrixAccelerator.Interface
