import MatrixAccelerator.Model.Top

/-!
# What a bus cycle asks for

The register map, read once: a cycle carries at most one command and at most one query.  A
command starts the machine, takes the start bit back, or stores a word of A or of B; a query
asks for the status or for an element of the result.  The two operand windows overlap for
`N > 32`, where A is decoded first.
-/

set_option autoImplicit false

namespace MatrixAccelerator.Interface

open MatrixAccelerator.Model

/-- What the write half of a bus cycle orders. -/
inductive Command (N : ℕ)
  | nothing
  | start
  | unstart
  | storeA (i j : Fin N) (w : Word)
  | storeB (i j : Fin N) (w : Word)

/-- What the read half of a bus cycle asks. -/
inductive Query (N : ℕ)
  | nothing
  | status
  | element (i j : Fin N)
  | unmapped

/-- A bus cycle, decoded. -/
structure Request (N : ℕ) where
  command : Command N
  query : Query N

variable {N : ℕ}

/-- The command starts a run. -/
def Command.isStart : Command N → Bool
  | start => true
  | _ => false

theorem window_index_lt {base n a : ℕ} (h : base ≤ a ∧ a < base + n) : a - base < n := by omega

/-- The row and the column of word `a` of a window of `N * N` words at `base`. -/
def windowElement (N base a : ℕ) : Option (Fin N × Fin N) :=
  if h : base ≤ a ∧ a < base + N * N then
    some (Fin.divNat ⟨a - base, window_index_lt h⟩, Fin.modNat ⟨a - base, window_index_lt h⟩)
  else none

/-- The word a write outside the control register stores: the window of A is decoded first.
RTL: matrix_accel_top_systolic_array.v:158-164 -/
def storeOf (bus : AvsCycle) : Command N :=
  match windowElement N 0x400 bus.address.toNat, windowElement N 0x800 bus.address.toNat with
  | some (i, j), _ => Command.storeA i j (bus.writedata.extractLsb' 0 16)
  | none, some (i, j) => Command.storeB i j (bus.writedata.extractLsb' 0 16)
  | none, none => Command.nothing

/-- The write decode.
RTL: matrix_accel_top_systolic_array.v:106-114, 158-164 -/
def commandOf (bus : AvsCycle) : Command N :=
  if bus.write then
    if bus.address = 0#14 then
      if bus.writedata.getLsbD 0 then Command.start else Command.unstart
    else storeOf bus
  else Command.nothing

/-- The read decode.
RTL: matrix_accel_top_systolic_array.v:167-175 -/
def queryOf (bus : AvsCycle) : Query N :=
  if bus.read then
    if bus.address = 0#14 then Query.status
    else
      match windowElement N 0xC00 bus.address.toNat with
      | some (i, j) => Query.element i j
      | none => Query.unmapped
  else Query.nothing

/-- What a cycle of the bus asks for. -/
def requestOf (bus : AvsCycle) : Request N := ⟨commandOf bus, queryOf bus⟩

/-- The word a query is answered with, by a machine that shows `old` on its port. -/
def Query.answer (status : Bool × Bool) (C : Fin N → Fin N → Word) (old : BitVec 32) :
    Query N → BitVec 32
  | nothing => old
  | Query.status => 0#30 ++ BitVec.ofBool status.1 ++ BitVec.ofBool status.2
  | element i j => 0#16 ++ C i j
  | unmapped => 0#32

/-- An operand matrix after a store. -/
def setEntry (M : Fin N → Fin N → Word) (i j : Fin N) (w : Word) : Fin N → Fin N → Word :=
  Function.update M i (Function.update (M i) j w)

/-- A after a command. -/
def Command.storedA (M : Fin N → Fin N → Word) : Command N → Fin N → Fin N → Word
  | storeA i j w => setEntry M i j w
  | _ => M

/-- B after a command. -/
def Command.storedB (M : Fin N → Fin N → Word) : Command N → Fin N → Fin N → Word
  | storeB i j w => setEntry M i j w
  | _ => M

/-- The start bit after a command. -/
def Command.startBit (old : Bool) : Command N → Bool
  | start => true
  | unstart => false
  | _ => old

end MatrixAccelerator.Interface
