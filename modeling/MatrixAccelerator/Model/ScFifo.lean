import MatrixAccelerator.Library.BoundedQueue

/-!
# The response FIFO `altera_avalon_sc_fifo`

As every response FIFO of the system is configured: registers in place of a memory block, an
empty latency of 1, no store-and-forward, no fill level, no flags.  The depth is a parameter,
two or more; `mem` is the file of words from the output on, and `mem_used` says which of
them hold an item.
-/

set_option autoImplicit false

namespace MatrixAccelerator.Model

open MatrixAccelerator.Library

/-- The registers, for `FIFO_DEPTH = n + 2`. -/
@[ext] structure ScFifo (n : ℕ) (α : Type*) where
  mem : Fin (n + 2) → α
  memUsed : Fin (n + 2) → Bool

namespace ScFifo

variable {n : ℕ} {α : Type*}

/-- The registers while `reset` is high; `zero` is the payload of all zeros. -/
def reset (n : ℕ) (zero : α) : ScFifo n α := ⟨fun _ => zero, fun _ => false⟩

/-- `out_valid`, the complement of `empty`.
RTL: system/synthesis/submodules/altera_avalon_sc_fifo.v:493-495, 548-552, 593-598 -/
def outValid (s : ScFifo n α) : Bool := s.memUsed 0

/-- `out_payload`. -/
def outPayload (s : ScFifo n α) : α := s.mem 0

/-- `in_ready`. -/
def inReady (s : ScFifo n α) : Bool := !s.memUsed (Fin.last (n + 1))

/-- `read`. -/
def read (s : ScFifo n α) (outReady : Bool) : Bool := (outReady || !s.outValid) && s.outValid

/-- `write`. -/
def write (s : ScFifo n α) (inValid : Bool) : Bool := s.inReady && inValid

theorem next_lt {i : Fin (n + 2)} (h : i ≠ Fin.last (n + 1)) : i.val + 1 < n + 2 := by
  have hlt := i.isLt
  have hne : i.val ≠ n + 1 := fun heq => h (Fin.ext heq)
  omega

theorem previous_lt (i : Fin (n + 2)) : i.val - 1 < n + 2 :=
  Nat.lt_of_le_of_lt (Nat.sub_le _ _) i.isLt

/-- One rising edge with `reset` low.
RTL: system/synthesis/submodules/altera_avalon_sc_fifo.v:304-333, 371-422 -/
def step (s : ScFifo n α) (o : Offer α) : ScFifo n α where
  mem i :=
    if h : i = Fin.last (n + 1) then if s.memUsed i then s.mem i else o.inPayload
    else if s.read o.outReady || !s.memUsed i then
      if s.memUsed ⟨i.val + 1, next_lt h⟩ then s.mem ⟨i.val + 1, next_lt h⟩ else o.inPayload
    else s.mem i
  memUsed i :=
    if s.write o.inValid ^^ s.read o.outReady then
      if i = 0 then if s.write o.inValid then true else s.memUsed 1
      else if h : i = Fin.last (n + 1) then
        if s.write o.inValid then s.memUsed ⟨i.val - 1, previous_lt i⟩ else false
      else if s.write o.inValid then s.memUsed ⟨i.val - 1, previous_lt i⟩
      else s.memUsed ⟨i.val + 1, next_lt h⟩
    else s.memUsed i

end ScFifo

end MatrixAccelerator.Model
