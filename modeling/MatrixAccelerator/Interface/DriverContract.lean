import MatrixAccelerator.Interface.BusLog
import MatrixAccelerator.Interface.MatrixProduct
import MatrixAccelerator.Model.Driver

/-!
# What the driver relies on

Either copy of the accelerator as the driver uses it: operand memories behind their windows, a
status bit, a result window, and a latency after which a START has taken effect.  The laws say
nothing of phases or arrays.  An element of a result is made by `combine` from the operand
pairs and from the word that was in its place at the START.
-/

set_option autoImplicit false

namespace MatrixAccelerator.Interface

open MatrixAccelerator.Library MatrixAccelerator.Model

/-- The access of a write cycle. -/
def storeAccess (bus : AvsCycle) : Access := Access.store bus.address bus.writedata

namespace Access

/-- The access starts a run. -/
def isStart : Access → Bool
  | store address data => decide (address = 0#14) && data.getLsbD 0
  | load _ _ => false

/-- The access is a load. -/
def isLoad : Access → Bool
  | store _ _ => false
  | load _ _ => true

/-- `mem_A` after an access. -/
def storeA {n : ℕ} (mem : Fin (n * n) → Word) : Access → Fin (n * n) → Word
  | store address data => MatrixAccelTop.writeA ⟨address, true, data, false⟩ mem
  | load _ _ => mem

/-- `mem_B` after an access. -/
def storeB {n : ℕ} (mem : Fin (n * n) → Word) : Access → Fin (n * n) → Word
  | store address data => MatrixAccelTop.writeB ⟨address, true, data, false⟩ mem
  | load _ _ => mem

end Access

/-- A core the driver can use. -/
structure DriverContract (N : ℕ) (σ : Type) where
  step : σ → AvsCycle → σ
  readdata : σ → BitVec 32
  memA : σ → Fin (N * N) → Word
  memB : σ → Fin (N * N) → Word
  done : σ → Bool
  elements : σ → Fin N → Fin N → Word
  combine : Word → List (Word × Word) → Word
  latency : ℕ
  Sound : σ → Prop
  Resting : σ → Prop
  sound_step : ∀ s bus, Sound s → Sound (step s bus)
  memA_step : ∀ s bus, memA (step s bus) = MatrixAccelTop.writeA bus (memA s)
  memB_step : ∀ s bus, memB (step s bus) = MatrixAccelTop.writeB bus (memB s)
  status_read : ∀ s bus, bus.read = true → bus.address = 0#14 →
    (readdata (step s bus) &&& 0x02#32 ≠ 0#32 ↔ done s = true)
  element_read : ∀ s bus i j, bus.read = true → bus.address.toNat = 0xC00 + (cell i j).val →
    readdata (step s bus) = 0#16 ++ elements s i j
  rests : ∀ s l, Sound s → (∀ bus ∈ l, bus.clrPeSig = false) → latency ≤ l.length →
    Resting (run step s l)
  holds : ∀ s bus, Sound s → Resting s → bus.clrPeSig = false →
    Resting (step s bus) ∧ elements (step s bus) = elements s
  runs : ∀ s e0 l, Sound s → Resting s → e0.clrPeSig = true → (∀ bus ∈ l, bus.write = false) →
    (done (run step (step s e0) l) = true ↔ latency ≤ l.length) ∧
      (latency ≤ l.length → Resting (run step (step s e0) l) ∧
        ∀ i j, elements (run step (step s e0) l) i j =
          combine (elements s i j) (operands (memA s) (memB s) i j))

namespace DriverContract

variable {N : ℕ} {σ : Type} (K : DriverContract N σ)

/-- The log of the core under a stream of bus cycles. -/
abbrev log (s : σ) (bus : ℕ → AvsCycle) (t : ℕ) : List Access :=
  emitted K.step (performedAt K.step K.readdata) s bus t

/-- The elements after a run over A and B, when those before it were `elements`. -/
def after (A B : Fin (N * N) → Word) (elements : Fin N → Fin N → Word) (i j : Fin N) : Word :=
  K.combine (elements i j) (operands A B i j)

end DriverContract

/-- A driver run as a log has it: its operands, the polls before the last one, the word the
last one reads, and the loads of its read-out. -/
structure DriverRun (N : ℕ) where
  matrixA : Fin (N * N) → Word
  matrixB : Fin (N * N) → Word
  polls : List Access
  status : BitVec 32
  results : List Access

namespace DriverRun

variable {N : ℕ} (r : DriverRun N)

/-- The log of the run. -/
def log : List Access :=
  (Driver.commandWrites r.matrixA r.matrixB).map storeAccess ++
    (r.polls ++ Access.load 0#14 r.status :: r.results)

/-- The run only reads after its START, and its last poll reads the done bit.
RTL: Software/matrix_accel_SW/source.c:104-122 -/
structure Ended : Prop where
  polls : ∀ a ∈ r.polls, a.isLoad = true
  status : r.status &&& 0x02#32 ≠ 0#32
  results : ∀ a ∈ r.results, a.isLoad = true

/-- Every element of C read out is the one of `C`. -/
def Reads (C : Fin N → Fin N → Word) : Prop :=
  ∀ address value i j, Access.load address value ∈ r.results →
    address.toNat = 0xC00 + (cell i j).val → value = 0#16 ++ C i j

end DriverRun

end MatrixAccelerator.Interface
