import MatrixAccelerator.Interface.BusRequest
import MatrixAccelerator.Interface.Feed
import MatrixAccelerator.Library.SynchronousMachine

/-!
# What the Qsys copy is for

The Qsys copy without its array: two operand matrices, a matrix of sums that nothing but
reset clears, and a tally of what the run under way has been fed.  The bus reads the sums
while they grow: by count `c`, element `(i, j)` has taken the first `c - (i + j)` pairs.  A
START during a run moves the two status bits and nothing else.
-/

set_option autoImplicit false

namespace MatrixAccelerator.Interface

open MatrixAccelerator.Library MatrixAccelerator.Model

/-- No run, or a run at count `c` that was fed `fed k` on count `k`. -/
inductive Tally (N : ℕ)
  | resting
  | adding (c : ℕ) (fed : Feed N)

variable {N : ℕ}

namespace Tally

/-- The sums, when those before the run were `base`. -/
def sums (base : Fin N → Fin N → Word) : Tally N → Fin N → Fin N → Word
  | resting => base
  | adding c fed => fun i j =>
    macFold (base i j) ((List.range (c - (i.val + j.val))).map (fed.pair i j))

/-- The next count is fed. -/
def feed (A B : Fin N → Fin N → Word) : Tally N → Tally N
  | resting => resting
  | adding c fed => adding (c + 1) (Function.update fed c (columnAndRow A B c))

/-- The last count of a run. -/
def last : Tally N → Bool
  | adding c _ => decide (c = 3 * N + 2)
  | resting => false

/-- One edge. -/
def step (A B : Fin N → Fin N → Word) (start : Bool) (t : Tally N) : Tally N :=
  match t with
  | resting => if start then adding 0 Feed.nothing else resting
  | adding _ _ => if t.last then resting else t.feed A B

end Tally

/-- The machine. -/
structure RunningSums (N : ℕ) where
  A : Fin N → Fin N → Word
  B : Fin N → Fin N → Word
  base : Fin N → Fin N → Word
  tally : Tally N
  started : Bool
  done : Bool
  shown : BitVec 32

namespace RunningSums

/-- After reset. -/
def reset (N : ℕ) : RunningSums N where
  A := fun _ _ => 0#16
  B := fun _ _ => 0#16
  base := fun _ _ => 0#16
  tally := Tally.resting
  started := false
  done := false
  shown := 0#32

/-- The sums the bus reads. -/
def C (m : RunningSums N) : Fin N → Fin N → Word := m.tally.sums m.base

/-- One edge. -/
def step (m : RunningSums N) (r : Request N) : RunningSums N where
  A := r.command.storedA m.A
  B := r.command.storedB m.B
  base := if m.tally.last then (m.tally.feed m.A m.B).sums m.base else m.base
  tally := m.tally.step m.A m.B r.command.isStart
  started := !m.tally.last && r.command.startBit m.started
  done := m.tally.last || (!r.command.isStart && m.done)
  shown := r.query.answer (m.done, m.started) m.C m.shown

/-! ## A run from its START to its end -/

/-- The machine `t` edges after `m` under the requests `r`. -/
abbrev after (m : RunningSums N) (r : ℕ → Request N) (t : ℕ) : RunningSums N := trace step m r t

/-- What a run begun in `m` has been fed by count `t`. -/
def fedBy (m : RunningSums N) (r : ℕ → Request N) (t : ℕ) : Feed N :=
  Feed.upTo (fun k => (m.after r k).A) (fun k => (m.after r k).B) t

section Runs

variable {m : RunningSums N} {r : ℕ → Request N}

/-- **The run.**  No request moves its counts. -/
theorem tally_adding (h : m.tally = Tally.adding 0 Feed.nothing) {t : ℕ}
    (ht : t ≤ 3 * N + 2) :
    (m.after r t).tally = Tally.adding t (m.fedBy r t) ∧ (m.after r t).base = m.base := by
  induction t with
  | zero => exact ⟨h, rfl⟩
  | succ t ih =>
    obtain ⟨htally, hbase⟩ := ih (by omega)
    have hlast : (Tally.adding t (m.fedBy r t)).last = false := decide_eq_false (by omega)
    rw [after, trace_succ]
    constructor
    · simp only [step, htally, Tally.step, hlast, Bool.false_eq_true, if_false, Tally.feed]
      rw [fedBy, Feed.update_upTo, fedBy]
    · simp only [step, htally, hlast, Bool.false_eq_true, if_false, hbase]

/-- INTERNAL: On its last count it goes into the sums. -/
theorem tally_ends (h : m.tally = Tally.adding 0 Feed.nothing) :
    (m.after r (3 * N + 3)).tally = Tally.resting ∧ (m.after r (3 * N + 3)).done = true ∧
      (m.after r (3 * N + 3)).base =
        (Tally.adding (3 * N + 3) (m.fedBy r (3 * N + 3))).sums m.base := by
  obtain ⟨htally, hbase⟩ := tally_adding (r := r) h le_rfl
  have hlast : (Tally.adding (3 * N + 2) (m.fedBy r (3 * N + 2))).last = true := decide_eq_true rfl
  rw [after, trace_succ]
  refine ⟨?_, ?_, ?_⟩
  · simp only [step, htally, Tally.step, hlast, if_true]
  · simp only [step, htally, hlast, Bool.true_or]
  · simp only [step, htally, hlast, if_true, hbase, Tally.feed]
    rw [fedBy, Feed.update_upTo, fedBy]

/-- **The sums while they grow.** -/
theorem C_growing (h : m.tally = Tally.adding 0 Feed.nothing) {t : ℕ}
    (ht : t ≤ 3 * N + 3) : (m.after r t).C = (Tally.adding t (m.fedBy r t)).sums m.base := by
  by_cases hlast : t ≤ 3 * N + 2
  · obtain ⟨htally, hbase⟩ := tally_adding (r := r) h hlast
    rw [C, htally, hbase]
  · obtain rfl : t = 3 * N + 3 := by omega
    obtain ⟨htally, -, hbase⟩ := tally_ends (r := r) h
    rw [C, htally, hbase]
    rfl

/-- INTERNAL: The done bit stays down until the last count. -/
theorem done_adding (h : m.tally = Tally.adding 0 Feed.nothing)
    (hdone : m.done = false) {t : ℕ} (ht : t < 3 * N + 3) : (m.after r t).done = false := by
  apply trace_invariant step m (P := fun _ x => x.done = false) hdone
  intro u hu hbusy
  have hlast : (m.after r u).tally.last = false := by
    rw [(tally_adding (r := r) h (by omega)).1]
    exact decide_eq_false (by omega)
  rw [trace_succ]
  simp only [step, hlast, hbusy, Bool.and_false, Bool.or_false]

/-- The pairs an element has taken, as operands. -/
theorem sums_fedBy (n : ℕ) (base : Fin N → Fin N → Word) (i j : Fin N) :
    (Tally.adding n (m.fedBy r n)).sums base i j =
      macFold (base i j) (((List.finRange N).map fun k =>
        ((m.after r k.val).A i k, (m.after r k.val).B k j)).take (n - (i.val + j.val))) := by
  have hpairs := Feed.macFold_upTo (fun k => (m.after r k).A) (fun k => (m.after r k).B) (base i j)
    i j (d := 0) (Nat.sub_le n (i.val + j.val))
  rwa [List.drop_zero, List.drop_zero] at hpairs

end Runs

end RunningSums

end MatrixAccelerator.Interface
