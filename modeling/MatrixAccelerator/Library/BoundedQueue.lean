import MatrixAccelerator.Library.SynchronousMachine
import Mathlib.Data.List.Basic

/-!
# A bounded queue between two handshakes

A queue that takes an item when one is offered and there is room before the edge, and gives
its head when the other side is ready.  Nothing is lost, doubled or overtaken: what was held
and what was taken since are, in this order, what was given since and what is held
(`conservation`).
-/

set_option autoImplicit false

namespace MatrixAccelerator.Library

/-- What the two sides of a queue show it in one cycle. -/
structure Offer (α : Type*) where
  inValid : Bool
  inPayload : α
  outReady : Bool

namespace BoundedQueue

variable {α : Type*}

/-- The head is given. -/
def gives (q : List α) (o : Offer α) : Bool := o.outReady && !q.isEmpty

/-- The offered item is taken. -/
def takes (depth : ℕ) (q : List α) (o : Offer α) : Bool := o.inValid && decide (q.length < depth)

/-- One edge. -/
def step (depth : ℕ) (q : List α) (o : Offer α) : List α :=
  (if gives q o then q.tail else q) ++ if takes depth q o then [o.inPayload] else []

/-- What an edge takes. -/
def taken (depth : ℕ) (q : List α) (o : Offer α) : List α :=
  if takes depth q o then [o.inPayload] else []

/-- What an edge gives. -/
def given (q : List α) (o : Offer α) : List α := if gives q o then q.head?.toList else []

theorem step_eq (depth : ℕ) (q : List α) (o : Offer α) :
    step depth q o = (if gives q o then q.tail else q) ++ taken depth q o := rfl

/-- The depth is never exceeded. -/
theorem length_step_le {depth : ℕ} {q : List α} (h : q.length ≤ depth) (o : Offer α) :
    (step depth q o).length ≤ depth := by
  unfold step
  rw [List.length_append]
  have htail : (if gives q o then q.tail else q).length ≤ q.length := by
    split
    · rw [List.length_tail]
      omega
    · exact Nat.le_refl _
  cases htakes : takes depth q o with
  | false => simpa using Nat.le_trans htail h
  | true =>
    have hroom : q.length < depth := by
      simp only [takes, Bool.and_eq_true, decide_eq_true_eq] at htakes
      exact htakes.2
    simp only [if_true, List.length_singleton]
    omega

/-- What is held and taken is what is given and still held, in that order. -/
theorem step_conserves (depth : ℕ) (q : List α) (o : Offer α) :
    q ++ taken depth q o = given q o ++ step depth q o := by
  unfold given step taken
  cases hgives : gives q o with
  | false => rfl
  | true =>
    cases q with
    | nil => simp [gives] at hgives
    | cons x q => rfl

/-- **Conservation.** -/
theorem conservation (depth : ℕ) (q : List α) (input : ℕ → Offer α) (n : ℕ) :
    q ++ emitted (step depth) (taken depth) q input n =
      emitted (step depth) given q input n ++ trace (step depth) q input n := by
  induction n with
  | zero => rw [emitted, emitted, List.append_nil, List.nil_append, trace_zero]
  | succ n ih =>
    rw [emitted, emitted, ← List.append_assoc, ih, List.append_assoc, step_conserves,
      List.append_assoc, trace_succ]

end BoundedQueue

end MatrixAccelerator.Library
