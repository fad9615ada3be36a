import MatrixAccelerator.Library.Simulation
import MatrixAccelerator.Model.ScFifo

/-!
# The response FIFO keeps a queue

The occupancy bits count the items from the output on, and the words they mark are the items in
order of arrival.  Every edge keeps that reading, so from reset on the ports behave as a
queue bounded by the depth: what was accepted is what was delivered followed by what is held.
-/

set_option autoImplicit false

namespace MatrixAccelerator.Analysis

open MatrixAccelerator.Library MatrixAccelerator.Model

variable {n : ℕ} {α : Type*} {s : ScFifo n α} {q : List α}

/-- The registers hold the queue `q`, its head at the output. -/
structure Holds (s : ScFifo n α) (q : List α) : Prop where
  room : q.length ≤ n + 2
  used : ∀ i, s.memUsed i = decide (i.val < q.length)
  word : ∀ i, i.val < q.length → q[i.val]? = some (s.mem i)

/-- The word an edge accepts. -/
def accepted (s : ScFifo n α) (o : Offer α) : List α :=
  if s.write o.inValid then [o.inPayload] else []

/-- The word an edge delivers. -/
def delivered (s : ScFifo n α) (o : Offer α) : List α :=
  if s.read o.outReady then [s.outPayload] else []

namespace Holds

/-- An empty FIFO holds the empty queue. -/
theorem reset (n : ℕ) (zero : α) : Holds (ScFifo.reset n zero) [] where
  room := Nat.zero_le _
  used i := by simp [ScFifo.reset]
  word i h := absurd h (Nat.not_lt_zero _)

/-! ## The ports -/

/-- The FIFO shows an entry when the queue has one. -/
theorem outValid_eq (h : Holds s q) : s.outValid = !q.isEmpty := by
  rw [ScFifo.outValid, h.used]
  cases q with
  | nil => rfl
  | cons x q => simp

/-- The FIFO has room when the queue does. -/
theorem inReady_eq (h : Holds s q) : s.inReady = decide (q.length < n + 2) := by
  rw [ScFifo.inReady, h.used, Fin.val_last, ← decide_not]
  have hroom := h.room
  apply decide_eq_decide.mpr
  omega

/-- It is read when the queue gives an entry. -/
theorem read_eq (h : Holds s q) (o : Offer α) :
    s.read o.outReady = BoundedQueue.gives q o := by
  rw [ScFifo.read, h.outValid_eq, BoundedQueue.gives]
  cases o.outReady <;> cases q.isEmpty <;> rfl

/-- It is written when the queue takes one. -/
theorem write_eq (h : Holds s q) (o : Offer α) :
    s.write o.inValid = BoundedQueue.takes (n + 2) q o := by
  rw [ScFifo.write, h.inReady_eq, BoundedQueue.takes, Bool.and_comm]

/-- The entry it shows is the head of the queue. -/
theorem head?_eq (h : Holds s q) (hvalid : s.outValid = true) : q.head? = some s.outPayload := by
  rw [h.outValid_eq] at hvalid
  cases q with
  | nil => cases hvalid
  | cons x q =>
    exact h.word 0 (Nat.zero_lt_succ _)

/-- It accepts what the queue takes. -/
theorem accepted_eq (h : Holds s q) (o : Offer α) :
    accepted s o = BoundedQueue.taken (n + 2) q o := by
  rw [accepted, h.write_eq, BoundedQueue.taken]

/-- It delivers what the queue gives. -/
theorem delivered_eq (h : Holds s q) (o : Offer α) : delivered s o = BoundedQueue.given q o := by
  rw [delivered, h.read_eq, BoundedQueue.given]
  cases hgives : BoundedQueue.gives q o with
  | false => rfl
  | true =>
    have hvalid : s.outValid = true := by
      rw [BoundedQueue.gives, Bool.and_eq_true] at hgives
      rw [h.outValid_eq, hgives.2]
    rw [h.head?_eq hvalid]
    rfl

/-! ## One edge -/

/-- The length of the queue after a cycle, by the read and the write. -/
theorem length_step (h : Holds s q) (o : Offer α) :
    (BoundedQueue.step (n + 2) q o).length + (if s.read o.outReady then 1 else 0) =
      q.length + if s.write o.inValid then 1 else 0 := by
  have hconserve := congrArg List.length (BoundedQueue.step_conserves (n + 2) q o)
  rw [← h.accepted_eq, ← h.delivered_eq, List.length_append, List.length_append, accepted,
    delivered] at hconserve
  rw [apply_ite List.length, apply_ite List.length] at hconserve
  simp only [List.length_singleton, List.length_nil] at hconserve
  omega

theorem write_room (h : Holds s q) {o : Offer α} (hwrite : s.write o.inValid = true) :
    q.length < n + 2 := by
  rw [ScFifo.write, h.inReady_eq, Bool.and_eq_true, decide_eq_true_eq] at hwrite
  exact hwrite.1

theorem read_pos (h : Holds s q) {o : Offer α} (hread : s.read o.outReady = true) :
    0 < q.length := by
  rw [h.read_eq, BoundedQueue.gives, Bool.and_eq_true] at hread
  cases q with
  | nil => cases hread.2
  | cons x q => exact Nat.zero_lt_succ _

/-- The occupancy bits shift up on a lone write, down on a lone read, and count on. -/
theorem used_step (h : Holds s q) (o : Offer α) (i : Fin (n + 2)) :
    (s.step o).memUsed i = decide (i.val < (BoundedQueue.step (n + 2) q o).length) := by
  have hlength := h.length_step o
  have hroom := h.room
  have hi := i.isLt
  have hzero : i = 0 ↔ i.val = 0 := Fin.ext_iff
  have hlast : i = Fin.last (n + 1) ↔ i.val = n + 1 := Fin.ext_iff
  have hone : (1 : Fin (n + 2)).val = 1 := rfl
  unfold ScFifo.step
  simp only [h.used, hone]
  cases hw : s.write o.inValid <;> cases hr : s.read o.outReady <;>
    simp only [hw, hr, Bool.false_eq_true, if_true, if_false, Nat.add_zero] at hlength ⊢
  -- only a write or a read alone moves the used bits, by one place
  case false.false => rw [hlength]; rfl
  case true.true => rw [Nat.add_right_cancel hlength]; rfl
  case false.true =>
    have hpos := h.read_pos hr
    rw [if_pos (Bool.false_xor true)]
    by_cases hi0 : i = 0
    · rw [if_pos hi0]
      exact decide_eq_decide.mpr (by omega)
    · rw [if_neg hi0]
      by_cases hil : i = Fin.last (n + 1)
      · rw [dif_pos hil]
        exact (decide_eq_false (by omega)).symm
      · rw [dif_neg hil]
        exact decide_eq_decide.mpr (by omega)
  case true.false =>
    have hlt := h.write_room hw
    rw [if_pos (Bool.xor_false true)]
    by_cases hi0 : i = 0
    · rw [if_pos hi0]
      exact (decide_eq_true (by omega)).symm
    · rw [if_neg hi0]
      by_cases hil : i = Fin.last (n + 1)
      · rw [dif_pos hil]
        exact decide_eq_decide.mpr (by omega)
      · rw [dif_neg hil]
        exact decide_eq_decide.mpr (by omega)

/-- A word past the ones that stay is the arriving one. -/
theorem arriving (h : Holds s q) (o : Offer α) {kept : List α} {i : ℕ} (hkept : kept.length ≤ i)
    (hi : i < (kept ++ accepted s o).length) :
    i = kept.length ∧ q.length < n + 2 ∧ (kept ++ accepted s o)[i]? = some o.inPayload := by
  rw [accepted] at hi ⊢
  cases hw : s.write o.inValid with
  | false =>
    simp only [hw, Bool.false_eq_true, if_false, List.append_nil] at hi
    omega
  | true =>
    simp only [hw, if_true, List.length_append, List.length_singleton] at hi ⊢
    have heq : i = kept.length := by omega
    refine ⟨heq, h.write_room hw, ?_⟩
    rw [heq, List.getElem?_concat_length]

/-- A word below the new length is the old one, the one above it, or the arriving one. -/
theorem word_step (h : Holds s q) (o : Offer α) (i : Fin (n + 2))
    (hi : i.val < (BoundedQueue.step (n + 2) q o).length) :
    (BoundedQueue.step (n + 2) q o)[i.val]? = some ((s.step o).mem i) := by
  have hroom := h.room
  have hlast : i = Fin.last (n + 1) ↔ i.val = n + 1 := Fin.ext_iff
  rw [BoundedQueue.step_eq, ← h.accepted_eq] at hi ⊢
  unfold ScFifo.step
  rw [← h.read_eq] at hi ⊢
  cases hr : s.read o.outReady with
  | false =>
    simp only [hr, Bool.false_eq_true, if_false, Bool.false_or] at hi ⊢
    by_cases hlt : i.val < q.length
    · rw [List.getElem?_append_left hlt, h.word i hlt]
      simp [h.used, hlt]
    · obtain ⟨heq, hq, hpayload⟩ := h.arriving o (Nat.le_of_not_lt hlt) hi
      have hnext : ¬ i.val + 1 < q.length := by omega
      rw [hpayload]
      simp [h.used, hlt, hnext]
  | true =>
    simp only [hr, if_true, Bool.true_or] at hi ⊢
    have htail : q.tail.length = q.length - 1 := List.length_tail
    -- every word moves one place down, and the arriving one behind them
    by_cases hlt : i.val < q.tail.length
    · have hil : i ≠ Fin.last (n + 1) := by
        rw [Ne, hlast]
        omega
      have hnext : i.val + 1 < q.length := by omega
      rw [List.getElem?_append_left hlt, List.getElem?_tail, dif_neg hil, h.used,
        if_pos (decide_eq_true hnext)]
      exact h.word ⟨i.val + 1, ScFifo.next_lt hil⟩ hnext
    · obtain ⟨heq, hq, hpayload⟩ := h.arriving o (Nat.le_of_not_lt hlt) hi
      have hpos := h.read_pos hr
      have hil : i ≠ Fin.last (n + 1) := by
        rw [Ne, hlast]
        omega
      have hnext : ¬ i.val + 1 < q.length := by omega
      rw [hpayload, dif_neg hil, h.used, if_neg]
      simpa using Nat.le_of_not_lt hnext

/-- **One edge.**  The FIFO holds the queue after the same cycle. -/
theorem step (h : Holds s q) (o : Offer α) : Holds (s.step o) (BoundedQueue.step (n + 2) q o) where
  room := BoundedQueue.length_step_le h.room o
  used := h.used_step o
  word := h.word_step o

end Holds

/-- The FIFO simulates the queue. -/
theorem scFifo_simulates (n : ℕ) (α : Type*) :
    Simulates (ScFifo.step (n := n) (α := α)) (BoundedQueue.step (n + 2)) id Holds :=
  fun _ _ o h => h.step o

section FromReset

variable (zero : α) (input : ℕ → Offer α) (t : ℕ)

/-- So it holds the queue at any time of a run. -/
theorem holds_trace :
    Holds (trace ScFifo.step (ScFifo.reset n zero) input t)
      (trace (BoundedQueue.step (n + 2)) [] input t) :=
  (scFifo_simulates n α).along_trace (Holds.reset n zero) input t

/-- What it has accepted is what the queue has taken. -/
theorem emitted_accepted :
    emitted ScFifo.step accepted (ScFifo.reset n zero) input t =
      emitted (BoundedQueue.step (n + 2)) (BoundedQueue.taken (n + 2)) [] input t := by
  induction t with
  | zero => rfl
  | succ t ih => rw [emitted, emitted, ih, (holds_trace zero input t).accepted_eq]

/-- What it has delivered is what the queue has given. -/
theorem emitted_delivered :
    emitted ScFifo.step delivered (ScFifo.reset n zero) input t =
      emitted (BoundedQueue.step (n + 2)) BoundedQueue.given [] input t := by
  induction t with
  | zero => rfl
  | succ t ih => rw [emitted, emitted, ih, (holds_trace zero input t).delivered_eq]

end FromReset

/-- **The FIFO keeps a queue.**  From reset on, under any offers, its ports are those of a queue
`q` bounded by the depth, and what it accepted is what it delivered followed by `q`. -/
theorem fifo_keeps_queue (n : ℕ) (zero : α) (input : ℕ → Offer α) (t : ℕ) :
    let s := trace ScFifo.step (ScFifo.reset n zero) input t
    let q := trace (BoundedQueue.step (n + 2)) [] input t
    q.length ≤ n + 2 ∧ s.inReady = decide (q.length < n + 2) ∧ s.outValid = !q.isEmpty ∧
      (s.outValid = true → q.head? = some s.outPayload) ∧
      emitted ScFifo.step accepted (ScFifo.reset n zero) input t =
        emitted ScFifo.step delivered (ScFifo.reset n zero) input t ++ q := by
  intro s q
  have h : Holds s q := holds_trace zero input t
  refine ⟨h.room, h.inReady_eq, h.outValid_eq, h.head?_eq, ?_⟩
  rw [emitted_accepted, emitted_delivered, ← BoundedQueue.conservation, List.nil_append]

end MatrixAccelerator.Analysis
