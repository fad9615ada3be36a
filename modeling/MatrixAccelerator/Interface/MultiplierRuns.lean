import MatrixAccelerator.Interface.Multiplier

/-!
# A job from its START to its end

A sum is fed on each count whatever is ordered meanwhile, so after `t` edges it is at count
`t`, has been fed what the operand matrices held on each count, and was last cleared by the
last START (`job_summing`).  If the return is left alone its columns go into the result in
their turn (`job_returning`), and the job ends after `5 * N + 4` edges (`job_ends`).
-/

set_option autoImplicit false

namespace MatrixAccelerator.Interface

open MatrixAccelerator.Library MatrixAccelerator.Model

variable {N : ℕ}

/-- One more than the last START before `n`, and zero if there is none. -/
def lastStart (starts : ℕ → Bool) : ℕ → ℕ
  | 0 => 0
  | n + 1 => if starts n then n + 1 else lastStart starts n

namespace Multiplier

/-- The machine `t` edges after `m` under the requests `r`. -/
abbrev after (m : Multiplier N) (r : ℕ → Request N) (t : ℕ) : Multiplier N := trace step m r t

/-- What a job begun in `m` has been fed by count `t`. -/
def fedBy (m : Multiplier N) (r : ℕ → Request N) (t : ℕ) : Feed N :=
  Feed.upTo (fun k => (m.after r k).A) (fun k => (m.after r k).B) t

section Runs

variable {m : Multiplier N} {r : ℕ → Request N}

/-- **The sum.**  STARTs only drop operands: the counts go on. -/
theorem job_summing (h : m.job = Job.summing 0 0 Feed.nothing) {t : ℕ}
    (ht : t ≤ 3 * N + 2) :
    (m.after r t).job =
      Job.summing t (lastStart (fun u => (r u).command.isStart) t) (m.fedBy r t) := by
  induction t with
  | zero => exact h
  | succ t ih =>
    rw [after, trace_succ]
    simp only [step, ih (by omega), Job.step, if_neg (show ¬ t = 3 * N + 2 by omega), lastStart,
      fedBy, Feed.update_upTo]

/-- INTERNAL: After its last count the sum is returned. -/
theorem job_summing_end (h : m.job = Job.summing 0 0 Feed.nothing) :
    (m.after r (3 * N + 3)).job =
      Job.returning 0 (summed (3 * N + 3)
        (lastStart (fun u => (r u).command.isStart) (3 * N + 3)) (m.fedBy r (3 * N + 3))) := by
  rw [after, trace_succ]
  simp only [step, job_summing h le_rfl, Job.step, if_true, lastStart, fedBy, Feed.update_upTo]

/-- **The return.** -/
theorem job_returning {result : Fin N → Fin N → Word} (h : m.job = Job.returning 0 result) {t : ℕ}
    (ht : t ≤ 2 * N) (hr : ∀ u < t, (r u).command.isStart = false) :
    (m.after r t).job = Job.returning t result ∧
      ∀ i j, (m.after r t).C i j = if 2 * (N - 1 - j.val) + 1 < t then result i j else m.C i j := by
  induction t with
  | zero => exact ⟨h, fun i j => (if_neg (Nat.not_lt_zero _)).symm⟩
  | succ t ih =>
    obtain ⟨hjob, hC⟩ := ih (by omega) fun u hu => hr u (by omega)
    rw [after, trace_succ]
    constructor
    · simp only [step, hjob, Job.step, hr t (Nat.lt_succ_self t), Bool.false_eq_true, if_false,
        if_neg (show ¬ t = 2 * N by omega)]
    · intro i j
      simp only [step, hjob, Job.returned, hC]
      by_cases hnow : t = 2 * (N - 1 - j.val) + 1
      · rw [if_pos hnow, if_pos (by omega)]
      · rw [if_neg hnow]
        congr 1
        exact propext (by omega)

/-- INTERNAL: The last count of a return that is left alone ends the job. -/
theorem job_returning_end {result : Fin N → Fin N → Word} (h : m.job = Job.returning 0 result)
    (hr : ∀ u < 2 * N + 1, (r u).command.isStart = false) :
    (m.after r (2 * N + 1)).job = Job.idle ∧ (m.after r (2 * N + 1)).done = true ∧
      ∀ i j, (m.after r (2 * N + 1)).C i j = result i j := by
  obtain ⟨hjob, hC⟩ := job_returning h le_rfl fun u hu => hr u (by omega)
  rw [after, trace_succ]
  refine ⟨?_, ?_, fun i j => ?_⟩
  · simp only [step, hjob, Job.step, hr (2 * N) (by omega), Bool.false_eq_true, if_false, if_true]
  · simp only [step, hjob, Job.last, decide_true, Bool.true_or]
  · have hj := j.isLt
    simp only [step, hjob, Job.returned, hC]
    rw [if_neg (show ¬ 2 * N = 2 * (N - 1 - j.val) + 1 by omega), if_pos (by omega)]

/-- INTERNAL: The done bit stays down until the last count of a return. -/
theorem done_step {m : Multiplier N} {r : Request N} (hdone : m.done = false)
    (hlast : m.job.last = false) : (m.step r).done = false := by
  simp only [step, hdone, hlast, Bool.and_false, Bool.or_false]

/-- INTERNAL: Through the counts of a job the machine is busy and not done. -/
theorem busy_until (h : m.job = Job.summing 0 0 Feed.nothing)
    (hdone : m.done = false)
    (hr : ∀ u, 3 * N + 3 ≤ u → u < 5 * N + 4 → (r u).command.isStart = false) {t : ℕ}
    (ht : t < 5 * N + 4) : (m.after r t).job ≠ Job.idle ∧ (m.after r t).done = false := by
  -- the job on every count
  have hjob : ∀ u < 5 * N + 4, (m.after r u).job ≠ Job.idle ∧
      (u + 1 < 5 * N + 4 → (m.after r u).job.last = false) := by
    intro u hu
    by_cases hsum : u ≤ 3 * N + 2
    · rw [job_summing h hsum]
      exact ⟨nofun, fun _ => rfl⟩
    · obtain ⟨v, rfl⟩ := Nat.exists_eq_add_of_le (show 3 * N + 3 ≤ u by omega)
      have hreturn := (job_returning (r := fun x => r (3 * N + 3 + x)) (t := v)
        (job_summing_end (r := r) h) (by omega) fun x hx => hr _ (by omega) (by omega)).1
      rw [after, trace_add, hreturn]
      exact ⟨nofun, fun hlt => decide_eq_false (by omega)⟩
  refine ⟨(hjob t ht).1, ?_⟩
  apply trace_invariant step m (P := fun _ x => x.done = false) hdone
  intro u hu hbusy
  exact done_step hbusy ((hjob u (by omega)).2 (by omega))

/-- **The end of a job.**  With no START in its return a job takes `5 * N + 4` edges, and then
the result is the sum that the last START left. -/
theorem job_ends (h : m.job = Job.summing 0 0 Feed.nothing)
    (hr : ∀ u, 3 * N + 3 ≤ u → u < 5 * N + 4 → (r u).command.isStart = false) :
    (m.after r (5 * N + 4)).job = Job.idle ∧ (m.after r (5 * N + 4)).done = true ∧
      ∀ i j, (m.after r (5 * N + 4)).C i j =
        summed (3 * N + 3) (lastStart (fun u => (r u).command.isStart) (3 * N + 3))
          (m.fedBy r (3 * N + 3)) i j := by
  have hlen : 5 * N + 4 = 3 * N + 3 + (2 * N + 1) := by omega
  rw [hlen, after, trace_add]
  exact job_returning_end (job_summing_end h) fun u hu => hr _ (by omega) (by omega)

/-- The sum over the indices that the operands have. -/
theorem summed_fedBy {n d : ℕ} (hn : N ≤ n) (i j : Fin N) :
    summed n d (m.fedBy r n) i j =
      macFold 0#16 (((List.finRange N).map fun k =>
        ((m.after r k.val).A i k, (m.after r k.val).B k j)).drop (d - min i.val j.val)) := by
  have hall : ((List.finRange N).map fun k =>
        ((m.after r k.val).A i k, (m.after r k.val).B k j)).take n =
      (List.finRange N).map fun k => ((m.after r k.val).A i k, (m.after r k.val).B k j) :=
    List.take_of_length_le (by rw [List.length_map, List.length_finRange]; exact hn)
  rw [summed, fedBy, Feed.macFold_upTo _ _ _ _ _ le_rfl, hall]

end Runs

end Multiplier

end MatrixAccelerator.Interface
