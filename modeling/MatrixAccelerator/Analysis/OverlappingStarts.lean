import MatrixAccelerator.Analysis.MultiplierRefinement
import MatrixAccelerator.Interface.MultiplierRuns

/-!
# STARTs on top of a run

What software sees when it writes START again, any number of times, before the first run
has summed: `ctrl_done` comes when it would have come anyway, and the operands of the counts
before the last START are missing from the result, except for the last `min i j` of them,
which the skew lines had not delivered yet.
-/

set_option autoImplicit false

namespace MatrixAccelerator.Analysis

open MatrixAccelerator.Library MatrixAccelerator.Model MatrixAccelerator.Interface

variable {N : ℕ}

/-- A reachable accelerator stands for some multiplier. -/
theorem exists_represents (hN : N ≤ 84) {s : MatrixAccelTop N} (hs : ReachableTop N s) :
    ∃ m : Multiplier N, Represents s m := by
  obtain ⟨cycles, rfl⟩ := hs
  exact ⟨_, (represents_step hN).along_run (reset_represents N) cycles⟩

/-- The accelerator is idle when the job is. -/
theorem DoesJob.idle_iff {s : MatrixAccelTop N} {job : Job N} (h : DoesJob s job) :
    phase s.fsm = Phase.idle ↔ job = Job.idle := by
  cases job with
  | idle => exact iff_of_true h rfl
  | summing c cleared fed =>
    have hp := Summing.calculating h
    exact iff_of_false (by rw [hp]; nofun) nofun
  | returning c result =>
    have hp := Returning.draining h
    exact iff_of_false (by rw [hp]; nofun) nofun

/-- INTERNAL: A START in idle begins a sum over nothing. -/
theorem multiplier_start {m : Multiplier N} (h : m.job = Job.idle) {bus : AvsCycle}
    (hs : bus.clrPeSig = true) :
    (m.step (requestOf bus)).job = Job.summing 0 0 Feed.nothing ∧
      (m.step (requestOf bus)).done = false := by
  have hstart : (requestOf bus : Request N).command.isStart = true :=
    (isStart_commandOf bus).trans hs
  constructor
  · simp only [Multiplier.step, h, Job.step, hstart, if_true]
  · simp only [Multiplier.step, h, Job.last, hstart, Bool.not_true, Bool.false_and, Bool.or_false]

/-- **Overlapping STARTs.**  After a START in idle, under any bus cycles with STARTs and window
writes among them as long as no START falls into the last `2 * N + 1` of the `5 * N + 4`
cycles of the run, the machine becomes idle with `ctrl_done` on the last of these and not
before.  The result of element `(i, j)` has then accumulated the operands that the memories
held at the counts from `min i j` before the last START on.
RTL: matrix_accel_top_systolic_array.v:49-145, skew_buffer.v:19-45, pe_fp16.v:24-46 -/
theorem overlapping_starts (N : ℕ) (hN : 1 ≤ N ∧ N ≤ 84) (s : MatrixAccelTop N)
    (hs : ReachableTop N s) (hidle : phase s.fsm = Phase.idle) (e0 : AvsCycle)
    (he0 : e0.clrPeSig = true) (traffic : ℕ → AvsCycle)
    (hquiet : ∀ t, 3 * N + 3 ≤ t → t < 5 * N + 4 → (traffic t).clrPeSig = false) :
    let after := topTrace (s.step e0) traffic
    (∀ t < 5 * N + 4, phase (after t).fsm ≠ Phase.idle ∧ (after t).fsm.ctrlDone = false) ∧
      phase (after (5 * N + 4)).fsm = Phase.idle ∧ (after (5 * N + 4)).fsm.ctrlDone = true ∧
      ∀ i j, (after (5 * N + 4)).memC (cell i j) =
        macFold 0#16
          ((operandsAt (fun k => (after k).memA) (fun k => (after k).memB) i j).drop
            (lastStart (fun t => (traffic t).clrPeSig) (3 * N + 3) - min i.val j.val)) := by
  intro after
  obtain ⟨m, hm⟩ := exists_represents hN.2 hs
  obtain ⟨hjob, hdone⟩ := multiplier_start (hm.job.idle_iff.mp hidle) he0
  have hrep : ∀ t, Represents (after t)
      ((m.step (requestOf e0)).after (fun u => requestOf (traffic u)) t) := fun t =>
    (represents_step hN.2).along_trace (represents_step hN.2 s m e0 hm) traffic t
  have hquiet' : ∀ u, 3 * N + 3 ≤ u → u < 5 * N + 4 →
      (requestOf (traffic u) : Request N).command.isStart = false := fun u hlo hhi =>
    (isStart_commandOf (traffic u)).trans (hquiet u hlo hhi)
  obtain ⟨hend, hset, hC⟩ := Multiplier.job_ends (r := fun u => requestOf (traffic u)) hjob hquiet'
  refine ⟨fun t ht => ?_, (hrep _).job.idle_iff.mpr hend, (hrep _).done.trans hset,
    fun i j => ?_⟩
  · obtain ⟨hbusy, hclear⟩ := Multiplier.busy_until (r := fun u => requestOf (traffic u)) hjob
      hdone hquiet' ht
    exact ⟨fun hp => hbusy ((hrep t).job.idle_iff.mp hp), (hrep t).done.trans hclear⟩
  · have hstarts : (fun u => (requestOf (traffic u) : Request N).command.isStart) =
        fun u => (traffic u).clrPeSig := funext fun u => isStart_commandOf (traffic u)
    rw [(hrep _).C, hC, Multiplier.summed_fedBy (by omega), hstarts]
    simp only [operandsAt, (hrep _).A, (hrep _).B]

/-- A START, and a second one while its run sums. -/
theorem overlapping_starts_twice :
    (topTrace ((MatrixAccelTop.reset 2).step Driver.startWrite)
      (fun t => if t = 1 then Driver.startWrite else default) 14).fsm.ctrlDone = true :=
  (overlapping_starts 2 (by decide) (MatrixAccelTop.reset 2) Reachable.refl rfl Driver.startWrite
    (by decide) (fun t => if t = 1 then Driver.startWrite else default) fun t ht _ => by
      rw [if_neg (show ¬ t = 1 by omega)]
      rfl).2.2.1

end MatrixAccelerator.Analysis
