import MatrixAccelerator.Library.SynchronousMachine
import Mathlib.Data.List.Induction
import Mathlib.Logic.Function.Basic

/-!
# The latest write of a log

What a store should hold: of the entries that write a place, the value of the last one.  A
view of a machine that such an entry overwrites and every other one leaves alone holds it
after every run (`run_eq_latest`).
-/

set_option autoImplicit false

namespace MatrixAccelerator.Library

variable {σ ι ν : Type*}

/-- The value of the last entry that `hit` selects, and `d` if it selects none. -/
def latest (hit : ι → Bool) (val : ι → ν) (d : ν) (l : List ι) : ν :=
  ((l.filter hit).getLast?.map val).getD d

/-- A write at the end is the latest one if it hits. -/
theorem latest_concat (hit : ι → Bool) (val : ι → ν) (d : ν) (l : List ι) (e : ι) :
    latest hit val d (l ++ [e]) = if hit e then val e else latest hit val d l := by
  unfold latest
  rw [List.filter_append]
  cases he : hit e with
  | true =>
    rw [List.filter_cons_of_pos he, List.filter_nil, List.getLast?_concat]
    rfl
  | false =>
    rw [List.filter_cons_of_neg (Bool.eq_false_iff.mp he), List.filter_nil, List.append_nil]
    rfl

/-- **The store rule.** -/
theorem run_eq_latest {step : σ → ι → σ} (view : σ → ν) {hit : ι → Bool} {val : ι → ν}
    (hstep : ∀ s e, view (step s e) = if hit e then val e else view s) (s : σ) (l : List ι) :
    view (run step s l) = latest hit val (view s) l := by
  induction l using List.reverseRecOn with
  | nil => rfl
  | append_singleton l e ih =>
    rw [run_append, run_cons, run_nil, hstep, ih, latest_concat]

/-- A memory that a log of assignments updates one by one holds the latest assignment of
each place. -/
theorem foldl_update_eq_latest {κ : Type*} [DecidableEq κ] (log : List (κ × ν)) (mem : κ → ν)
    (k : κ) :
    log.foldl (fun mem w => Function.update mem w.1 w.2) mem k =
      latest (fun w => w.1 = k) Prod.snd (mem k) log := by
  have hstep : ∀ (mem : κ → ν) (w : κ × ν), Function.update mem w.1 w.2 k =
      if (decide (w.1 = k)) = true then w.2 else mem k := by
    intro mem w
    by_cases hw : w.1 = k
    · subst hw
      simp
    · simp [hw, Function.update_of_ne (Ne.symm hw)]
  exact run_eq_latest (fun mem => mem k) hstep mem log

end MatrixAccelerator.Library
