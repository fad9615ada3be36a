import MatrixAccelerator.Interface.MatrixProduct
import MatrixAccelerator.Library.OutputStationaryGrid
import Mathlib.Data.Nat.Count

/-!
# The streaming law of the systolic core

`skew_buffer` and `systolic_array` under one common enable are the output-stationary
grid of the library: an enabled edge outside the drain mode is one grid step
(`grid_step`), a disabled edge is none.  The streaming law of the grid then holds of the
core under any stall pattern, for any pair of operand streams.
-/

set_option autoImplicit false

namespace MatrixAccelerator.Analysis

open MatrixAccelerator.Library MatrixAccelerator.Model MatrixAccelerator.Interface

variable {N : ℕ}

/-- The registers of the core, read as an output-stationary grid. -/
def coreGrid (core : SystolicCore N) : Grid N Word Word Word where
  laneA := core.skew.delayA
  laneB := core.skew.delayB
  right i j := (core.array i j).aOut
  down i j := (core.array i j).bOut
  acc i j := (core.array i j).cReg

/-- INTERNAL: An enabled edge of the core in the calculation mode is one step of the
grid.
RTL: skew_buffer.v:19-27, pe_fp16.v:33-44 -/
theorem grid_step (core : SystolicCore N) (aInFlat bInFlat : Fin N → Word) :
    coreGrid (core.step false true true false aInFlat bInFlat) =
      (coreGrid core).step fp16Mac (aInFlat, bInFlat) := rfl

/-- INTERNAL: A disabled edge of the core holds every register.
RTL: skew_buffer.v:23, pe_fp16.v:33 -/
theorem core_step_disabled (core : SystolicCore N) (drainEn : Bool)
    (aInFlat bInFlat : Fin N → Word) :
    core.step false false false drainEn aInFlat bInFlat = core := rfl

/-- Out of reset the forwarded words are zero. -/
theorem reset_forward_clear : (coreGrid (SystolicCore.reset (N := N))).ForwardClear 0#16 0#16 :=
  ⟨fun _ _ => rfl, fun _ _ => rfl⟩

/-- Out of reset the skew lines are zero. -/
theorem reset_lanes_clear : (coreGrid (SystolicCore.reset (N := N))).LanesClear 0#16 0#16 :=
  ⟨fun _ _ => rfl, fun _ _ => rfl⟩

/-- The core after `t` clock cycles from reset under the common enable `en`: an enabled
cycle takes the next words of the streams `a` and `b`, a stalled one shows the core the
words `x` and `y`. -/
def streamedCore (a b x y : ℕ → Fin N → Word) (en : ℕ → Bool) : ℕ → SystolicCore N :=
  trace (fun core (c : Bool × (Fin N → Word) × (Fin N → Word)) =>
      core.step false c.1 c.1 false c.2.1 c.2.2) SystolicCore.reset
    fun t =>
      if en t then (true, a (Nat.count (fun u => en u = true) t),
        b (Nat.count (fun u => en u = true) t))
      else (false, x t, y t)

/-- INTERNAL: Stalls do not show: the core is the grid run on its enabled cycles alone. -/
theorem streamedCore_grid (a b x y : ℕ → Fin N → Word) (en : ℕ → Bool) (t : ℕ) :
    coreGrid (streamedCore a b x y en t) =
      trace (Grid.step fp16Mac) (coreGrid SystolicCore.reset) (fun s => (a s, b s))
        (Nat.count (fun u => en u = true) t) := by
  induction t with
  | zero => rfl
  | succ t ih =>
    rw [streamedCore, trace_succ, ← streamedCore]
    cases hen : en t with
    | false =>
      rw [Nat.count_succ_eq_count (by simp [hen]), ← ih]
      simp only [Bool.false_eq_true, if_false]
      rw [core_step_disabled]
    | true =>
      rw [Nat.count_succ_eq_succ_count (by simp [hen]), trace_succ, ← ih]
      simp only [if_true]
      rw [grid_step]

/-- **The streaming law of the core.**  After `T` enabled cycles the accumulator of
`PE(i,j)` is the fold of the first `T - (i + j)` operand pairs of lane `i` of the left
stream and lane `j` of the top stream; a stream of length `K` padded with zeros leaves
the fold of its `K` pairs once `T` reaches `K + i + j`.
RTL: skew_buffer.v:10-49, systolic_array.v:10-48, pe_fp16.v:13-46, fp16_mac.v:9-21 -/
theorem core_streaming_law (a b x y : ℕ → Fin N → Word) (en : ℕ → Bool) (t : ℕ)
    (i j : Fin N) :
    let T := Nat.count (fun u => en u = true) t
    let c := ((streamedCore a b x y en t).array i j).cReg
    c = macFold 0#16 ((List.range (T - (i.val + j.val))).map fun s => (a s i, b s j)) ∧
      ∀ K, (∀ s, K ≤ s → a s = (fun _ => 0#16) ∧ b s = fun _ => 0#16) →
        K + i.val + j.val ≤ T →
        c = macFold 0#16 ((List.range K).map fun s => (a s i, b s j)) := by
  intro T c
  have hlaw : c = macFold 0#16
      ((List.range (T - (i.val + j.val))).map fun s => (a s i, b s j)) := by
    have hgrid := congrArg (fun g => g.acc i j) (streamedCore_grid a b x y en t)
    have hstream := Grid.acc_trace_of_clear (fun s => (a s, b s)) i j fp16Mac_neutral
      reset_forward_clear reset_lanes_clear T
    exact hgrid.trans hstream
  refine ⟨hlaw, fun K hpad hT => ?_⟩
  rw [hlaw, macFold_eq_accumulate]
  apply fp16Mac_neutral.accumulate_range_le _ (by omega : K ≤ T - (i.val + j.val))
  intro s hs _
  left
  simp only [(hpad s hs).1]

end MatrixAccelerator.Analysis
