import MatrixAccelerator.Library.SynchronousMachine
import Mathlib.Data.Fin.Tuple.Basic

/-!
# Delay lines

A line of `n` registers clocked together: the first takes the input wire, each other
the register before it.  `taps` names the `n + 1` wires along it, from the input to the
last register; a line of no registers is a plain wire.  `taps_trace` says what every
wire carries after any number of shifts, from any contents: what was shifted in that
many shifts ago, or what the line held to begin with.
-/

set_option autoImplicit false

namespace MatrixAccelerator.Library.DelayLine

variable {α : Type*} {n : ℕ}

/-- The wires along the line: wire `0` is the input, wire `k + 1` the register `k`. -/
def taps (x : α) (line : Fin n → α) : Fin (n + 1) → α := Fin.cons x line

/-- One clock edge: every register takes the wire before it. -/
def shift (line : Fin n → α) (x : α) : Fin n → α := fun k => taps x line k.castSucc

/-- The wire that leaves the line. -/
def output (x : α) (line : Fin n → α) : α := taps x line (Fin.last n)

@[simp] theorem taps_zero (x : α) (line : Fin n → α) : taps x line 0 = x := rfl

@[simp] theorem taps_succ (x : α) (line : Fin n → α) (k : Fin n) :
    taps x line k.succ = line k := rfl

@[simp] theorem shift_apply (line : Fin n → α) (x : α) (k : Fin n) :
    shift line x k = taps x line k.castSucc := rfl

/-- A tap other than the first shows the register before it. -/
theorem taps_of_pos (x : α) (line : Fin n → α) (k : Fin (n + 1)) (h : 0 < k.val) :
    taps x line k = line ⟨k.val - 1, by omega⟩ := by
  obtain ⟨k, hk⟩ := k
  cases k with
  | zero => exact absurd h (lt_irrefl 0)
  | succ k => rfl

/-- What wire `k` carries after `t` shifts of the stream `x` into a line that held
`line`. -/
def carried (line : Fin n → α) (x : ℕ → α) (t : ℕ) (k : Fin (n + 1)) : α :=
  if h : t < k.val then line ⟨k.val - 1 - t, by omega⟩ else x (t - k.val)

/-- **The delay law.**  The input reaches wire `k` after `k` shifts; until then the
wire carries what the line held, moved along. -/
theorem taps_trace (line : Fin n → α) (x : ℕ → α) (t : ℕ) (k : Fin (n + 1)) :
    taps (x t) (trace shift line x t) k = carried line x t k := by
  induction t generalizing k with
  | zero =>
    by_cases hk : 0 < k.val
    · simp [taps_of_pos _ _ k hk, carried, hk]
    · obtain rfl : k = 0 := Fin.ext (by simpa using hk)
      simp [carried]
  | succ t ih =>
    by_cases hk : 0 < k.val
    · -- the register behind wire `k` took wire `k - 1` on the last edge
      rw [taps_of_pos _ _ k hk, trace_succ, shift_apply, ih]
      simp only [carried, Fin.val_castSucc]
      by_cases ht : t < k.val - 1
      · rw [dif_pos ht, dif_pos (by omega)]
        congr 2
        omega
      · rw [dif_neg ht, dif_neg (by omega)]
        congr 1
        omega
    · obtain rfl : k = 0 := Fin.ext (by simpa using hk)
      simp [carried]

/-- A register after `t` edges: what was `t` places in front of it, on the line or on its way. -/
theorem trace_apply (line : Fin n → α) (x : ℕ → α) (t : ℕ) (k : Fin n) :
    trace shift line x t k =
      if h : t ≤ k.val then line ⟨k.val - t, by omega⟩ else x (t - 1 - k.val) := by
  have hk := taps_trace line x t k.succ
  rw [taps_succ] at hk
  rw [hk, carried]
  by_cases ht : t ≤ k.val
  · rw [dif_pos (by simpa using Nat.lt_succ_of_le ht), dif_pos ht]
    congr 2
  · rw [dif_neg (by rw [Fin.val_succ]; omega), dif_neg ht]
    congr 1
    rw [Fin.val_succ]
    omega

/-- The output after `t` edges: what was on the line first, and then the stream `n` edges late. -/
theorem output_trace (line : Fin n → α) (x : ℕ → α) (t : ℕ) :
    output (x t) (trace shift line x t) =
      if h : t < n then line ⟨n - 1 - t, by omega⟩ else x (t - n) :=
  taps_trace line x t (Fin.last n)

/-- Two registers a cell, `near` before `far`, read as one line of `2 * n` registers. -/
def interleave (near far : Fin n → α) : Fin (2 * n) → α := fun q =>
  if q.val % 2 = 0 then near ⟨q.val / 2, by omega⟩ else far ⟨q.val / 2, by omega⟩

/-- Moving `near` to `far` inside each cell and `far` to the next cell's `near` is one
shift of the interleaved line. -/
theorem shift_interleave (near far : Fin n → α) (x : α) :
    shift (interleave near far) x = interleave (fun j => taps x far j.castSucc) near := by
  funext q
  have hq := q.isLt
  rw [shift_apply]
  by_cases hq0 : 0 < q.val
  · rw [taps_of_pos _ _ _ (by simpa using hq0)]
    simp only [interleave, Fin.val_castSucc]
    by_cases hodd : q.val % 2 = 0
    · rw [if_neg (by omega), if_pos hodd,
        taps_of_pos _ _ _ (by simp only [Fin.val_castSucc]; omega)]
      congr 1
      simp only [Fin.val_castSucc, Fin.mk.injEq]
      omega
    · rw [if_pos (by omega), if_neg hodd]
      congr 1
      simp only [Fin.mk.injEq]
      omega
  · have hzero : q.val = 0 := by omega
    have hcast : q.castSucc = 0 := Fin.ext hzero
    have hcell : (⟨q.val / 2, by omega⟩ : Fin n).castSucc = 0 := Fin.ext (by simp [hzero])
    rw [hcast, taps_zero, interleave, if_pos (by omega), hcell, taps_zero]

/-- The last tap of two interleaved lines is that of the far one. -/
theorem output_interleave (near far : Fin n → α) (x : α) :
    output x (interleave near far) = taps x far (Fin.last n) := by
  cases n with
  | zero => rfl
  | succ n =>
    rw [output, taps_of_pos _ _ _ (by simp), taps_of_pos _ _ _ (by simp)]
    simp only [interleave, Fin.val_last]
    rw [if_neg (by omega)]
    congr 1
    simp only [Fin.mk.injEq]
    omega

end MatrixAccelerator.Library.DelayLine
