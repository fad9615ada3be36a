import Mathlib.Data.List.Basic

/-!
# Runs of a synchronous machine

A clocked design is a function from the present state and the inputs of one clock
cycle to the next state.  `run` consumes a finite list of input cycles, `trace` follows
an endless input stream edge by edge, and `Reachable` collects the states a reset state
can be driven to.  Three rules carry a fact about one edge to a whole stream: an invariant
that may depend on the time (`trace_invariant`), a view of the state that moves as another
machine does (`trace_simulates`), and a view that does not move at all (`trace_const`).
-/

set_option autoImplicit false

namespace MatrixAccelerator.Library

variable {σ ι : Type*}

/-- The state after a finite list of input cycles. -/
def run (step : σ → ι → σ) (s : σ) (inputs : List ι) : σ := inputs.foldl step s

/-- The state after `t` edges of an input stream; `input t` is sampled by edge `t`. -/
def trace (step : σ → ι → σ) (s : σ) (input : ℕ → ι) : ℕ → σ
  | 0 => s
  | t + 1 => step (trace step s input t) (input t)

/-- What the first `t` edges of an input stream emit, in order, when `emit` says what one
edge does. -/
def emitted {ε : Type*} (step : σ → ι → σ) (emit : σ → ι → List ε) (s : σ) (input : ℕ → ι) :
    ℕ → List ε
  | 0 => []
  | t + 1 => emitted step emit s input t ++ emit (trace step s input t) (input t)

/-- The inputs of a finite list, and then a stream. -/
def prefixed (l : List ι) (input : ℕ → ι) (t : ℕ) : ι := l.getD t (input (t - l.length))

/-- The states some finite list of input cycles leads to. -/
def Reachable (step : σ → ι → σ) (init s : σ) : Prop :=
  ∃ inputs : List ι, run step init inputs = s

section Lemmas

variable (step : σ → ι → σ) (s : σ)

@[simp] theorem run_nil : run step s [] = s := rfl

@[simp] theorem run_cons (i : ι) (l : List ι) :
    run step s (i :: l) = run step (step s i) l := rfl

theorem run_append (l₁ l₂ : List ι) :
    run step s (l₁ ++ l₂) = run step (run step s l₁) l₂ := List.foldl_append

@[simp] theorem trace_zero (input : ℕ → ι) : trace step s input 0 = s := rfl

theorem trace_succ (input : ℕ → ι) (t : ℕ) :
    trace step s input (t + 1) = step (trace step s input t) (input t) := rfl

/-- Only the inputs before `t` matter to the state after `t` edges. -/
theorem trace_congr {input input' : ℕ → ι} {t : ℕ} (h : ∀ u < t, input u = input' u) :
    trace step s input t = trace step s input' t := by
  induction t with
  | zero => rfl
  | succ t ih => rw [trace_succ, trace_succ, ih fun u hu => h u (by omega), h t (Nat.lt_succ_self t)]

/-- Following a stream for `m + n` edges is following it for `m` and then following
what is left of it for `n`. -/
theorem trace_add (input : ℕ → ι) (m n : ℕ) :
    trace step s input (m + n) =
      trace step (trace step s input m) (fun t => input (m + t)) n := by
  induction n with
  | zero => rfl
  | succ n ih => rw [← Nat.add_assoc, trace_succ, ih, trace_succ]

/-- The first edge taken out of a stream. -/
theorem trace_succ' (input : ℕ → ι) (t : ℕ) :
    trace step s input (t + 1) = trace step (step s (input 0)) (fun t => input (t + 1)) t := by
  rw [Nat.add_comm, trace_add]
  simp only [Nat.add_comm 1]
  rfl

/-- **The invariant rule of a stream.**  What holds at the start and passes from each
moment to the next holds at the end. -/
theorem trace_invariant {P : ℕ → σ → Prop} {input : ℕ → ι} {n : ℕ} (hzero : P 0 s)
    (hstep : ∀ t < n, P t (trace step s input t) → P (t + 1) (trace step s input (t + 1))) :
    P n (trace step s input n) := by
  induction n with
  | zero => exact hzero
  | succ n ih => exact hstep n (Nat.lt_succ_self n) (ih fun t ht => hstep t (Nat.lt_succ_of_lt ht))

/-- **The simulation rule.**  A view of the state that moves on every edge as a second
machine does is a run of the second machine. -/
theorem trace_simulates {τ κ : Type*} {step' : τ → κ → τ} (view : σ → τ) {input : ℕ → ι}
    {input' : ℕ → κ} {n : ℕ}
    (hstep : ∀ t < n, view (step (trace step s input t) (input t)) =
      step' (view (trace step s input t)) (input' t)) :
    view (trace step s input n) = trace step' (view s) input' n := by
  apply trace_invariant step s (P := fun t x => view x = trace step' (view s) input' t) rfl
  intro t ht heq
  rw [trace_succ, hstep t ht, heq, trace_succ]

/-- **The frame rule.**  A view of the state that no edge changes is what it was. -/
theorem trace_const {τ : Type*} (view : σ → τ) {input : ℕ → ι} {n : ℕ}
    (hstep : ∀ t < n, view (step (trace step s input t) (input t)) =
      view (trace step s input t)) : view (trace step s input n) = view s := by
  apply trace_invariant step s (P := fun _ x => view x = view s) rfl
  intro t ht heq
  rw [trace_succ, hstep t ht, heq]

/-- Following a stream after a finite list of inputs is following the two joined. -/
theorem trace_run (l : List ι) (input : ℕ → ι) (t : ℕ) :
    trace step (run step s l) input t = trace step s (prefixed l input) (l.length + t) := by
  induction l generalizing s with
  | nil =>
    rw [List.length_nil, Nat.zero_add]
    rfl
  | cons i l ih =>
    rw [run_cons, ih, List.length_cons, Nat.add_right_comm, trace_succ']
    congr 1
    funext u
    simp only [prefixed, List.length_cons, List.getD_cons_succ, Nat.add_sub_add_right]

/-- What holds of a list and of a stream holds of the two joined. -/
theorem forall_prefixed {P : ι → Prop} {l : List ι} {input : ℕ → ι} {n : ℕ}
    (hl : ∀ i ∈ l, P i) (hinput : ∀ t < n, P (input t)) :
    ∀ u < l.length + n, P (prefixed l input u) := by
  intro u hu
  unfold prefixed
  rw [List.getD_eq_getElem?_getD]
  by_cases hlt : u < l.length
  · rw [List.getElem?_eq_getElem hlt]
    exact hl _ (List.getElem_mem hlt)
  · rw [List.getElem?_eq_none (Nat.le_of_not_lt hlt)]
    exact hinput _ (by omega)

/-- A run through a list is a stream that begins with the list. -/
theorem run_eq_trace [Inhabited ι] (l : List ι) :
    run step s l = trace step s (fun t => l.getD t default) l.length := by
  induction l generalizing s with
  | nil => rfl
  | cons i l ih =>
    rw [run_cons, ih, List.length_cons, trace_succ']
    rfl

end Lemmas

namespace Reachable

variable {step : σ → ι → σ} {init s : σ}

theorem refl : Reachable step init init := ⟨[], rfl⟩

/-- What a reachable state leads to is reachable. -/
theorem run_of (h : Reachable step init s) (l : List ι) : Reachable step init (run step s l) := by
  obtain ⟨l₀, rfl⟩ := h
  exact ⟨l₀ ++ l, run_append step init l₀ l⟩

/-- **The invariant rule.**  What holds at reset and survives every cycle holds of every
reachable state. -/
theorem invariant {P : σ → Prop} (hinit : P init) (hstep : ∀ s i, P s → P (step s i))
    (h : Reachable step init s) : P s := by
  obtain ⟨l, rfl⟩ := h
  induction l generalizing init with
  | nil => exact hinit
  | cons i l ih => exact ih (hstep init i hinit)

end Reachable

end MatrixAccelerator.Library
