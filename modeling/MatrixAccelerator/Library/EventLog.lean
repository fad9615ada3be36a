import MatrixAccelerator.Library.SynchronousMachine

/-!
# The log of a stream

What the edges of a stream emit, joined in order.  Where an edge emits at most one event, every
event of the log was emitted by some edge, with the log before it and the log after it on
either side (`emitted_append_cons`), and the log is no longer than the stream.
-/

set_option autoImplicit false

namespace MatrixAccelerator.Library

variable {σ ι ε : Type*} (step : σ → ι → σ) (emit : σ → ι → List ε)

/-- The log of a stream begins with what its first edge emits. -/
theorem emitted_succ' (s : σ) (input : ℕ → ι) (t : ℕ) :
    emitted step emit s input (t + 1) =
      emit s (input 0) ++ emitted step emit (step s (input 0)) (fun u => input (u + 1)) t := by
  induction t with
  | zero =>
    rw [emitted, emitted, emitted, List.append_nil, List.nil_append]
    rfl
  | succ t ih => rw [emitted, ih, List.append_assoc, trace_succ', emitted]

/-- The log of `m + n` edges is that of the first `m`, and then that of the other `n`. -/
theorem emitted_add (s : σ) (input : ℕ → ι) (m n : ℕ) :
    emitted step emit s input (m + n) =
      emitted step emit s input m ++
        emitted step emit (trace step s input m) (fun u => input (m + u)) n := by
  induction n with
  | zero => rw [emitted, List.append_nil, Nat.add_zero]
  | succ n ih => rw [← Nat.add_assoc, emitted, ih, trace_add, emitted, List.append_assoc]

/-- What an edge emits is in every later log. -/
theorem mem_emitted {s : σ} {input : ℕ → ι} {t u : ℕ} (hu : u < t) {x : ε}
    (hx : x ∈ emit (trace step s input u) (input u)) : x ∈ emitted step emit s input t := by
  obtain ⟨n, rfl⟩ := Nat.exists_eq_add_of_lt hu
  rw [Nat.add_assoc, emitted_add, emitted_succ', List.mem_append, List.mem_append]
  exact Or.inr (Or.inl hx)

/-- Following a stream for `t` edges is running through its first `t` inputs. -/
theorem trace_eq_run (s : σ) (input : ℕ → ι) (t : ℕ) :
    trace step s input t = run step s ((List.range t).map input) := by
  induction t with
  | zero => rfl
  | succ t ih => rw [trace_succ, ih, List.range_succ, List.map_append, run_append]; rfl

/-- What a finite list of input cycles emits, in order. -/
def runLog (step : σ → ι → σ) (emit : σ → ι → List ε) : σ → List ι → List ε
  | _, [] => []
  | s, i :: l => emit s i ++ runLog step emit (step s i) l

/-- The log of a list in two parts, the second from the state that the first leads to. -/
theorem runLog_append (s : σ) (l₁ l₂ : List ι) :
    runLog step emit s (l₁ ++ l₂) =
      runLog step emit s l₁ ++ runLog step emit (run step s l₁) l₂ := by
  induction l₁ generalizing s with
  | nil => rfl
  | cons i l₁ ih => rw [List.cons_append, runLog, runLog, ih, run_cons, List.append_assoc]

/-- The log of `t` edges is that of the first `t` inputs as a list. -/
theorem emitted_eq_runLog (s : σ) (input : ℕ → ι) (t : ℕ) :
    emitted step emit s input t = runLog step emit s ((List.range t).map input) := by
  induction t with
  | zero => rfl
  | succ t ih =>
    rw [emitted, ih, List.range_succ, List.map_append, runLog_append, ← trace_eq_run,
      List.map_singleton, runLog, runLog, List.append_nil]

/-- A run each of whose inputs emits its own event emits the list of them. -/
theorem runLog_eq_map {event : ι → ε} {l : List ι} (h : ∀ i ∈ l, ∀ s, emit s i = [event i])
    (s : σ) : runLog step emit s l = l.map event := by
  induction l generalizing s with
  | nil => rfl
  | cons i l ih =>
    rw [runLog, h i List.mem_cons_self, ih fun j hj => h j (List.mem_cons_of_mem i hj)]
    rfl

/-- **The log rule.**  A view of the state that every input folds its emissions into has
folded, after a list of inputs, all that was emitted. -/
theorem run_eq_foldl_runLog {τ : Type*} {step : σ → ι → σ} {emit : σ → ι → List ε} (view : σ → τ)
    {f : τ → ε → τ} (hstep : ∀ s i, view (step s i) = (emit s i).foldl f (view s)) (s : σ)
    (l : List ι) : view (run step s l) = (runLog step emit s l).foldl f (view s) := by
  induction l generalizing s with
  | nil => rfl
  | cons i l ih => rw [run_cons, ih, hstep, runLog, List.foldl_append]

/-- The log rule for a stream: the first `t` edges are a run of the first `t` inputs. -/
theorem trace_eq_foldl_emitted {τ : Type*} {step : σ → ι → σ} {emit : σ → ι → List ε}
    (view : σ → τ) {f : τ → ε → τ} (hstep : ∀ s i, view (step s i) = (emit s i).foldl f (view s))
    (s : σ) (input : ℕ → ι) (t : ℕ) :
    view (trace step s input t) = (emitted step emit s input t).foldl f (view s) := by
  rw [trace_eq_run, run_eq_foldl_runLog view hstep, emitted_eq_runLog]

section OneEach

variable {step emit} {s : σ} {input : ℕ → ι}

/-- The log is no longer than the stream. -/
theorem length_emitted_le (hone : ∀ u, (emit (trace step s input u) (input u)).length ≤ 1) (t : ℕ) :
    (emitted step emit s input t).length ≤ t := by
  induction t with
  | zero => exact Nat.le_refl 0
  | succ t ih =>
    have hlast := hone t
    rw [emitted, List.length_append]
    omega

/-- **The event rule.** -/
theorem emitted_append_cons {t : ℕ} {x : ε} {l₁ l₂ : List ε}
    (hone : ∀ u, (emit (trace step s input u) (input u)).length ≤ 1)
    (h : emitted step emit s input t = l₁ ++ x :: l₂) :
    ∃ u n, t = u + 1 + n ∧ emitted step emit s input u = l₁ ∧
      emit (trace step s input u) (input u) = [x] ∧
      emitted step emit (trace step s input (u + 1)) (fun v => input (u + 1 + v)) n = l₂ := by
  induction t generalizing l₂ with
  | zero => simp [emitted] at h
  | succ t ih =>
    have hlast := hone t
    rw [emitted] at h
    cases hemit : emit (trace step s input t) (input t) with
    | nil =>
      rw [hemit, List.append_nil] at h
      obtain ⟨u, n, rfl, hbefore, hnow, hafter⟩ := ih h
      refine ⟨u, n + 1, rfl, hbefore, hnow, ?_⟩
      rw [emitted, hafter, ← trace_add, hemit, List.append_nil]
    | cons y l =>
      have hnil : l = [] := by
        rw [hemit, List.length_cons] at hlast
        exact List.length_eq_zero_iff.mp (by omega)
      rw [hemit, hnil] at h
      rcases List.eq_nil_or_concat l₂ with rfl | ⟨l₃, z, rfl⟩
      · obtain ⟨hbefore, hxy⟩ := List.append_inj' h rfl
        exact ⟨t, 0, rfl, hbefore, by rw [hemit, hnil, hxy], rfl⟩
      · rw [List.concat_eq_append, ← List.cons_append, ← List.append_assoc] at h
        obtain ⟨h, hyz⟩ := List.append_inj' h rfl
        obtain ⟨u, n, rfl, hbefore, hnow, hafter⟩ := ih h
        refine ⟨u, n + 1, rfl, hbefore, hnow, ?_⟩
        rw [emitted, hafter, ← trace_add, hemit, hnil, hyz, List.concat_eq_append]

/-- **The prefix rule.** -/
theorem emitted_append (hone : ∀ u, (emit (trace step s input u) (input u)).length ≤ 1) {t : ℕ}
    {l₁ l₂ : List ε} (h : emitted step emit s input t = l₁ ++ l₂) :
    ∃ u n, t = u + n ∧ emitted step emit s input u = l₁ ∧
      emitted step emit (trace step s input u) (fun v => input (u + v)) n = l₂ := by
  cases l₂ with
  | nil => exact ⟨t, 0, rfl, h.trans (List.append_nil l₁), rfl⟩
  | cons x l₂ =>
    obtain ⟨u, n, rfl, hbefore, hnow, hafter⟩ := emitted_append_cons hone h
    refine ⟨u, 1 + n, Nat.add_assoc u 1 n, hbefore, ?_⟩
    have hstep : emitted step emit (trace step s input u) (fun v => input (u + v)) 1 = [x] := hnow
    rw [emitted_add, hstep, ← trace_add]
    exact congrArg _ (by rw [← hafter]; simp only [Nat.add_assoc])

end OneEach

end MatrixAccelerator.Library
