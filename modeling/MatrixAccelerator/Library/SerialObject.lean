import MatrixAccelerator.Library.EventLog

/-!
# A served object

An object takes operations one after another: `serve` is its next state and `reply` what the
operation is answered with.  A machine that takes operations on some edges and answers them
on the next one stands for the object: along every stream the answers are those of the
object to the log of what was taken, in the order it was taken (`AnswersLate.answered`), and
its state is the one the log leads to.
-/

set_option autoImplicit false

namespace MatrixAccelerator.Library

variable {σ ι τ κ ν : Type*}

/-- An edge answers what is owed, and owes the replies to what it takes.  `R` relates the state
to the object and to what is owed, and `P` is what the inputs promise. -/
def AnswersLate (step : σ → ι → σ) (taken : σ → ι → List κ) (answer : σ → ι → List ν)
    (serve : τ → κ → τ) (reply : τ → κ → List ν) (P : ι → Prop)
    (R : σ → τ → List ν → Prop) : Prop :=
  ∀ s a owed i, P i → R s a owed → answer s i = owed ∧
    R (step s i) (run serve a (taken s i)) (runLog serve reply a (taken s i))

namespace AnswersLate

variable {step : σ → ι → σ} {taken : σ → ι → List κ} {answer : σ → ι → List ν}
  {serve : τ → κ → τ} {reply : τ → κ → List ν} {P : ι → Prop} {R : σ → τ → List ν → Prop}
  {s : σ} {a : τ} {owed : List ν}

/-- **The service rule.**  After every edge the object has served the log, and what was
answered and what is owed are its replies. -/
theorem along_trace (h : AnswersLate step taken answer serve reply P R) (hR : R s a owed)
    {input : ℕ → ι} (hP : ∀ t, P (input t)) (t : ℕ) :
    ∃ rest, R (trace step s input t) (run serve a (emitted step taken s input t)) rest ∧
      emitted step answer s input t ++ rest =
        owed ++ runLog serve reply a (emitted step taken s input t) := by
  induction t with
  | zero => exact ⟨owed, hR, (List.append_nil owed).symm⟩
  | succ t ih =>
    obtain ⟨rest, hrest, hlog⟩ := ih
    obtain ⟨hanswer, hnext⟩ := h _ _ _ _ (hP t) hrest
    rw [← run_append] at hnext
    refine ⟨_, hnext, ?_⟩
    rw [emitted, emitted, hanswer, hlog, runLog_append, List.append_assoc]

/-- After every edge the object has served the log. -/
theorem served (h : AnswersLate step taken answer serve reply P R) (hR : R s a owed)
    {input : ℕ → ι} (hP : ∀ t, P (input t)) (t : ℕ) :
    ∃ rest, R (trace step s input t) (run serve a (emitted step taken s input t)) rest := by
  obtain ⟨rest, hrest, _⟩ := h.along_trace hR hP t
  exact ⟨rest, hrest⟩

/-- **The answers come one edge late.** -/
theorem answered (h : AnswersLate step taken answer serve reply P R) (hR : R s a owed)
    {input : ℕ → ι} (hP : ∀ t, P (input t)) (t : ℕ) :
    emitted step answer s input (t + 1) =
      owed ++ runLog serve reply a (emitted step taken s input t) := by
  obtain ⟨rest, hrest, hlog⟩ := h.along_trace hR hP t
  rw [emitted, (h _ _ _ _ (hP t) hrest).1, hlog]

end AnswersLate

end MatrixAccelerator.Library
