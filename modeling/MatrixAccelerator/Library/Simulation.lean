import MatrixAccelerator.Library.SynchronousMachine

/-!
# Simulation between synchronous machines

A machine keeps up with another if every edge takes related states to related states, when
it is told what each input of the other one means.  Related states then stay related along
every stream and every list of inputs, so a view that related states share is the same
after every edge.
-/

set_option autoImplicit false

namespace MatrixAccelerator.Library

variable {σ τ ι κ : Type*}

/-- Every edge of `step` and the edge of `step'` on the told input keep `R`. -/
def Simulates (step : σ → ι → σ) (step' : τ → κ → τ) (tell : ι → κ) (R : σ → τ → Prop) : Prop :=
  ∀ s t i, R s t → R (step s i) (step' t (tell i))

namespace Simulates

variable {step : σ → ι → σ} {step' : τ → κ → τ} {tell : ι → κ} {R : σ → τ → Prop} {s : σ} {t : τ}

/-- **The stream rule.** -/
theorem along_trace (h : Simulates step step' tell R) (hR : R s t) (input : ℕ → ι) (n : ℕ) :
    R (trace step s input n) (trace step' t (fun u => tell (input u)) n) := by
  induction n with
  | zero => exact hR
  | succ n ih => exact h _ _ (input n) ih

/-- **The run rule.** -/
theorem along_run (h : Simulates step step' tell R) (hR : R s t) (l : List ι) :
    R (run step s l) (run step' t (l.map tell)) := by
  induction l generalizing s t with
  | nil => exact hR
  | cons i l ih => exact ih (h s t i hR)

end Simulates

end MatrixAccelerator.Library
