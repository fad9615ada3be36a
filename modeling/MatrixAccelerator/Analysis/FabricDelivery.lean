import MatrixAccelerator.Analysis.BackToBack

/-!
# The interconnect delivers once

What the accelerator has done is what the processor has seen done, and at most one access
more; and a request to the accelerator waits for one cycle.  The processor is taken to keep the
bus protocol, and the other three slaves to respond to reads of their own only.
-/

set_option autoImplicit false

namespace MatrixAccelerator.Analysis

open MatrixAccelerator.Library MatrixAccelerator.Model MatrixAccelerator.Interface

variable {σ : Type*}

/-- **Every access arrives once.**  Under the bus protocol, with the other slaves responding
only to reads of their own, the accelerator has performed what the processor has seen done and
at most one access more, in the order of the processor and with the words it reads; the one
exception is an access that stands in the first cycle out of reset, which arrives then and
again when it is taken. -/
theorem interconnect_delivers_once (coreStep : σ → AvsCycle → σ) (readdata : σ → BitVec 32)
    (core : σ) (input : ℕ → FabricCycle)
    (hprotocol : Protocol coreStep readdata ⟨Interconnect.reset, core⟩ input)
    (hsolicited : ∀ t, Solicited (input t)) (t : ℕ) :
    ∃ owed : List Access, owed.length ≤ 1 ∧
      ((input (t + 1)).av.read = false → (input (t + 1)).av.write = false → owed = []) ∧
      emitted (Board.step coreStep readdata) (performed coreStep readdata)
          ⟨Interconnect.reset, core⟩ input (t + 1) =
        performed coreStep readdata ⟨Interconnect.reset, core⟩ (input 0) ++
          (emitted (Board.step coreStep readdata) (completed readdata)
            ⟨Interconnect.reset, core⟩ input (t + 1) ++ owed) := by
  obtain ⟨stage, -, hfit, hlog⟩ := stage_from_reset hprotocol hsolicited t
  refine ⟨_, stage.length_owed_le _ _, fun hread hwrite => ?_, hlog⟩
  cases stage with
  | nothing => rfl
  | write => exact absurd (hwrite.symm.trans hfit.1) Bool.false_ne_true
  | read => exact absurd (hread.symm.trans hfit.1) Bool.false_ne_true
  | elsewhere => rfl

/-- A START and a poll, from the second cycle out of reset on. -/
theorem interconnect_delivers_once_poll :
    ∃ owed : List Access, owed.length ≤ 1 ∧
      ((played [Driver.startWrite, statusRead] 5).av.read = false →
        (played [Driver.startWrite, statusRead] 5).av.write = false → owed = []) ∧
      emitted (Board.step MatrixAccelTop.step MatrixAccelTop.avsReaddata)
          (performed MatrixAccelTop.step MatrixAccelTop.avsReaddata)
          ⟨Interconnect.reset, MatrixAccelTop.reset 3⟩ (played [Driver.startWrite, statusRead]) 5 =
        performed MatrixAccelTop.step MatrixAccelTop.avsReaddata
            ⟨Interconnect.reset, MatrixAccelTop.reset 3⟩
            (played [Driver.startWrite, statusRead] 0) ++
          (emitted (Board.step MatrixAccelTop.step MatrixAccelTop.avsReaddata)
            (completed MatrixAccelTop.avsReaddata)
            ⟨Interconnect.reset, MatrixAccelTop.reset 3⟩
            (played [Driver.startWrite, statusRead]) 5 ++ owed) :=
  interconnect_delivers_once MatrixAccelTop.step MatrixAccelTop.avsReaddata (MatrixAccelTop.reset 3)
    (played [Driver.startWrite, statusRead])
    (protocol_played (List.forall_mem_cons.mpr
      ⟨fun _ => rfl, List.forall_mem_singleton.mpr fun hwrite => Bool.noConfusion hwrite⟩))
    (solicited_played _) 4

/-- **The accelerator answers by the second cycle.**  Under the bus protocol, with the other
slaves responding only to reads of their own, a request to the accelerator that has to wait
does not wait in the next cycle; the first cycle after reset is left out. -/
theorem accelerator_answers (coreStep : σ → AvsCycle → σ) (readdata : σ → BitVec 32) (core : σ)
    (input : ℕ → FabricCycle)
    (hprotocol : Protocol coreStep readdata ⟨Interconnect.reset, core⟩ input)
    (hsolicited : ∀ t, Solicited (input t)) (t : ℕ)
    (haccel : srcChannel (input (t + 1)).av.address = Slave.matrixAccel)
    (hrequest : (input (t + 1)).av.read = true ∨ (input (t + 1)).av.write = true)
    (hwait : (trace (Board.step coreStep readdata) ⟨Interconnect.reset, core⟩ input
      (t + 1)).waitrequest readdata (input (t + 1)) = true) :
    (trace (Board.step coreStep readdata) ⟨Interconnect.reset, core⟩ input
      (t + 2)).waitrequest readdata (input (t + 2)) = false := by
  obtain ⟨stage, hat, hfit, -⟩ := stage_from_reset hprotocol hsolicited t
  have hsame := hprotocol.held (t + 1) hrequest hwait
  have hready : stage = Stage.write ∨ stage = Stage.read → False := fun hstage =>
    Bool.false_ne_true ((waitrequest_taken hat hfit (hsolicited _) hstage).symm.trans hwait)
  cases stage with
  | write => exact (hready (Or.inl rfl)).elim
  | read => exact (hready (Or.inr rfl)).elim
  | elsewhere => exact absurd haccel hfit.2
  | nothing =>
    obtain ⟨stage', hedge, hstage'⟩ : ∃ stage',
        Edge coreStep readdata _ (input (t + 1)) Stage.nothing stage' ∧
          (stage' = Stage.write ∨ stage' = Stage.read) :=
      edge_taken hat haccel (hprotocol.exclusive _) (hsolicited _) hrequest hwait
    have hfit' := hedge.fits
    rw [← hsame] at hfit'
    exact waitrequest_taken hedge.next hfit' (hsolicited _) hstage'

/-- A START in the second cycle out of reset. -/
theorem accelerator_answers_start :
    (trace (Board.step MatrixAccelTop.step MatrixAccelTop.avsReaddata)
      ⟨Interconnect.reset, MatrixAccelTop.reset 3⟩ (played [Driver.startWrite]) 2).waitrequest
        MatrixAccelTop.avsReaddata (played [Driver.startWrite] 2) = false :=
  accelerator_answers MatrixAccelTop.step MatrixAccelTop.avsReaddata (MatrixAccelTop.reset 3)
    (played [Driver.startWrite]) (protocol_played (List.forall_mem_singleton.mpr fun _ => rfl))
    (solicited_played _) 0 (srcChannel_request _) (Or.inr rfl)
    (waitrequest_ready (between_zero : Between MatrixAccelTop.step MatrixAccelTop.avsReaddata
      (MatrixAccelTop.reset 3) [Driver.startWrite] 0).ready (Or.inr rfl))

end MatrixAccelerator.Analysis
