import MatrixAccelerator.Analysis.DriverContracts
import MatrixAccelerator.Analysis.PlayedDriver

/-!
# The driver on the board

The interconnect hands the accelerator the log the processor sees, so what the processor reads
can be told from its own log of the accesses it has seen done, whatever else it does on the
bus.  It keeps the bus protocol, and the other slaves respond only to reads of their own; a
processor that plays the driver back to back meets both.
-/

set_option autoImplicit false

namespace MatrixAccelerator.Analysis

open MatrixAccelerator.Library MatrixAccelerator.Model MatrixAccelerator.Model.Driver
  MatrixAccelerator.Interface

/-! ## The core under the board -/

section Core

variable {σ : Type} (coreStep : σ → AvsCycle → σ) (readdata : σ → BitVec 32)

/-- What the accelerator's bus carries on the board. -/
def carried (b : Board σ) (input : ℕ → FabricCycle) (t : ℕ) : AvsCycle :=
  (trace (Board.step coreStep readdata) b input t).fabric.avsCycle (input t)

/-- The accelerator on the board runs as it does alone on the cycles its bus carries. -/
theorem core_trace (b : Board σ) (input : ℕ → FabricCycle) (t : ℕ) :
    (trace (Board.step coreStep readdata) b input t).core =
      trace coreStep b.core (carried coreStep readdata b input) t :=
  trace_simulates (Board.step coreStep readdata) b Board.core fun _ _ => rfl

/-- What the board performs is the log of the accelerator alone. -/
theorem performed_log (b : Board σ) (input : ℕ → FabricCycle) (t : ℕ) :
    emitted (Board.step coreStep readdata) (performed coreStep readdata) b input t =
      emitted coreStep (performedAt coreStep readdata) b.core
        (carried coreStep readdata b input) t := by
  induction t with
  | zero => rfl
  | succ t ih => rw [emitted, emitted, ih, performed, core_trace]; rfl

/-- The accelerator's bus never carries both strobes. -/
theorem carried_exclusive {b : Board σ} {input : ℕ → FabricCycle}
    (h : ∀ t, (input t).av.write = true → (input t).av.read = false) (t : ℕ) :
    (carried coreStep readdata b input t).write = true →
      (carried coreStep readdata b input t).read = false := by
  unfold carried
  generalize (trace (Board.step coreStep readdata) b input t).fabric = s
  intro hwrite
  have hmaster : (input t).av.write = true := by
    simp only [Interconnect.avsCycle, SlaveTranslator.av, SlaveAgent.m0Write, Interconnect.command,
      MasterAgent.cpData, MasterTranslator.uavWrite, Bool.and_eq_true] at hwrite
    exact hwrite.2.2.1
  simp [Interconnect.avsCycle, SlaveTranslator.av, Interconnect.m0Read, SlaveAgent.m0Read,
    Interconnect.command, MasterAgent.cpData, MasterTranslator.uavRead, h t hmaster]

end Core

/-- INTERNAL: The log of the core, from the log the processor sees. -/
theorem log_of_completed {N : ℕ} {σ : Type} (K : DriverContract N σ) {core : σ}
    {input : ℕ → FabricCycle}
    (hprotocol : Protocol K.step K.readdata ⟨Interconnect.reset, core⟩ input)
    (hsolicited : ∀ t, Solicited (input t)) {t : ℕ} {log : List Access}
    (h : emitted (Board.step K.step K.readdata) (completed K.readdata)
      ⟨Interconnect.reset, core⟩ input (t + 1) = log) :
    ∃ owed, K.log core (carried K.step K.readdata ⟨Interconnect.reset, core⟩ input) (t + 1) =
      performed K.step K.readdata ⟨Interconnect.reset, core⟩ (input 0) ++ (log ++ owed) := by
  obtain ⟨stage, -, -, hlog⟩ := stage_from_reset hprotocol hsolicited t
  rw [performed_log, h] at hlog
  exact ⟨_, hlog⟩

/-- A cycle in which the processor asks nothing performs nothing. -/
theorem performed_idle {σ : Type} {coreStep : σ → AvsCycle → σ} {readdata : σ → BitVec 32}
    (b : Board σ) {c : FabricCycle} (hread : c.av.read = false) (hwrite : c.av.write = false) :
    performed coreStep readdata b c = [] := by
  have hbus : (b.fabric.avsCycle c).write = false ∧ (b.fabric.avsCycle c).read = false := by
    simp [Interconnect.avsCycle, Interconnect.m0Read, SlaveTranslator.av, SlaveAgent.m0Read,
      SlaveAgent.m0Write, Interconnect.command, MasterAgent.cpData, MasterTranslator.uavRead,
      MasterTranslator.uavWrite, hread, hwrite]
  rw [performed, performedAt, hbus.1, hbus.2]
  rfl

/-- Up to `N = 32` a matrix fits its window. -/
theorem window_fits {N : ℕ} (hN : N ≤ 32) : N * N ≤ 0x400 := Nat.mul_le_mul hN hN

/-- The driver's own writes outlast the latency of the Qsys copy. -/
theorem qsys_latency_le {N : ℕ} (hN84 : N ≤ 84) (hN : 2 ≤ N) :
    (qsysContract hN84).latency ≤ 3 * (N * N) + 1 := by
  have hsquare : 2 * N ≤ N * N := Nat.mul_le_mul_right N hN
  have hlatency : (qsysContract hN84).latency = 3 * N + 3 := rfl
  omega

/-- The driver's own writes outlast the latency of the root copy. -/
theorem root_latency_le {N : ℕ} (hN84 : N ≤ 84) (hN : 3 ≤ N) :
    (rootContract hN84).latency ≤ 3 * (N * N) + 1 := by
  have hsquare : 3 * N ≤ N * N := Nat.mul_le_mul_right N hN
  have hlatency : (rootContract hN84).latency = 5 * N + 4 := rfl
  omega

/-- An idle cycle leaves the Qsys copy as reset does. -/
theorem qsys_first_cycle (N : ℕ) (hN84 : N ≤ 84) :
    (qsysContract hN84).Sound ((qsysContract hN84).step (Qsys.MatrixAccelTop.reset N) noAccess) ∧
      (qsysContract hN84).Resting
        ((qsysContract hN84).step (Qsys.MatrixAccelTop.reset N) noAccess) ∧
      (qsysContract hN84).elements
        ((qsysContract hN84).step (Qsys.MatrixAccelTop.reset N) noAccess) =
          fun _ _ => 0#16 := by
  have hsound : (qsysContract hN84).Sound (Qsys.MatrixAccelTop.reset N) :=
    ⟨_, qsys_reset_represents N⟩
  obtain ⟨hrests, hsame⟩ := (qsysContract hN84).holds (Qsys.MatrixAccelTop.reset N) noAccess hsound
    (reset_atRest N) rfl
  exact ⟨(qsysContract hN84).sound_step _ _ hsound, hrests, hsame⟩

/-- What a processor that plays one driver program sees done, by the form of it. -/
theorem completed_driver {N : ℕ} {σ : Type} (coreStep : σ → AvsCycle → σ)
    (readdata : σ → BitVec 32) (core : σ) (polls : ℕ) (A B : Fin (N * N) → Word) :
    ∃ r : DriverRun N, r.matrixA = A ∧ r.matrixB = B ∧ r.polls.length = polls ∧
      (∀ a ∈ r.polls, a.isLoad = true) ∧ (∀ a ∈ r.results, a.isLoad = true) ∧
      emitted (Board.step coreStep readdata) (completed readdata) ⟨Interconnect.reset, core⟩
        (played (driverProgram polls A B)) (2 * (driverProgram polls A B).length + 1) =
          [] ++ (r.log ++ []) := by
  obtain ⟨r, hA, hB, hlength, hpolls, hresults, hlog⟩ :=
    driverProgram_log coreStep readdata (coreStep core noAccess) polls A B
  refine ⟨r, hA, hB, hlength, hpolls, hresults, ?_⟩
  rw [completed_played driverProgram_exclusive, hlog, List.append_nil, List.nil_append]

/-- What a processor that plays two driver programs sees done on the board as generated. -/
theorem completed_two_drivers (N : ℕ) (hN : N ≤ 32) (A B A' B' : Fin (N * N) → Word) :
    ∃ r r' : DriverRun N, r.matrixA = A ∧ r.matrixB = B ∧ r'.matrixA = A' ∧ r'.matrixB = B' ∧
      r.Ended ∧ r'.Ended ∧
      emitted (Board.step Qsys.MatrixAccelTop.step Qsys.MatrixAccelTop.avsReaddata)
          (completed Qsys.MatrixAccelTop.avsReaddata)
          ⟨Interconnect.reset, Qsys.MatrixAccelTop.reset N⟩
          (played (driverPrograms ((3 * N + 3) / 2) [(A, B), (A', B')]))
          (2 * (driverPrograms ((3 * N + 3) / 2) [(A, B), (A', B')]).length + 1) =
        ([r].map DriverRun.log).flatten ++ (r'.log ++ []) := by
  have hN84 : N ≤ 84 := by omega
  have hwindow := window_fits hN
  obtain ⟨hsound, hrests, -⟩ := qsys_first_cycle N hN84
  obtain ⟨r, hA, hB, hended, hlog⟩ := played_driverRun (qsysContract hN84) hwindow hsound hrests A B
  obtain ⟨hsound', hrests', -⟩ := played_runs (qsysContract hN84) hwindow hsound hrests [(A, B)]
  obtain ⟨r', hA', hB', hended', hlog'⟩ :=
    played_driverRun (qsysContract hN84) hwindow hsound' hrests' A' B'
  refine ⟨r, r', hA, hB, hA', hB', hended, hended', ?_⟩
  have hfirst : driverPrograms ((3 * N + 3) / 2) [(A, B)] =
      driverProgram ((3 * N + 3) / 2) A B := driverPrograms_append _ [] A B
  have hprogram : driverPrograms ((3 * N + 3) / 2) [(A, B), (A', B')] = _ :=
    driverPrograms_append _ [(A, B)] A' B'
  rw [completed_played driverPrograms_exclusive, hprogram, runLog_append, List.append_nil,
    List.map_singleton, List.flatten_singleton]
  refine congrArg₂ _ ?_ hlog'
  rw [hfirst]
  exact hlog

/-! ## The board as generated -/

/-- **Driver runs on the board.**  The Qsys copy behind the interconnect, from reset, under the
bus protocol, with the other slaves responding only to reads of their own and no request in the
first cycle: if what the processor has seen done is a row of driver runs, however spaced, then
each run reads the products of its operands added to the sums of the runs before it, in the
order of the array.  The first one reads the product.
RTL: system/synthesis/system.v:409-419, Software/matrix_accel_SW/source.c:65-127 -/
theorem board_runs_accumulate (N : ℕ) (hN : 2 ≤ N ∧ N ≤ 32) (input : ℕ → FabricCycle)
    (hprotocol : Protocol Qsys.MatrixAccelTop.step Qsys.MatrixAccelTop.avsReaddata
      ⟨Interconnect.reset, Qsys.MatrixAccelTop.reset N⟩ input)
    (hsolicited : ∀ t, Solicited (input t))
    (hfirst : (input 0).av.read = false ∧ (input 0).av.write = false)
    (earlier : List (DriverRun N)) (r : DriverRun N) (hearlier : ∀ r' ∈ earlier, r'.Ended)
    (hr : r.Ended) (t : ℕ) (rest : List Access)
    (hlog : emitted (Board.step Qsys.MatrixAccelTop.step Qsys.MatrixAccelTop.avsReaddata)
        (completed Qsys.MatrixAccelTop.avsReaddata)
        ⟨Interconnect.reset, Qsys.MatrixAccelTop.reset N⟩ input (t + 1) =
      (earlier.map DriverRun.log).flatten ++ (r.log ++ rest)) :
    r.Reads fun i j => macFold
      (earlier.foldl (fun sums r' i j => macFold (sums i j) (operands r'.matrixA r'.matrixB i j))
        (fun _ _ => 0#16) i j)
      (operands r.matrixA r.matrixB i j) := by
  have hN84 : N ≤ 84 := by omega
  obtain ⟨owed, hcore⟩ := log_of_completed (qsysContract hN84) hprotocol hsolicited hlog
  have hnothing : performed Qsys.MatrixAccelTop.step Qsys.MatrixAccelTop.avsReaddata
      ⟨Interconnect.reset, Qsys.MatrixAccelTop.reset N⟩ (input 0) = [] :=
    performed_idle _ hfirst.1 hfirst.2
  rw [List.append_assoc, List.append_assoc] at hcore
  have hquiet : ∀ a ∈ performed Qsys.MatrixAccelTop.step Qsys.MatrixAccelTop.avsReaddata
      ⟨Interconnect.reset, Qsys.MatrixAccelTop.reset N⟩ (input 0), a.isStart = false := by
    rw [hnothing]
    exact fun a ha => absurd ha List.not_mem_nil
  have hreads := driver_runs_of_log (qsysContract hN84)
    (carried_exclusive _ _ hprotocol.exclusive) (window_fits hN.2) (qsys_latency_le hN84 hN.1)
    hearlier hr hquiet ⟨_, qsys_reset_represents N⟩ (reset_atRest N) hcore
  exact hreads

/-- Two runs over the driver's matrices. -/
theorem board_runs_accumulate_twice :
    ∃ r r' : DriverRun 3, r.Ended ∧ r'.Ended ∧
      emitted (Board.step Qsys.MatrixAccelTop.step Qsys.MatrixAccelTop.avsReaddata)
          (completed Qsys.MatrixAccelTop.avsReaddata)
          ⟨Interconnect.reset, Qsys.MatrixAccelTop.reset 3⟩
          (played (driverPrograms ((3 * 3 + 3) / 2)
            [(matrixAFp16, matrixBFp16), (matrixAFp16, matrixBFp16)]))
          (2 * (driverPrograms ((3 * 3 + 3) / 2)
            [(matrixAFp16, matrixBFp16), (matrixAFp16, matrixBFp16)]).length + 1) =
        ([r].map DriverRun.log).flatten ++ (r'.log ++ []) ∧
      r'.Reads fun i j => macFold
        ([r].foldl (fun sums r' i j => macFold (sums i j) (operands r'.matrixA r'.matrixB i j))
          (fun _ _ => 0#16) i j)
        (operands r'.matrixA r'.matrixB i j) := by
  obtain ⟨r, r', -, -, -, -, hr, hr', hlog⟩ := completed_two_drivers 3 (by decide)
    matrixAFp16 matrixBFp16 matrixAFp16 matrixBFp16
  exact ⟨r, r', hr, hr', hlog, board_runs_accumulate 3 (by decide) _
    (protocol_played driverPrograms_exclusive) (solicited_played _) ⟨rfl, rfl⟩ [r] r'
    (List.forall_mem_singleton.mpr hr) hr'
    (2 * (driverPrograms ((3 * 3 + 3) / 2)
      [(matrixAFp16, matrixBFp16), (matrixAFp16, matrixBFp16)]).length) [] hlog⟩

/-- **Polling on the board ends.**  The Qsys copy behind the interconnect, from reset, under the
bus protocol, with the other slaves responding only to reads of their own: whatever was done
before, a driver run that has polled for the latency reads the done bit.
RTL: Software/matrix_accel_SW/source.c:104-110 -/
theorem board_polling_ends (N : ℕ) (hN : 2 ≤ N ∧ N ≤ 32) (input : ℕ → FabricCycle)
    (hprotocol : Protocol Qsys.MatrixAccelTop.step Qsys.MatrixAccelTop.avsReaddata
      ⟨Interconnect.reset, Qsys.MatrixAccelTop.reset N⟩ input)
    (hsolicited : ∀ t, Solicited (input t)) (before rest : List Access) (r : DriverRun N)
    (hpolls : ∀ a ∈ r.polls, a.isLoad = true) (hresults : ∀ a ∈ r.results, a.isLoad = true)
    (hlong : 3 * N + 3 ≤ r.polls.length) (t : ℕ)
    (hlog : emitted (Board.step Qsys.MatrixAccelTop.step Qsys.MatrixAccelTop.avsReaddata)
        (completed Qsys.MatrixAccelTop.avsReaddata)
        ⟨Interconnect.reset, Qsys.MatrixAccelTop.reset N⟩ input (t + 1) =
      before ++ (r.log ++ rest)) : r.status &&& 0x02#32 ≠ 0#32 := by
  have hN84 : N ≤ 84 := by omega
  obtain ⟨owed, hcore⟩ := log_of_completed (qsysContract hN84) hprotocol hsolicited hlog
  rw [List.append_assoc, List.append_assoc, ← List.append_assoc] at hcore
  obtain ⟨u, w, n, -, hdone, -⟩ := driver_run_of_log (qsysContract hN84)
    (carried_exclusive _ _ hprotocol.exclusive) ⟨_, qsys_reset_represents N⟩ (window_fits hN.2)
    (qsys_latency_le hN84 hN.1) hpolls hresults hcore
  exact hdone hlong

/-- A driver that polls twelve times. -/
theorem board_polling_ends_twelve :
    ∃ r : DriverRun 3, r.polls.length = 12 ∧
      emitted (Board.step Qsys.MatrixAccelTop.step Qsys.MatrixAccelTop.avsReaddata)
          (completed Qsys.MatrixAccelTop.avsReaddata)
          ⟨Interconnect.reset, Qsys.MatrixAccelTop.reset 3⟩
          (played (driverProgram 12 matrixAFp16 matrixBFp16))
          (2 * (driverProgram 12 matrixAFp16 matrixBFp16).length + 1) =
        [] ++ (r.log ++ []) ∧
      r.status &&& 0x02#32 ≠ 0#32 := by
  obtain ⟨r, -, -, hlength, hpolls, hresults, hlog⟩ := completed_driver (N := 3)
    Qsys.MatrixAccelTop.step Qsys.MatrixAccelTop.avsReaddata (Qsys.MatrixAccelTop.reset 3) 12
    matrixAFp16 matrixBFp16
  exact ⟨r, hlength, hlog, board_polling_ends 3 (by decide) _
    (protocol_played driverProgram_exclusive) (solicited_played _) [] [] r hpolls hresults
    hlength.ge (2 * (driverProgram 12 matrixAFp16 matrixBFp16).length) hlog⟩

/-! ## The board with the root copy -/

/-- **Driver runs with the root copy.**  The root copy behind the same interconnect, under the
bus protocol, with the other slaves responding only to reads of their own: whatever was done
before, on the accelerator or elsewhere, a driver run that ends reads exactly the product of its
own operands, and one that has polled for the latency ends.
RTL: matrix_accel_top_systolic_array.v:94-177, Software/matrix_accel_SW/source.c:65-127 -/
theorem root_board_reads_product (N : ℕ) (hN : 3 ≤ N ∧ N ≤ 32) (input : ℕ → FabricCycle)
    (hprotocol : Protocol MatrixAccelTop.step MatrixAccelTop.avsReaddata
      ⟨Interconnect.reset, MatrixAccelTop.reset N⟩ input)
    (hsolicited : ∀ t, Solicited (input t)) (before rest : List Access) (r : DriverRun N)
    (hpolls : ∀ a ∈ r.polls, a.isLoad = true) (hresults : ∀ a ∈ r.results, a.isLoad = true)
    (t : ℕ)
    (hlog : emitted (Board.step MatrixAccelTop.step MatrixAccelTop.avsReaddata)
        (completed MatrixAccelTop.avsReaddata)
        ⟨Interconnect.reset, MatrixAccelTop.reset N⟩ input (t + 1) =
      before ++ (r.log ++ rest)) :
    (5 * N + 4 ≤ r.polls.length → r.status &&& 0x02#32 ≠ 0#32) ∧
      (r.status &&& 0x02#32 ≠ 0#32 → r.Reads (productEntry r.matrixA r.matrixB)) := by
  have hN84 : N ≤ 84 := by omega
  obtain ⟨owed, hcore⟩ := log_of_completed (rootContract hN84) hprotocol hsolicited hlog
  rw [List.append_assoc, List.append_assoc, ← List.append_assoc] at hcore
  obtain ⟨u, w, n, -, hdone, hreads, -⟩ := driver_run_of_log (rootContract hN84)
    (carried_exclusive _ _ hprotocol.exclusive) (reset_cleanPipeline N) (window_fits hN.2)
    (root_latency_le hN84 hN.1) hpolls hresults hcore
  exact ⟨hdone, fun hstatus => (hreads hstatus).1⟩

/-- A driver that polls nineteen times. -/
theorem root_board_reads_product_nineteen :
    ∃ r : DriverRun 3, r.polls.length = 19 ∧
      emitted (Board.step MatrixAccelTop.step MatrixAccelTop.avsReaddata)
          (completed MatrixAccelTop.avsReaddata)
          ⟨Interconnect.reset, MatrixAccelTop.reset 3⟩
          (played (driverProgram 19 matrixAFp16 matrixBFp16))
          (2 * (driverProgram 19 matrixAFp16 matrixBFp16).length + 1) =
        [] ++ (r.log ++ []) ∧
      r.status &&& 0x02#32 ≠ 0#32 ∧ r.Reads (productEntry r.matrixA r.matrixB) := by
  obtain ⟨r, -, -, hlength, hpolls, hresults, hlog⟩ := completed_driver (N := 3)
    MatrixAccelTop.step MatrixAccelTop.avsReaddata (MatrixAccelTop.reset 3) 19
    matrixAFp16 matrixBFp16
  obtain ⟨hends, hreads⟩ := root_board_reads_product 3 (by decide) _
    (protocol_played driverProgram_exclusive) (solicited_played _) [] [] r hpolls hresults
    (2 * (driverProgram 19 matrixAFp16 matrixBFp16).length) hlog
  exact ⟨r, hlength, hlog, hends hlength.ge, hreads (hends hlength.ge)⟩

/-! ## Back to back -/

/-- **The driver back to back.**  The Qsys copy behind the interconnect, from reset: a
processor that plays driver programs one after the other, each access for two cycles, finds
the accelerator busy for exactly `(3 * N + 3) / 2` polls of each, and reads the products of the
operands added to the sums of the programs before.
RTL: system/synthesis/system.v:409-419, Software/matrix_accel_SW/source.c:65-127 -/
theorem board_back_to_back (N : ℕ) (hN : 1 ≤ N ∧ N ≤ 32)
    (earlier : List ((Fin (N * N) → Word) × (Fin (N * N) → Word))) (A B : Fin (N * N) → Word) :
    ∃ (polls : List (BitVec 32)) (status : BitVec 32),
      polls.length = (3 * N + 3) / 2 ∧ (∀ word ∈ polls, word &&& 0x02#32 = 0#32) ∧
      status &&& 0x02#32 ≠ 0#32 ∧
      emitted (Board.step Qsys.MatrixAccelTop.step Qsys.MatrixAccelTop.avsReaddata)
          (completed Qsys.MatrixAccelTop.avsReaddata)
          ⟨Interconnect.reset, Qsys.MatrixAccelTop.reset N⟩
          (played (driverPrograms ((3 * N + 3) / 2) (earlier ++ [(A, B)])))
          (2 * (driverPrograms ((3 * N + 3) / 2) (earlier ++ [(A, B)])).length + 1) =
        emitted (Board.step Qsys.MatrixAccelTop.step Qsys.MatrixAccelTop.avsReaddata)
            (completed Qsys.MatrixAccelTop.avsReaddata)
            ⟨Interconnect.reset, Qsys.MatrixAccelTop.reset N⟩
            (played (driverPrograms ((3 * N + 3) / 2) earlier))
            (2 * (driverPrograms ((3 * N + 3) / 2) earlier).length + 1) ++
          ((commandWrites A B).map storeAccess ++ (polls.map (Access.load 0#14) ++
            Access.load 0#14 status :: (readOrder N).map fun p =>
              Access.load (elementRead p).address (0#16 ++ macFold
                (earlier.foldl (fun sums q i j => macFold (sums i j) (operands q.1 q.2 i j))
                  (fun _ _ => 0#16) p.1 p.2)
                (operands A B p.1 p.2)))) := by
  have hN84 : N ≤ 84 := by omega
  have hwindow := window_fits hN.2
  obtain ⟨hsound, hrests, helements⟩ := qsys_first_cycle N hN84
  obtain ⟨hsound', hrests', hmade⟩ := played_runs (qsysContract hN84) hwindow hsound hrests earlier
  obtain ⟨polls, status, hlength, hbusy, hstatus, hlog, -⟩ :=
    played_run (qsysContract hN84) hwindow hsound' hrests' A B
  rw [hmade, helements] at hlog
  refine ⟨polls, status, hlength, hbusy, hstatus, ?_⟩
  rw [completed_played driverPrograms_exclusive, completed_played driverPrograms_exclusive,
    driverPrograms_append, runLog_append]
  exact congrArg _ hlog

/-- Two programs over the driver's matrices. -/
theorem board_back_to_back_twice :
    ∃ (polls : List (BitVec 32)) (status : BitVec 32),
      polls.length = (3 * 3 + 3) / 2 ∧ (∀ word ∈ polls, word &&& 0x02#32 = 0#32) ∧
      status &&& 0x02#32 ≠ 0#32 ∧
      emitted (Board.step Qsys.MatrixAccelTop.step Qsys.MatrixAccelTop.avsReaddata)
          (completed Qsys.MatrixAccelTop.avsReaddata)
          ⟨Interconnect.reset, Qsys.MatrixAccelTop.reset 3⟩
          (played (driverPrograms ((3 * 3 + 3) / 2)
            ([(matrixAFp16, matrixBFp16)] ++ [(matrixAFp16, matrixBFp16)])))
          (2 * (driverPrograms ((3 * 3 + 3) / 2)
            ([(matrixAFp16, matrixBFp16)] ++ [(matrixAFp16, matrixBFp16)])).length + 1) =
        emitted (Board.step Qsys.MatrixAccelTop.step Qsys.MatrixAccelTop.avsReaddata)
            (completed Qsys.MatrixAccelTop.avsReaddata)
            ⟨Interconnect.reset, Qsys.MatrixAccelTop.reset 3⟩
            (played (driverPrograms ((3 * 3 + 3) / 2) [(matrixAFp16, matrixBFp16)]))
            (2 * (driverPrograms ((3 * 3 + 3) / 2) [(matrixAFp16, matrixBFp16)]).length + 1) ++
          ((commandWrites matrixAFp16 matrixBFp16).map storeAccess ++
            (polls.map (Access.load 0#14) ++
              Access.load 0#14 status :: (readOrder 3).map fun p =>
                Access.load (elementRead p).address (0#16 ++ macFold
                  ([(matrixAFp16, matrixBFp16)].foldl
                    (fun sums q i j => macFold (sums i j) (operands q.1 q.2 i j))
                    (fun _ _ => 0#16) p.1 p.2)
                  (operands matrixAFp16 matrixBFp16 p.1 p.2)))) :=
  board_back_to_back 3 (by decide) [(matrixAFp16, matrixBFp16)] matrixAFp16 matrixBFp16

end MatrixAccelerator.Analysis
