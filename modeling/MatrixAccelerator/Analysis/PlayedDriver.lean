import MatrixAccelerator.Analysis.BackToBack
import MatrixAccelerator.Analysis.DriverLog

/-!
# The driver played back to back

What the accelerator answers to the driver's own accesses, each followed by one idle cycle:
the polls find it busy for half of the latency, and every element read is the result.
-/

set_option autoImplicit false

namespace MatrixAccelerator.Analysis

open MatrixAccelerator.Library MatrixAccelerator.Model MatrixAccelerator.Model.Driver
  MatrixAccelerator.Interface

/-! ## The program as a list -/

section Program

variable {σ : Type*} {coreStep : σ → AvsCycle → σ} {readdata : σ → BitVec 32}

/-- The bus cycles of a list of accesses. -/
def slots (l : List AvsCycle) : List AvsCycle := l.flatMap fun bus => [bus, released bus]

theorem slots_cons (bus : AvsCycle) (l : List AvsCycle) :
    slots (bus :: l) = bus :: released bus :: slots l := rfl

theorem length_slots (l : List AvsCycle) : (slots l).length = 2 * l.length := by
  induction l with
  | nil => rfl
  | cons bus l ih =>
    rw [slots_cons, List.length_cons, List.length_cons, List.length_cons, ih]
    omega

/-- A cycle of the program is an access, or one with its strobes taken back. -/
theorem mem_slots {l : List AvsCycle} {bus : AvsCycle} (h : bus ∈ slots l) :
    bus ∈ l ∨ ∃ access ∈ l, bus = released access := by
  obtain ⟨access, haccess, hbus⟩ := List.mem_flatMap.mp h
  simp only [List.mem_cons, List.not_mem_nil, or_false] at hbus
  rcases hbus with rfl | rfl
  · exact Or.inl haccess
  · exact Or.inr ⟨access, haccess, rfl⟩

/-- Going by accesses is going by their cycles. -/
theorem run_slots (s : σ) (l : List AvsCycle) :
    run (slotStep coreStep) s l = run coreStep s (slots l) := by
  induction l generalizing s with
  | nil => rfl
  | cons bus l ih =>
    rw [run_cons, ih, slots_cons, run_cons, run_cons, slotStep]

/-- A write logs its store. -/
theorem performedAt_write {s : σ} {bus : AvsCycle} (hwrite : bus.write = true)
    (hread : bus.read = false) : performedAt coreStep readdata s bus = [storeAccess bus] := by
  rw [performedAt, hwrite, hread]
  rfl

/-- A read logs its load, with the word in the register after the edge. -/
theorem performedAt_read {s : σ} {bus : AvsCycle} (hwrite : bus.write = false)
    (hread : bus.read = true) :
    performedAt coreStep readdata s bus =
      [Access.load bus.address (readdata (coreStep s bus))] := by
  rw [performedAt, hwrite, hread]
  rfl

/-- The accesses of a played program, all of them done. -/
theorem completed_played {core : σ} {program : List AvsCycle}
    (hexclusive : ∀ bus ∈ program, bus.write = true → bus.read = false) :
    emitted (Board.step coreStep readdata) (completed readdata) ⟨Interconnect.reset, core⟩
        (played program) (2 * program.length + 1) =
      runLog (slotStep coreStep) (performedAt coreStep readdata) (coreStep core noAccess)
        program := by
  have hprogram : (List.range program.length).map (accessAt program) = program := by
    apply List.ext_getElem
    · rw [List.length_map, List.length_range]
    · intro k hk hk'
      rw [List.getElem_map, List.getElem_range, accessAt, List.getD_eq_getElem?_getD,
        List.getElem?_eq_getElem hk', Option.getD_some]
  rw [(between_played hexclusive _).log, emitted_eq_runLog, hprogram]

end Program

/-! ## A run of the driver -/

/-- The command writes are writes and not reads. -/
theorem strobes_of_commandWrites {N : ℕ} {A B : Fin (N * N) → Word} {bus : AvsCycle}
    (h : bus ∈ commandWrites A B) : bus.write = true ∧ bus.read = false := by
  simp only [commandWrites, resetWrites, loadWrites, List.mem_append, List.mem_cons, List.mem_map,
    List.mem_finRange, true_and, List.not_mem_nil, or_false] at h
  rcases h with ((rfl | ⟨i, rfl⟩) | ⟨i, rfl⟩ | ⟨i, rfl⟩) | rfl <;> exact ⟨rfl, rfl⟩

/-- The polls are reads and not writes. -/
theorem strobes_of_polls (polls : ℕ) :
    ∀ bus ∈ List.replicate polls statusRead, bus.write = false ∧ bus.read = true := by
  intro bus hbus
  rw [List.eq_of_mem_replicate hbus]
  exact ⟨rfl, rfl⟩

/-- The read-out consists of reads. -/
theorem strobes_of_readOut {N : ℕ} (order : List (Fin N × Fin N)) :
    ∀ bus ∈ order.map elementRead, bus.write = false ∧ bus.read = true := by
  intro bus hbus
  obtain ⟨p, -, rfl⟩ := List.mem_map.mp hbus
  exact ⟨rfl, rfl⟩

/-- After the START the driver writes nothing. -/
theorem write_of_reads {N : ℕ} (polls : ℕ) (order : List (Fin N × Fin N)) :
    ∀ bus ∈ List.replicate polls statusRead ++ statusRead :: order.map elementRead,
      bus.write = false := by
  intro bus hbus
  rcases List.mem_append.mp hbus with h | h
  · exact (strobes_of_polls polls bus h).1
  · rcases List.mem_cons.mp h with rfl | h
    · rfl
    · exact (strobes_of_readOut order bus h).1

/-- No access of the driver has both strobes. -/
theorem driverProgram_exclusive {N : ℕ} {polls : ℕ} {A B : Fin (N * N) → Word} :
    ∀ bus ∈ driverProgram polls A B, bus.write = true → bus.read = false := by
  intro bus hbus hwrite
  rcases List.mem_append.mp hbus with h | h
  · exact (strobes_of_commandWrites h).2
  · rw [write_of_reads polls _ bus h] at hwrite
    cases hwrite

/-- A list of writes logs their stores. -/
theorem stores_log {σ : Type*} (coreStep : σ → AvsCycle → σ) (readdata : σ → BitVec 32)
    {l : List AvsCycle} (hl : ∀ bus ∈ l, bus.write = true ∧ bus.read = false) (s : σ) :
    runLog (slotStep coreStep) (performedAt coreStep readdata) s l = l.map storeAccess := by
  apply runLog_eq_map
  intro bus hbus s
  exact performedAt_write (hl bus hbus).1 (hl bus hbus).2

/-- A list of reads logs one load for each. -/
theorem loads_log {σ : Type*} (coreStep : σ → AvsCycle → σ) (readdata : σ → BitVec 32)
    {l : List AvsCycle} (hl : ∀ bus ∈ l, bus.write = false ∧ bus.read = true) (s : σ) :
    (runLog (slotStep coreStep) (performedAt coreStep readdata) s l).length = l.length ∧
      ∀ a ∈ runLog (slotStep coreStep) (performedAt coreStep readdata) s l, a.isLoad = true := by
  induction l generalizing s with
  | nil => exact ⟨rfl, fun a ha => absurd ha List.not_mem_nil⟩
  | cons bus l ih =>
    obtain ⟨hwrite, hread⟩ := hl bus List.mem_cons_self
    obtain ⟨hlength, hloads⟩ := ih (fun bus' hb => hl bus' (List.mem_cons_of_mem bus hb))
      (slotStep coreStep s bus)
    rw [runLog, performedAt_read hwrite hread, List.singleton_append, List.length_cons, hlength,
      List.length_cons, List.forall_mem_cons]
    exact ⟨rfl, rfl, hloads⟩

/-- The log of a played driver has the form of a run, whatever the accelerator answers. -/
theorem driverProgram_log {N : ℕ} {σ : Type*} (coreStep : σ → AvsCycle → σ)
    (readdata : σ → BitVec 32) (s : σ) (polls : ℕ) (A B : Fin (N * N) → Word) :
    ∃ r : DriverRun N, r.matrixA = A ∧ r.matrixB = B ∧ r.polls.length = polls ∧
      (∀ a ∈ r.polls, a.isLoad = true) ∧ (∀ a ∈ r.results, a.isLoad = true) ∧
      runLog (slotStep coreStep) (performedAt coreStep readdata) s (driverProgram polls A B) =
        r.log := by
  set started := run (slotStep coreStep) s (commandWrites A B) with hstarted
  set polled := run (slotStep coreStep) started (List.replicate polls statusRead) with hpolled
  obtain ⟨hlength, hpolls⟩ := loads_log coreStep readdata (strobes_of_polls polls) started
  obtain ⟨-, hresults⟩ := loads_log coreStep readdata (strobes_of_readOut (readOrder N))
    (slotStep coreStep polled statusRead)
  obtain ⟨word, hstatus⟩ : ∃ word, performedAt coreStep readdata polled statusRead =
      [Access.load 0#14 word] := ⟨_, performedAt_read rfl rfl⟩
  refine ⟨⟨A, B, _, word, _⟩, rfl, rfl, hlength.trans List.length_replicate, hpolls, hresults, ?_⟩
  rw [driverProgram, runLog_append,
    stores_log coreStep readdata (fun bus hbus => strobes_of_commandWrites hbus), ← hstarted, runLog_append, ← hpolled, runLog,
    hstatus]
  rfl

section Contract

variable {N : ℕ} {σ : Type} (K : DriverContract N σ) {s : σ}

/-- Accesses without a START have no cycle with one. -/
theorem clrPeSig_slots {l : List AvsCycle} (hno : ∀ bus ∈ l, bus.clrPeSig = false) :
    ∀ bus ∈ slots l, bus.clrPeSig = false := by
  intro bus hbus
  rcases mem_slots hbus with hbus | ⟨access, -, rfl⟩
  · exact hno bus hbus
  · rfl

/-- Reads have no cycle that writes. -/
theorem write_slots {l : List AvsCycle} (hl : ∀ bus ∈ l, bus.write = false) :
    ∀ bus ∈ slots l, bus.write = false := by
  intro bus hbus
  rcases mem_slots hbus with hbus | ⟨access, -, rfl⟩
  · exact hl bus hbus
  · rfl

/-- The operand memories over accesses two cycles apart: a cycle without strobes stores
nothing. -/
theorem memories_slots (s : σ) (l : List AvsCycle) :
    K.memA (run (slotStep K.step) s l) =
        (runLog (slotStep K.step) (performedAt K.step K.readdata) s l).foldl
          (fun mem a => a.storeA mem) (K.memA s) ∧
      K.memB (run (slotStep K.step) s l) =
        (runLog (slotStep K.step) (performedAt K.step K.readdata) s l).foldl
          (fun mem a => a.storeB mem) (K.memB s) := by
  have hslot : ∀ s bus, K.memA (slotStep K.step s bus) = K.memA (K.step s bus) ∧
      K.memB (slotStep K.step s bus) = K.memB (K.step s bus) := fun s bus =>
    ⟨(K.memA_step _ _).trans rfl, (K.memB_step _ _).trans rfl⟩
  exact ⟨run_eq_foldl_runLog K.memA (fun s bus => (hslot s bus).1.trans (memories_step K s bus).1)
      s l,
    run_eq_foldl_runLog K.memB (fun s bus => (hslot s bus).2.trans (memories_step K s bus).2) s l⟩

/-- Before the START the operands are in the memories, and nothing else has changed. -/
theorem loaded_slots (hwindow : N * N ≤ 0x400) (hs : K.Sound s) (hrests : K.Resting s)
    (A B : Fin (N * N) → Word) :
    K.Sound (run (slotStep K.step) s (resetWrites N ++ loadWrites A B)) ∧
      K.Resting (run (slotStep K.step) s (resetWrites N ++ loadWrites A B)) ∧
      K.elements (run (slotStep K.step) s (resetWrites N ++ loadWrites A B)) = K.elements s ∧
      K.memA (run (slotStep K.step) s (resetWrites N ++ loadWrites A B)) = A ∧
      K.memB (run (slotStep K.step) s (resetWrites N ++ loadWrites A B)) = B := by
  have hno : ∀ bus ∈ resetWrites N ++ loadWrites A B, bus.clrPeSig = false := by
    intro bus hbus
    rcases List.mem_append.mp hbus with h | h
    · exact (resetWrites_quiet hwindow h).1
    · exact loadWrites_no_start hwindow h
  have hlog := stores_log K.step K.readdata
    (fun bus hbus => strobes_of_commandWrites (A := A) (B := B) (List.mem_append_left _ hbus)) s
  obtain ⟨hmemA, hmemB⟩ := memories_slots K s (resetWrites N ++ loadWrites A B)
  obtain ⟨hA, hB⟩ := foldl_store_writes hwindow A B (K.memA s) (K.memB s)
  rw [hlog] at hmemA hmemB
  have hsound := sound_run K hs (slots (resetWrites N ++ loadWrites A B))
  obtain ⟨hrest', hsame⟩ := run_holds K hs hrests (clrPeSig_slots hno)
  rw [← run_slots] at hsound hrest' hsame
  exact ⟨hsound, hrest', hsame, hmemA.trans hA, hmemB.trans hB⟩

/-- After a START at rest, reads show the done bit once they have lasted for the latency. -/
theorem started_slots (hs : K.Sound s) (hrests : K.Resting s) {l : List AvsCycle}
    (hl : ∀ bus ∈ l, bus.write = false) :
    (K.done (run (slotStep K.step) s (startWrite :: l)) = true ↔ K.latency ≤ 2 * l.length + 1) ∧
      (K.latency ≤ 2 * l.length + 1 →
        K.Resting (run (slotStep K.step) s (startWrite :: l)) ∧
        K.elements (run (slotStep K.step) s (startWrite :: l)) =
          K.after (K.memA s) (K.memB s) (K.elements s)) := by
  have hstate : run (slotStep K.step) s (startWrite :: l) =
      run K.step (K.step s startWrite) (released startWrite :: slots l) := by
    rw [run_cons, run_slots]
    rfl
  have hquiet : ∀ bus ∈ released startWrite :: slots l, bus.write = false := by
    rw [List.forall_mem_cons]
    exact ⟨rfl, write_slots hl⟩
  obtain ⟨hdone, hresult⟩ := K.runs s startWrite _ hs hrests (by decide) hquiet
  rw [List.length_cons, length_slots] at hdone hresult
  rw [hstate]
  refine ⟨hdone, fun hover => ⟨(hresult hover).1, ?_⟩⟩
  funext i j
  exact (hresult hover).2 i j

/-- At rest the read-out reads the elements. -/
theorem readOut_log (hwindow : N * N ≤ 0x400) (hs : K.Sound s) (hrests : K.Resting s)
    (order : List (Fin N × Fin N)) :
    runLog (slotStep K.step) (performedAt K.step K.readdata) s (order.map elementRead) =
      order.map fun p =>
        Access.load (elementRead p).address (0#16 ++ K.elements s p.1 p.2) := by
  induction order generalizing s with
  | nil => rfl
  | cons p order ih =>
    have haddress : (elementRead p).address.toNat = 0xC00 + (cell p.1 p.2).val := by
      have hcell := (cell p.1 p.2).isLt
      exact (access_address (0xC00 + (cell p.1 p.2).val) (by omega) 0#32 accelMemC _
        (by simp only [accelMemC, cell]; omega)).2
    have hno : ∀ bus ∈ slots [elementRead p], bus.clrPeSig = false :=
      clrPeSig_slots (List.forall_mem_singleton.mpr rfl)
    obtain ⟨hrest', hsame⟩ := run_holds K hs hrests hno
    rw [← run_slots] at hrest' hsame
    have hs' : K.Sound (run (slotStep K.step) s [elementRead p]) := by
      rw [run_slots]
      exact sound_run K hs _
    have hlater := ih hs' hrest'
    rw [hsame] at hlater
    rw [List.map_cons, List.map_cons, runLog, performedAt_read rfl rfl,
      K.element_read s _ p.1 p.2 rfl haddress]
    exact congrArg _ hlater

/-- A poll reads the done bit of the state it finds. -/
theorem poll_log (s : σ) :
    ∃ word, performedAt K.step K.readdata s statusRead = [Access.load 0#14 word] ∧
      (word &&& 0x02#32 ≠ 0#32 ↔ K.done s = true) :=
  ⟨_, performedAt_read rfl rfl, K.status_read s statusRead rfl (by decide)⟩

/-- The polls of the first half of the latency find the accelerator busy. -/
theorem busy_log (hs : K.Sound s) (hrests : K.Resting s) {k : ℕ} (hk : k ≤ K.latency / 2) :
    ∃ polls : List (BitVec 32), polls.length = k ∧ (∀ word ∈ polls, word &&& 0x02#32 = 0#32) ∧
      runLog (slotStep K.step) (performedAt K.step K.readdata) (slotStep K.step s startWrite)
          (List.replicate k statusRead) = polls.map (Access.load 0#14) := by
  induction k with
  | zero => exact ⟨[], rfl, fun word hword => absurd hword List.not_mem_nil, rfl⟩
  | succ k ih =>
    obtain ⟨polls, hlength, hbusy, hlog⟩ := ih (Nat.le_of_succ_le hk)
    have hreads : ∀ bus ∈ List.replicate k statusRead, bus.write = false := by
      intro bus hbus
      rw [List.eq_of_mem_replicate hbus]
      rfl
    have hdone := (started_slots K hs hrests hreads).1
    rw [List.length_replicate, run_cons] at hdone
    obtain ⟨word, hpoll, hbit⟩ := poll_log K
      (run (slotStep K.step) (slotStep K.step s startWrite) (List.replicate k statusRead))
    refine ⟨polls ++ [word], ?_, ?_, ?_⟩
    · rw [List.length_append, hlength, List.length_singleton]
    · intro word' hword'
      rcases List.mem_append.mp hword' with h | h
      · exact hbusy word' h
      · rw [List.mem_singleton.mp h]
        by_contra hset
        have hover := hdone.mp (hbit.mp hset)
        omega
    · rw [List.replicate_succ', runLog_append, hlog, runLog, runLog, hpoll, List.append_nil,
        List.map_append]
      rfl

/-- INTERNAL: **The driver back to back.**  From rest the played driver is a run that ends: its
polls find the accelerator busy for half of the latency, and it reads what the operands make
of the elements before. -/
theorem played_run (hwindow : N * N ≤ 0x400) (hs : K.Sound s) (hrests : K.Resting s)
    (A B : Fin (N * N) → Word) :
    ∃ (polls : List (BitVec 32)) (status : BitVec 32),
      polls.length = K.latency / 2 ∧ (∀ word ∈ polls, word &&& 0x02#32 = 0#32) ∧
      status &&& 0x02#32 ≠ 0#32 ∧
      runLog (slotStep K.step) (performedAt K.step K.readdata) s
          (driverProgram (K.latency / 2) A B) =
        (commandWrites A B).map storeAccess ++ (polls.map (Access.load 0#14) ++
          Access.load 0#14 status :: (readOrder N).map fun p =>
            Access.load (elementRead p).address (0#16 ++ K.after A B (K.elements s) p.1 p.2)) ∧
      K.Sound (run (slotStep K.step) s (driverProgram (K.latency / 2) A B)) ∧
      K.Resting (run (slotStep K.step) s (driverProgram (K.latency / 2) A B)) ∧
      K.elements (run (slotStep K.step) s (driverProgram (K.latency / 2) A B)) =
        K.after A B (K.elements s) := by
  set u := run (slotStep K.step) s (resetWrites N ++ loadWrites A B) with hu
  obtain ⟨hsound, hrests', hsame, hA, hB⟩ := loaded_slots K hwindow hs hrests A B
  rw [← hu] at hsound hrests' hsame hA hB
  have hstate : ∀ l, run (slotStep K.step) s (commandWrites A B ++ l) =
      run (slotStep K.step) u (startWrite :: l) := by
    intro l
    rw [commandWrites, List.append_assoc, run_append, ← hu]
    rfl
  -- the state after the START and some reads that outlast the latency
  have hover : ∀ l : List AvsCycle, (∀ bus ∈ l, bus.write = false) → K.latency / 2 ≤ l.length →
      K.Resting (run (slotStep K.step) u (startWrite :: l)) ∧
        K.elements (run (slotStep K.step) u (startWrite :: l)) = K.after A B (K.elements s) := by
    intro l hl hlong
    have hresult := (started_slots K hsound hrests' hl).2 (by omega)
    rw [hA, hB, hsame] at hresult
    exact hresult
  obtain ⟨polls, hlength, hbusy, hpolls⟩ := busy_log K hsound hrests' le_rfl
  obtain ⟨status, hstatus, hbit⟩ := poll_log K
    (run (slotStep K.step) (slotStep K.step u startWrite) (List.replicate (K.latency / 2) statusRead))
  have hpolled : ∀ bus ∈ List.replicate (K.latency / 2) statusRead ++ [statusRead],
      bus.write = false := write_of_reads (K.latency / 2) ([] : List (Fin N × Fin N))
  have hdone := (started_slots K hsound hrests' (l := List.replicate (K.latency / 2) statusRead)
    fun bus hbus => hpolled bus (List.mem_append_left _ hbus)).1
  rw [List.length_replicate] at hdone
  refine ⟨polls, status, hlength, hbusy, hbit.mpr (hdone.mpr (by omega)), ?_, ?_, ?_⟩
  · have hcommands : run (slotStep K.step) s (commandWrites A B) = slotStep K.step u startWrite := by
      have hnil := hstate []
      rw [List.append_nil] at hnil
      exact hnil
    have hlast : slotStep K.step (run (slotStep K.step) (slotStep K.step u startWrite)
        (List.replicate (K.latency / 2) statusRead)) statusRead =
          run (slotStep K.step) u
            (startWrite :: (List.replicate (K.latency / 2) statusRead ++ [statusRead])) := by
      rw [run_cons, run_append]
      rfl
    obtain ⟨hrest'', hmade⟩ := hover _ hpolled (by simp)
    have hsound' := sound_run K hsound
      (slots (startWrite :: (List.replicate (K.latency / 2) statusRead ++ [statusRead])))
    rw [← run_slots] at hsound'
    have hreads := readOut_log K hwindow hsound' hrest'' (readOrder N)
    rw [hmade] at hreads
    rw [driverProgram, runLog_append,
      stores_log K.step K.readdata (fun bus hbus => strobes_of_commandWrites hbus), hcommands, runLog_append, hpolls, runLog, hstatus,
      hlast, hreads]
    rfl
  · rw [driverProgram, hstate, run_slots]
    exact sound_run K hsound _
  · rw [driverProgram, hstate]
    exact hover _ (write_of_reads _ _) (by rw [List.length_append, List.length_replicate]; omega)

/-- INTERNAL: The same as a driver run. -/
theorem played_driverRun (hwindow : N * N ≤ 0x400) (hs : K.Sound s) (hrests : K.Resting s)
    (A B : Fin (N * N) → Word) :
    ∃ r : DriverRun N, r.matrixA = A ∧ r.matrixB = B ∧ r.Ended ∧
      runLog (slotStep K.step) (performedAt K.step K.readdata) s
        (driverProgram (K.latency / 2) A B) = r.log := by
  obtain ⟨polls, status, -, -, hstatus, hlog, -⟩ := played_run K hwindow hs hrests A B
  refine ⟨⟨A, B, polls.map (Access.load 0#14), status, _⟩, rfl, rfl, ⟨?_, hstatus, ?_⟩, hlog⟩
  · intro a ha
    obtain ⟨word, -, rfl⟩ := List.mem_map.mp ha
    rfl
  · intro a ha
    obtain ⟨p, -, rfl⟩ := List.mem_map.mp ha
    rfl

/-- Driver programs played in a row leave the accelerator at rest, with all their operands in
the elements. -/
theorem played_runs (hwindow : N * N ≤ 0x400) (hs : K.Sound s) (hrests : K.Resting s)
    (runs : List ((Fin (N * N) → Word) × (Fin (N * N) → Word))) :
    K.Sound (run (slotStep K.step) s (driverPrograms (K.latency / 2) runs)) ∧
      K.Resting (run (slotStep K.step) s (driverPrograms (K.latency / 2) runs)) ∧
      K.elements (run (slotStep K.step) s (driverPrograms (K.latency / 2) runs)) =
        runs.foldl (fun C p => K.after p.1 p.2 C) (K.elements s) := by
  induction runs generalizing s with
  | nil => exact ⟨hs, hrests, rfl⟩
  | cons p runs ih =>
    obtain ⟨-, -, -, -, -, -, hsound, hrests', hmade⟩ := played_run K hwindow hs hrests p.1 p.2
    rw [driverPrograms, List.flatMap_cons, run_append, List.foldl_cons, ← hmade]
    exact ih hsound hrests'

/-- No access of several programs has both strobes. -/
theorem driverPrograms_exclusive {polls : ℕ}
    {runs : List ((Fin (N * N) → Word) × (Fin (N * N) → Word))} :
    ∀ bus ∈ driverPrograms polls runs, bus.write = true → bus.read = false := by
  intro bus hbus
  obtain ⟨p, -, hbus⟩ := List.mem_flatMap.mp hbus
  exact driverProgram_exclusive bus hbus

/-- One program more is played at the end. -/
theorem driverPrograms_append (polls : ℕ)
    (earlier : List ((Fin (N * N) → Word) × (Fin (N * N) → Word))) (A B : Fin (N * N) → Word) :
    driverPrograms polls (earlier ++ [(A, B)]) =
      driverPrograms polls earlier ++ driverProgram polls A B := by
  rw [driverPrograms, List.flatMap_append, List.flatMap_singleton, driverPrograms]

end Contract

end MatrixAccelerator.Analysis
