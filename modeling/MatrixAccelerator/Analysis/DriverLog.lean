import MatrixAccelerator.Analysis.DriverRun
import MatrixAccelerator.Interface.DriverContract
import MatrixAccelerator.Library.EventLog

/-!
# A driver run in a log

A log that ends in a driver run tells what the run read, whatever came before it and however
its accesses were spaced.  Its START finds the core at rest with A and B in the memories; a
poll reads the done bit exactly once the latency is over, and every element read after such
a poll is the result.
-/

set_option autoImplicit false

namespace MatrixAccelerator.Analysis

open MatrixAccelerator.Library MatrixAccelerator.Model MatrixAccelerator.Model.Driver
  MatrixAccelerator.Interface

/-! ## One cycle of the bus in the log -/

section OneCycle

variable {σ : Type*} {coreStep : σ → AvsCycle → σ} {readdata : σ → BitVec 32} {s : σ}
  {bus : AvsCycle}

/-- A cycle with one strobe at most logs one access at most. -/
theorem length_performedAt_le (hexclusive : bus.write = true → bus.read = false) :
    (performedAt coreStep readdata s bus).length ≤ 1 := by
  unfold performedAt
  cases hwrite : bus.write with
  | false => cases hread : bus.read <;> simp
  | true => simp [hexclusive hwrite]

/-- The bus cycle that a logged store comes from. -/
theorem performedAt_store {address : BitVec 14} {data : BitVec 32}
    (h : performedAt coreStep readdata s bus = [Access.store address data]) :
    bus.write = true ∧ bus.address = address ∧ bus.writedata = data := by
  have hmem := h ▸ List.mem_singleton_self (Access.store address data)
  unfold performedAt at hmem
  rcases List.mem_append.mp hmem with hstore | hload
  · split at hstore
    · obtain ⟨haddress, hdata⟩ := Access.store.inj (List.mem_singleton.mp hstore)
      exact ⟨‹bus.write = true›, haddress.symm, hdata.symm⟩
    · exact absurd hstore List.not_mem_nil
  · split at hload
    · cases List.mem_singleton.mp hload
    · exact absurd hload List.not_mem_nil

/-- The bus cycle that a logged load comes from, and the word it reads. -/
theorem performedAt_load {address : BitVec 14} {value : BitVec 32}
    (h : performedAt coreStep readdata s bus = [Access.load address value]) :
    bus.read = true ∧ bus.address = address ∧ value = readdata (coreStep s bus) ∧
      bus.write = false := by
  unfold performedAt at h
  cases hwrite : bus.write with
  | true =>
    rw [hwrite, if_pos rfl] at h
    cases (List.cons.inj h).1
  | false =>
    rw [hwrite, if_neg Bool.false_ne_true, List.nil_append] at h
    split at h
    · obtain ⟨haddress, hvalue⟩ := Access.load.inj (List.cons.inj h).1
      exact ⟨‹bus.read = true›, haddress, hvalue.symm, rfl⟩
    · cases h

/-- A cycle that logs only loads writes nothing. -/
theorem write_false_of_loads (h : ∀ a ∈ performedAt coreStep readdata s bus, a.isLoad = true) :
    bus.write = false := by
  cases hwrite : bus.write with
  | false => rfl
  | true =>
    have hstore := h (Access.store bus.address bus.writedata) (by simp [performedAt, hwrite])
    cases hstore

/-- A cycle that logs no START carries none. -/
theorem clrPeSig_false_of_log (h : ∀ a ∈ performedAt coreStep readdata s bus, a.isStart = false) :
    bus.clrPeSig = false := by
  cases hwrite : bus.write with
  | false => simp [AvsCycle.clrPeSig, hwrite]
  | true =>
    have hstore := h (Access.store bus.address bus.writedata) (by simp [performedAt, hwrite])
    rw [AvsCycle.clrPeSig, hwrite, Bool.true_and]
    exact hstore

end OneCycle

/-- A load is no START. -/
theorem isStart_of_loads {l : List Access} (h : ∀ a ∈ l, a.isLoad = true) :
    ∀ a ∈ l, a.isStart = false := by
  intro a ha
  cases a with
  | store address data => cases h _ ha
  | load address value => rfl

/-- The store of a write that is no START is none. -/
theorem isStart_storeAccess {bus : AvsCycle} (h : bus.clrPeSig = false) (hwrite : bus.write = true) :
    (storeAccess bus).isStart = false := by
  rw [AvsCycle.clrPeSig, hwrite, Bool.true_and] at h
  exact h

/-- A store takes effect in the memories as its write does. -/
theorem write_strobe {N : ℕ} {bus : AvsCycle} (hwrite : bus.write = true)
    (mem : Fin (N * N) → Word) :
    (storeAccess bus).storeA mem = MatrixAccelTop.writeA bus mem ∧
      (storeAccess bus).storeB mem = MatrixAccelTop.writeB bus mem := by
  unfold storeAccess Access.storeA Access.storeB MatrixAccelTop.writeA MatrixAccelTop.writeB
  simp only [hwrite, true_and, and_self]

/-! ## The writes of the driver -/

variable {N : ℕ}

/-- The accesses before the START are writes. -/
theorem write_of_mem_commandWrites {A B : Fin (N * N) → Word} {bus : AvsCycle}
    (h : bus ∈ resetWrites N ++ loadWrites A B) : bus.write = true := by
  rcases List.mem_append.mp h with h | h
  · rw [resetWrites, List.mem_cons, List.mem_map] at h
    rcases h with rfl | ⟨i, -, rfl⟩ <;> rfl
  · rw [loadWrites, List.mem_append, List.mem_map, List.mem_map] at h
    rcases h with ⟨i, -, rfl⟩ | ⟨i, -, rfl⟩ <;> rfl

/-- None of them is a START. -/
theorem isStart_of_mem_writes (hwindow : N * N ≤ 0x400) {A B : Fin (N * N) → Word} {a : Access}
    (h : a ∈ (resetWrites N ++ loadWrites A B).map storeAccess) : a.isStart = false := by
  obtain ⟨bus, hbus, rfl⟩ := List.mem_map.mp h
  refine isStart_storeAccess ?_ (write_of_mem_commandWrites hbus)
  rcases List.mem_append.mp hbus with h | h
  · exact (resetWrites_quiet hwindow h).1
  · exact loadWrites_no_start hwindow h

/-- The stores of a list of writes take effect as the writes do. -/
theorem foldl_storeAccess {l : List AvsCycle} (hl : ∀ bus ∈ l, bus.write = true)
    (memA memB : Fin (N * N) → Word) :
    (l.map storeAccess).foldl (fun mem a => a.storeA mem) memA =
        l.foldl (fun mem bus => MatrixAccelTop.writeA bus mem) memA ∧
      (l.map storeAccess).foldl (fun mem a => a.storeB mem) memB =
        l.foldl (fun mem bus => MatrixAccelTop.writeB bus mem) memB := by
  induction l generalizing memA memB with
  | nil => exact ⟨rfl, rfl⟩
  | cons bus l ih =>
    obtain ⟨hA, hB⟩ := write_strobe (hl bus List.mem_cons_self) memA
    rw [List.map_cons, List.foldl_cons, List.foldl_cons, List.foldl_cons, List.foldl_cons, hA,
      (write_strobe (hl bus List.mem_cons_self) memB).2]
    exact ih (fun bus' hbus => hl bus' (List.mem_cons_of_mem bus hbus)) _ _

/-- The memories after the writes before the START. -/
theorem foldl_store_writes (hwindow : N * N ≤ 0x400) (A B memA memB : Fin (N * N) → Word) :
    ((resetWrites N ++ loadWrites A B).map storeAccess).foldl (fun mem a => a.storeA mem) memA = A ∧
      ((resetWrites N ++ loadWrites A B).map storeAccess).foldl (fun mem a => a.storeB mem) memB =
        B := by
  have hreset : ∀ bus ∈ resetWrites N, ∀ m : Fin (N * N) → Word,
      MatrixAccelTop.writeA bus m = m ∧ MatrixAccelTop.writeB bus m = m := fun bus hb m =>
    write_of_not_window (resetWrites_quiet hwindow hb).2 m
  obtain ⟨hfoldA, hfoldB⟩ := foldl_storeAccess
    (fun bus hbus => write_of_mem_commandWrites (A := A) (B := B) hbus) memA memB
  obtain ⟨hloadA, hloadB⟩ := foldl_loadWrites hwindow A B memA memB
  rw [hfoldA, hfoldB, List.foldl_append, List.foldl_append,
    foldl_ignored _ (resetWrites N) fun bus hb m => (hreset bus hb m).1,
    foldl_ignored _ (resetWrites N) fun bus hb m => (hreset bus hb m).2]
  exact ⟨hloadA, hloadB⟩

/-! ## The START in the log -/

section Contract

variable {σ : Type} (K : DriverContract N σ) {s : σ} {bus : ℕ → AvsCycle}

/-- A sound core stays sound over any cycles. -/
theorem sound_run (hs : K.Sound s) (l : List AvsCycle) : K.Sound (run K.step s l) := by
  induction l generalizing s with
  | nil => exact hs
  | cons bus l ih => exact ih (K.sound_step s bus hs)

/-- The same along a stream, as the run of its first cycles. -/
theorem sound_trace (hs : K.Sound s) (t : ℕ) : K.Sound (trace K.step s bus t) := by
  rw [trace_eq_run]
  exact sound_run K hs _

/-- The operand memories take what one cycle stores, access by access. -/
theorem memories_step (s : σ) (bus : AvsCycle) :
    K.memA (K.step s bus) =
        (performedAt K.step K.readdata s bus).foldl (fun mem a => a.storeA mem) (K.memA s) ∧
      K.memB (K.step s bus) =
        (performedAt K.step K.readdata s bus).foldl (fun mem a => a.storeB mem) (K.memB s) := by
  rw [K.memA_step, K.memB_step, performedAt]
  cases hwrite : bus.write <;> cases hread : bus.read <;>
    simp [Access.storeA, Access.storeB, MatrixAccelTop.writeA, MatrixAccelTop.writeB, hwrite]

/-- The operand memories hold what the log stores. -/
theorem memories_log (s : σ) (bus : ℕ → AvsCycle) (t : ℕ) :
    K.memA (trace K.step s bus t) = (K.log s bus t).foldl (fun mem a => a.storeA mem) (K.memA s) ∧
      K.memB (trace K.step s bus t) =
        (K.log s bus t).foldl (fun mem a => a.storeB mem) (K.memB s) :=
  ⟨trace_eq_foldl_emitted K.memA (fun s bus => (memories_step K s bus).1) s bus t,
    trace_eq_foldl_emitted K.memB (fun s bus => (memories_step K s bus).2) s bus t⟩

/-- At rest cycles without a START change no element. -/
theorem run_holds (hs : K.Sound s) (hrests : K.Resting s) {l : List AvsCycle}
    (hno : ∀ bus ∈ l, bus.clrPeSig = false) :
    K.Resting (run K.step s l) ∧ K.elements (run K.step s l) = K.elements s := by
  induction l generalizing s with
  | nil => exact ⟨hrests, rfl⟩
  | cons bus l ih =>
    obtain ⟨hrest', hsame⟩ := K.holds s bus hs hrests (hno bus List.mem_cons_self)
    obtain ⟨hrest'', hsame'⟩ := ih (K.sound_step s bus hs) hrest' fun bus' hb =>
      hno bus' (List.mem_cons_of_mem bus hb)
    exact ⟨hrest'', hsame'.trans hsame⟩

/-- At rest a log without a START changes no element. -/
theorem elements_of_log (hs : K.Sound s) (hrests : K.Resting s) {t : ℕ}
    (hno : ∀ a ∈ K.log s bus t, a.isStart = false) :
    K.Resting (trace K.step s bus t) ∧ K.elements (trace K.step s bus t) = K.elements s := by
  rw [trace_eq_run]
  apply run_holds K hs hrests
  intro b hb
  obtain ⟨u, hu, rfl⟩ := List.mem_map.mp hb
  exact clrPeSig_false_of_log fun a ha => hno a (mem_emitted K.step _ (List.mem_range.mp hu) ha)

/-- After a START at rest, cycles without a write show the done bit from the latency on, and
then the result. -/
theorem quiet_run {e0 : AvsCycle} (hs : K.Sound s) (hrests : K.Resting s)
    (he0 : e0.clrPeSig = true) (bus : ℕ → AvsCycle) {p : ℕ}
    (hquiet : ∀ q < p, (bus q).write = false) :
    (K.done (trace K.step (K.step s e0) bus p) = true ↔ K.latency ≤ p) ∧
      (K.latency ≤ p → K.Resting (trace K.step (K.step s e0) bus p) ∧
        ∀ i j, K.elements (trace K.step (K.step s e0) bus p) i j =
          K.after (K.memA s) (K.memB s) (K.elements s) i j) := by
  have hruns := K.runs s e0 ((List.range p).map bus) hs hrests he0 (by
    intro b hb
    obtain ⟨q, hq, rfl⟩ := List.mem_map.mp hb
    exact hquiet q (List.mem_range.mp hq))
  rw [← trace_eq_run, List.length_map, List.length_range] at hruns
  exact hruns

variable (hexclusive : ∀ u, (bus u).write = true → (bus u).read = false)

include hexclusive

theorem one_each (s : σ) (u : ℕ) :
    (performedAt K.step K.readdata (trace K.step s bus u) (bus u)).length ≤ 1 :=
  length_performedAt_le (hexclusive u)

/-- **Rest.**  A log of more accesses than the latency, none a START, leaves the core at rest. -/
theorem resting_of_log (hs : K.Sound s) {t : ℕ}
    (hno : ∀ a ∈ K.log s bus t, a.isStart = false)
    (hlong : K.latency ≤ (K.log s bus t).length) : K.Resting (trace K.step s bus t) := by
  rw [trace_eq_run]
  apply K.rests s _ hs
  · intro b hb
    obtain ⟨u, hu, rfl⟩ := List.mem_map.mp hb
    exact clrPeSig_false_of_log fun a ha => hno a (mem_emitted K.step _ (List.mem_range.mp hu) ha)
  · have hlength := length_emitted_le (one_each K hexclusive s) t
    rw [List.length_map, List.length_range]
    exact hlong.trans hlength

/-- **The START.**  A log that goes on from `before` with the writes of the driver was at rest,
with A and B in the memories, when it came to the START. -/
theorem start_of_log (hs : K.Sound s) (hwindow : N * N ≤ 0x400)
    (hlatency : K.latency ≤ 3 * (N * N) + 1) {t : ℕ} {before rest : List Access}
    {A B : Fin (N * N) → Word}
    (h : K.log s bus t = before ++ ((commandWrites A B).map storeAccess ++ rest)) :
    ∃ u n, K.Sound (trace K.step s bus u) ∧ K.Resting (trace K.step s bus u) ∧
      K.memA (trace K.step s bus u) = A ∧ K.memB (trace K.step s bus u) = B ∧
      (bus u).clrPeSig = true ∧
      K.log s bus u = before ++ (resetWrites N ++ loadWrites A B).map storeAccess ∧
      K.log (trace K.step s bus (u + 1)) (fun v => bus (u + 1 + v)) n = rest := by
  have hcommands : (commandWrites A B).map storeAccess ++ rest =
      (resetWrites N ++ loadWrites A B).map storeAccess ++ storeAccess startWrite :: rest := by
    rw [commandWrites, List.map_append, List.append_assoc]
    rfl
  rw [hcommands, ← List.append_assoc] at h
  obtain ⟨u, n, rfl, hsofar, hstart, hrest⟩ := emitted_append_cons (one_each K hexclusive s) h
  have hsound : K.Sound (trace K.step s bus u) := sound_trace K hs u
  have hlength : ((resetWrites N ++ loadWrites A B).map storeAccess).length = 3 * (N * N) + 1 := by
    simp only [resetWrites, loadWrites, List.length_append, List.length_cons, List.length_map,
      List.length_finRange]
    omega
  have hrests : K.Resting (trace K.step s bus u) := by
    -- the driver's own writes are the quiet time
    obtain ⟨u₀, n₀, rfl, -, hwrites⟩ := emitted_append (one_each K hexclusive s) hsofar
    rw [trace_add]
    apply resting_of_log K (fun v => hexclusive (u₀ + v)) (sound_trace K hs u₀)
    · intro a ha
      rw [DriverContract.log, hwrites] at ha
      exact isStart_of_mem_writes hwindow ha
    · exact hlatency.trans (by rw [DriverContract.log, hwrites, hlength])
  obtain ⟨hmemA, hmemB⟩ := memories_log K s bus u
  rw [DriverContract.log, hsofar, List.foldl_append] at hmemA hmemB
  obtain ⟨hA, hB⟩ := foldl_store_writes hwindow A B
    (before.foldl (fun mem a => a.storeA mem) (K.memA s))
    (before.foldl (fun mem a => a.storeB mem) (K.memB s))
  obtain ⟨hwrite, haddress, hdata⟩ := performedAt_store hstart
  refine ⟨u, n, hsound, hrests, hmemA.trans hA, hmemB.trans hB, ?_, hsofar, hrest⟩
  rw [AvsCycle.clrPeSig, hwrite, haddress, hdata]
  decide

/-- **A load.**  A load that only loads came before is performed by a cycle that no write came
before. -/
theorem load_of_log {t : ℕ} {loads rest : List Access} {address : BitVec 14} {value : BitVec 32}
    (hloads : ∀ a ∈ loads, a.isLoad = true)
    (h : K.log s bus t = loads ++ Access.load address value :: rest) :
    ∃ p n, loads.length ≤ p ∧ (∀ q ≤ p, (bus q).write = false) ∧ (bus p).read = true ∧
      (bus p).address = address ∧
      value = K.readdata (K.step (trace K.step s bus p) (bus p)) ∧
      K.log (trace K.step s bus (p + 1)) (fun v => bus (p + 1 + v)) n = rest := by
  obtain ⟨p, n, rfl, hsofar, hload, hrest⟩ := emitted_append_cons (one_each K hexclusive s) h
  obtain ⟨hread, haddress, hvalue, hwrite⟩ := performedAt_load hload
  refine ⟨p, n, ?_, ?_, hread, haddress, hvalue, hrest⟩
  · rw [← hsofar]
    exact length_emitted_le (one_each K hexclusive s) p
  · intro q hq
    rcases Nat.lt_or_eq_of_le hq with hlt | rfl
    · apply write_false_of_loads
      exact fun a ha => hloads a (hsofar ▸ mem_emitted K.step _ hlt ha)
    · exact hwrite

/-! ## What the run reads -/

/-- INTERNAL: **A driver run in a log.**  Whatever came before, its START at some moment `u`
finds A and B in the memories; its last poll reads the done bit if the latency was spent
polling; and if it does, the elements after it are made from those at the START, and every
element read out is one of them. -/
theorem driver_run_of_log (hs : K.Sound s) (hwindow : N * N ≤ 0x400)
    (hlatency : K.latency ≤ 3 * (N * N) + 1) {t : ℕ} {before after : List Access}
    {r : DriverRun N} (hpolls : ∀ a ∈ r.polls, a.isLoad = true)
    (hresults : ∀ a ∈ r.results, a.isLoad = true)
    (h : K.log s bus t = before ++ (r.log ++ after)) :
    ∃ u w n,
      K.log s bus u = before ++ (resetWrites N ++ loadWrites r.matrixA r.matrixB).map storeAccess ∧
      (K.latency ≤ r.polls.length → r.status &&& 0x02#32 ≠ 0#32) ∧
      (r.status &&& 0x02#32 ≠ 0#32 →
        r.Reads (K.after r.matrixA r.matrixB (K.elements (trace K.step s bus u))) ∧
        K.Resting (trace K.step s bus w) ∧
        K.elements (trace K.step s bus w) =
          K.after r.matrixA r.matrixB (K.elements (trace K.step s bus u))) ∧
      K.log (trace K.step s bus w) (fun v => bus (w + v)) n = r.results ++ after := by
  have hcommands : r.log ++ after = (commandWrites r.matrixA r.matrixB).map storeAccess ++
      (r.polls ++ Access.load 0#14 r.status :: (r.results ++ after)) := by
    simp only [DriverRun.log, List.append_assoc, List.cons_append]
  rw [hcommands] at h
  obtain ⟨u, n, hsound, hrests, hA, hB, hstart, hsofar, hrest⟩ :=
    start_of_log K hexclusive hs hwindow hlatency h
  have hexclusive' : ∀ v, (bus (u + 1 + v)).write = true → (bus (u + 1 + v)).read = false :=
    fun v => hexclusive (u + 1 + v)
  obtain ⟨p, m, hlong, hquiet, hread, haddress, hd, hafter⟩ :=
    load_of_log K hexclusive' hpolls hrest
  have hstate : ∀ x, trace K.step s bus (u + 1 + x) =
      trace K.step (K.step (trace K.step s bus u) (bus u)) (fun q => bus (u + 1 + q)) x := by
    intro x
    rw [trace_add, trace_succ]
  have hpoll : r.status &&& 0x02#32 ≠ 0#32 ↔ K.latency ≤ p := by
    rw [hd, K.status_read _ _ hread haddress, trace_succ]
    exact (quiet_run K hsound hrests hstart _ fun q hq => hquiet q (Nat.le_of_lt hq)).1
  refine ⟨u, u + 1 + (p + 1), m, hsofar, fun hspent => hpoll.mpr (hspent.trans hlong), ?_, ?_⟩
  · intro hdone
    have hover := hpoll.mp hdone
    -- the elements from the last poll on
    have hrun : ∀ x, p < x → (∀ q < x, (bus (u + 1 + q)).write = false) →
        K.Resting (trace K.step s bus (u + 1 + x)) ∧
          ∀ i j, K.elements (trace K.step s bus (u + 1 + x)) i j =
            K.after r.matrixA r.matrixB (K.elements (trace K.step s bus u)) i j := by
      intro x hx hq
      rw [hstate, ← hA, ← hB]
      exact (quiet_run K hsound hrests hstart _ hq).2 (hover.trans (Nat.le_of_lt hx))
    obtain ⟨hrest', hmade⟩ := hrun (p + 1) (Nat.lt_succ_self p) fun q hq =>
      hquiet q (Nat.le_of_lt_succ hq)
    refine ⟨?_, hrest', funext fun i => funext fun j => hmade i j⟩
    intro address value i j hmem hwindowAddress
    obtain ⟨r₁, r₂, hsplit⟩ := List.append_of_mem hmem
    rw [hsplit, List.append_assoc, List.cons_append] at hafter
    obtain ⟨p', m', -, hquiet', hread', haddress', hvalue, -⟩ := load_of_log K
      (fun v => hexclusive' (p + 1 + v))
      (fun a ha => hresults a (hsplit ▸ List.mem_append_left _ ha)) hafter
    have hall : ∀ q < p + 1 + p', (bus (u + 1 + q)).write = false := by
      intro q hq
      by_cases hle : q ≤ p
      · exact hquiet q hle
      · obtain ⟨w, rfl⟩ := Nat.exists_eq_add_of_le (Nat.succ_le_of_lt (Nat.lt_of_not_le hle))
        exact hquiet' w (by omega)
    rw [hvalue, K.element_read _ _ i j hread' (by rw [haddress']; exact hwindowAddress),
      ← trace_add, ← trace_add, (hrun (p + 1 + p') (by omega) hall).2 i j]
  · rw [trace_add, ← hafter]
    simp only [Nat.add_assoc]

/-- **Driver runs in a row.**  From rest, each run reads what the runs before it have made of
the elements, and its own operands. -/
theorem driver_runs_of_log (hwindow : N * N ≤ 0x400) (hlatency : K.latency ≤ 3 * (N * N) + 1)
    {earlier : List (DriverRun N)} (hearlier : ∀ r ∈ earlier, r.Ended) {r : DriverRun N}
    (hr : r.Ended) {before after : List Access} (hbefore : ∀ a ∈ before, a.isStart = false) {t : ℕ}
    (hs : K.Sound s) (hrests : K.Resting s)
    (h : K.log s bus t = before ++ ((earlier.map DriverRun.log).flatten ++ (r.log ++ after))) :
    r.Reads (K.after r.matrixA r.matrixB
      (earlier.foldl (fun C r => K.after r.matrixA r.matrixB C) (K.elements s))) := by
  -- the elements when a run starts
  have hstart : ∀ {s : σ} {bus : ℕ → AvsCycle} {before : List Access} {u : ℕ} {r : DriverRun N},
      (∀ a ∈ before, a.isStart = false) → K.Sound s → K.Resting s →
      K.log s bus u = before ++ (resetWrites N ++ loadWrites r.matrixA r.matrixB).map storeAccess →
        K.elements (trace K.step s bus u) = K.elements s := by
    intro s bus before u r hbefore hs hrests hsofar
    apply (elements_of_log K hs hrests _).2
    intro a ha
    rw [hsofar] at ha
    rcases List.mem_append.mp ha with ha | ha
    · exact hbefore a ha
    · exact isStart_of_mem_writes hwindow ha
  induction earlier generalizing s bus t before with
  | nil =>
    obtain ⟨u, w, n, hsofar, -, hdone, -⟩ :=
      driver_run_of_log K hexclusive hs hwindow hlatency hr.polls hr.results h
    have hreads := (hdone hr.status).1
    rwa [hstart hbefore hs hrests hsofar] at hreads
  | cons r₀ earlier ih =>
    have hr₀ := hearlier r₀ List.mem_cons_self
    rw [List.map_cons, List.flatten_cons, List.append_assoc] at h
    obtain ⟨u, w, n, hsofar, -, hdone, hafter⟩ :=
      driver_run_of_log K hexclusive hs hwindow hlatency hr₀.polls hr₀.results h
    obtain ⟨-, hrests', hmade⟩ := hdone hr₀.status
    rw [hstart hbefore hs hrests hsofar] at hmade
    have hlater := ih (fun v => hexclusive (w + v))
      (fun r hr => hearlier r (List.mem_cons_of_mem r₀ hr)) (isStart_of_loads hr₀.results)
      (sound_trace K hs w) hrests' hafter
    rwa [hmade] at hlater

end Contract

end MatrixAccelerator.Analysis
