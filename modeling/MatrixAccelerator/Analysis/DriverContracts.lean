import MatrixAccelerator.Analysis.DriverRun
import MatrixAccelerator.Analysis.QsysRefinement
import MatrixAccelerator.Interface.DriverContract

/-!
# Both copies keep the contract

The root copy rests in its idle phase, and combines a result from nothing: its START clears
the sums.  The Qsys copy rests when it does not calculate, and combines a result from the
sums it holds.
-/

set_option autoImplicit false

namespace MatrixAccelerator.Analysis

open MatrixAccelerator.Library MatrixAccelerator.Model MatrixAccelerator.Model.Driver
  MatrixAccelerator.Interface

variable {N : ℕ}

/-! ## Reads -/

/-- A read of CTRL asks for the status. -/
theorem queryOf_status {bus : AvsCycle} (hread : bus.read = true) (haddress : bus.address = 0#14) :
    (queryOf bus : Query N) = Query.status := by
  rw [queryOf, if_pos hread, if_pos haddress]

/-- A read of the C window asks for an element. -/
theorem queryOf_element {bus : AvsCycle} (hread : bus.read = true) {i j : Fin N}
    (haddress : bus.address.toNat = 0xC00 + (cell i j).val) :
    queryOf bus = Query.element i j := by
  have hne : bus.address ≠ 0#14 := by
    intro h0
    rw [h0, BitVec.toNat_ofNat, Nat.zero_mod] at haddress
    omega
  rw [queryOf, if_pos hread, if_neg hne, windowElement_eq_some_iff.mpr haddress]

/-- Bit 1 of the status word is the done bit. -/
theorem status_word (done start : Bool) :
    (0#30 ++ BitVec.ofBool done ++ BitVec.ofBool start) &&& 0x02#32 ≠ 0#32 ↔ done = true := by
  cases done <;> cases start <;> decide

/-! ## The root copy -/

/-- The root copy answers a poll with its done bit. -/
theorem root_status_read (s : MatrixAccelTop N) (bus : AvsCycle) (hread : bus.read = true)
    (haddress : bus.address = 0#14) :
    (s.step bus).avsReaddata &&& 0x02#32 ≠ 0#32 ↔ s.fsm.ctrlDone = true := by
  have hword : (s.step bus).avsReaddata = _ := readdataNext_eq_answer s bus
  rw [hword, queryOf_status hread haddress]
  exact status_word _ _

/-- The root copy answers a read of the C window with the word of `mem_C`. -/
theorem root_element_read (s : MatrixAccelTop N) (bus : AvsCycle) (i j : Fin N)
    (hread : bus.read = true) (haddress : bus.address.toNat = 0xC00 + (cell i j).val) :
    (s.step bus).avsReaddata = 0#16 ++ s.memC (cell i j) :=
  read_cWindow s hread haddress

/-- Cycles without a START for the latency bring the root copy to rest. -/
theorem root_rests (hN : N ≤ 84) (s : MatrixAccelTop N) (l : List AvsCycle) (h : CleanPipeline s)
    (hno : ∀ bus ∈ l, bus.clrPeSig = false) (hlong : 5 * N + 4 ≤ l.length) :
    phase (run MatrixAccelTop.step s l).fsm = Phase.idle := by
  have hwell := wellPhased_trace hN h.wellPhased (fun t => l.getD t default) l.length
  have hmost := Phase.remaining_le N (phase s.fsm)
  rw [run_eq_trace, ← Phase.remaining_eq_zero_iff N hwell.bounded,
    remaining_trace hN h.wellPhased (noStart_getD hno l.length)]
  omega

/-- At rest the root copy keeps its result. -/
theorem root_holds (hN : N ≤ 84) (s : MatrixAccelTop N) (bus : AvsCycle) (h : CleanPipeline s)
    (hrests : phase s.fsm = Phase.idle) (hno : bus.clrPeSig = false) :
    phase (s.step bus).fsm = Phase.idle ∧
      (fun i j => (s.step bus).memC (cell i j)) = fun i j => s.memC (cell i j) := by
  have hquiet : NoStart (fun _ => bus) 1 := fun _ _ => hno
  obtain ⟨hidle, -, hmem⟩ := idle_holds hN h.wellPhased hrests hquiet
  exact ⟨hidle, funext fun i => funext fun j => congrFun hmem (cell i j)⟩

/-- A START at rest, and then cycles without a write: the root copy is done from the latency on,
and holds the product. -/
theorem root_runs (hN : N ≤ 84) (s : MatrixAccelTop N) (e0 : AvsCycle) (l : List AvsCycle)
    (h : CleanPipeline s) (hrests : phase s.fsm = Phase.idle) (he0 : e0.clrPeSig = true)
    (hquiet : ∀ bus ∈ l, bus.write = false) :
    ((run MatrixAccelTop.step (s.step e0) l).fsm.ctrlDone = true ↔ 5 * N + 4 ≤ l.length) ∧
      (5 * N + 4 ≤ l.length → phase (run MatrixAccelTop.step (s.step e0) l).fsm = Phase.idle ∧
        ∀ i j, (run MatrixAccelTop.step (s.step e0) l).memC (cell i j) =
          macFold 0#16 (operands s.memA s.memB i j)) := by
  obtain ⟨hearly, hlate⟩ := run_from_idle hN h hrests he0 fun bus hb =>
    quiet_of_not_write (hquiet bus hb)
  refine ⟨⟨fun hdone => ?_, fun hlong => (hlate hlong).2.1⟩, fun hlong =>
    ⟨(hlate hlong).1, (hlate hlong).2.2⟩⟩
  by_contra hshort
  exact absurd ((hearly (Nat.lt_of_not_le hshort)).symm.trans hdone) Bool.false_ne_true

/-- The root copy as the driver uses it: a START clears the sums.
RTL: matrix_accel_top_systolic_array.v:49-177 -/
def rootContract (hN : N ≤ 84) : DriverContract N (MatrixAccelTop N) where
  step := MatrixAccelTop.step
  readdata := MatrixAccelTop.avsReaddata
  memA := MatrixAccelTop.memA
  memB := MatrixAccelTop.memB
  done s := s.fsm.ctrlDone
  elements s i j := s.memC (cell i j)
  combine _ pairs := macFold 0#16 pairs
  latency := 5 * N + 4
  Sound := CleanPipeline
  Resting s := phase s.fsm = Phase.idle
  sound_step _ bus h := h.step hN bus
  memA_step _ _ := rfl
  memB_step _ _ := rfl
  status_read := root_status_read
  element_read := root_element_read
  rests := root_rests hN
  holds := root_holds hN
  runs := root_runs hN

/-! ## The Qsys copy -/

/-- A state that stands for some running sums. -/
def QsysSound (q : Qsys.MatrixAccelTop N) : Prop := ∃ m : RunningSums N, QsysRepresents q m

/-- One edge keeps a state of the Qsys copy that stands for sums. -/
theorem QsysSound.step (hN : N ≤ 84) {q : Qsys.MatrixAccelTop N} (h : QsysSound q)
    (bus : AvsCycle) : QsysSound (q.step bus) := by
  obtain ⟨m, hm⟩ := h
  exact ⟨_, qsys_represents_step hN q m bus hm⟩

/-- So does a whole run. -/
theorem QsysSound.run (hN : N ≤ 84) {q : Qsys.MatrixAccelTop N} (h : QsysSound q)
    (l : List AvsCycle) : QsysSound (Library.run Qsys.MatrixAccelTop.step q l) := by
  obtain ⟨m, hm⟩ := h
  exact ⟨_, (qsys_represents_step hN).along_run hm l⟩

/-- When it does not calculate, such a state is at rest. -/
theorem QsysSound.atRest {q : Qsys.MatrixAccelTop N} (h : QsysSound q)
    (hcalc : q.fsm.stateCalc = false) : AtRest q := by
  obtain ⟨m, hm⟩ := h
  have htally := hm.tally
  rw [htally.stateCalc_iff.mp hcalc] at htally
  exact htally.1

/-- The Qsys copy answers a poll with its done bit. -/
theorem qsys_status_read (q : Qsys.MatrixAccelTop N) (bus : AvsCycle) (hread : bus.read = true)
    (haddress : bus.address = 0#14) :
    (q.step bus).avsReaddata &&& 0x02#32 ≠ 0#32 ↔ q.fsm.ctrlDone = true := by
  have hword : (q.step bus).avsReaddata = _ := qsys_readdataNext_eq_answer q bus
  rw [hword, queryOf_status hread haddress]
  exact status_word _ _

/-- The Qsys copy answers a read of the C window with the accumulator itself. -/
theorem qsys_element_read (q : Qsys.MatrixAccelTop N) (bus : AvsCycle) (i j : Fin N)
    (hread : bus.read = true) (haddress : bus.address.toNat = 0xC00 + (cell i j).val) :
    (q.step bus).avsReaddata = 0#16 ++ (q.array i j).cOut := by
  have hword : (q.step bus).avsReaddata = _ := qsys_readdataNext_eq_answer q bus
  rw [hword, queryOf_element hread haddress]
  rfl

/-- INTERNAL: A calculation runs out. -/
theorem qsys_stateCalc_run (hN : N ≤ 84) {q : Qsys.MatrixAccelTop N} (h : QsysSound q)
    {l : List AvsCycle} (hno : ∀ bus ∈ l, bus.clrPeSig = false)
    (hlong : q.fsm.stateCalc = true → 3 * N + 3 ≤ q.fsm.cycleCnt.toNat + l.length) :
    (run Qsys.MatrixAccelTop.step q l).fsm.stateCalc = false := by
  induction l generalizing q with
  | nil =>
    obtain ⟨m, hm⟩ := h
    cases hcalc : q.fsm.stateCalc with
    | false => exact hcalc
    | true =>
      have hbound := hm.tally.bounded hcalc
      have hover := hlong hcalc
      rw [List.length_nil] at hover
      omega
  | cons bus l ih =>
    have hstart := hno bus List.mem_cons_self
    have hno' : ∀ b ∈ l, b.clrPeSig = false := fun b hb => hno b (List.mem_cons_of_mem bus hb)
    cases hcalc : q.fsm.stateCalc with
    | false => exact (qsys_idle_run hcalc hno).1
    | true =>
      obtain ⟨m, hm⟩ := h
      have hstep := (qsys_fsm_step hN hm.tally.bounded bus).2.1 hcalc
      apply ih (QsysSound.step hN ⟨m, hm⟩ bus) hno'
      intro _
      have hover := hlong hcalc
      rw [List.length_cons] at hover
      have hcount : (q.step bus).fsm.cycleCnt.toNat = q.fsm.cycleCnt.toNat + 1 := hstep
      omega

/-- Cycles without a START for the latency bring the Qsys copy to rest. -/
theorem qsys_rests (hN : N ≤ 84) (q : Qsys.MatrixAccelTop N) (l : List AvsCycle) (h : QsysSound q)
    (hno : ∀ bus ∈ l, bus.clrPeSig = false) (hlong : 3 * N + 3 ≤ l.length) :
    AtRest (run Qsys.MatrixAccelTop.step q l) :=
  (h.run hN l).atRest (qsys_stateCalc_run hN h hno fun _ => hlong.trans (Nat.le_add_left _ _))

/-- At rest the Qsys copy keeps its accumulators. -/
theorem qsys_holds (hN : N ≤ 84) (q : Qsys.MatrixAccelTop N) (bus : AvsCycle) (h : QsysSound q)
    (hrests : AtRest q) (hno : bus.clrPeSig = false) :
    AtRest (q.step bus) ∧
      (fun i j => ((q.step bus).array i j).cOut) = fun i j => (q.array i j).cOut :=
  ⟨(h.step hN bus).atRest (qsys_fsm_idle hrests.stateCalc hno).1,
    congrArg Grid.acc (qsysGrid_step_of_not_calc hrests.stateCalc bus)⟩

/-- A START at rest, and then cycles without a write: the Qsys copy is done from the latency on,
with the products added to its accumulators. -/
theorem qsys_runs (hN : N ≤ 84) (q : Qsys.MatrixAccelTop N) (e0 : AvsCycle) (l : List AvsCycle)
    (_h : QsysSound q) (hrests : AtRest q) (he0 : e0.clrPeSig = true)
    (hquiet : ∀ bus ∈ l, bus.write = false) :
    ((run Qsys.MatrixAccelTop.step (q.step e0) l).fsm.ctrlDone = true ↔
        3 * N + 3 ≤ l.length) ∧
      (3 * N + 3 ≤ l.length → AtRest (run Qsys.MatrixAccelTop.step (q.step e0) l) ∧
        ∀ i j, ((run Qsys.MatrixAccelTop.step (q.step e0) l).array i j).cOut =
          macFold (q.array i j).cOut (operands q.memA q.memB i j)) := by
  obtain ⟨hearly, hlate⟩ := qsys_run_from_rest hN hrests he0 fun bus hb =>
    quiet_of_not_write (hquiet bus hb)
  refine ⟨⟨fun hdone => ?_, fun hlong => (hlate hlong).2.1⟩, fun hlong =>
    ⟨(hlate hlong).1, (hlate hlong).2.2⟩⟩
  by_contra hshort
  exact absurd ((hearly (Nat.lt_of_not_le hshort)).symm.trans hdone) Bool.false_ne_true

/-- The Qsys copy as the driver uses it: a START goes on from the sums held.
RTL: system/synthesis/submodules/matrix_accel_top_systolic_array.v:38-123 -/
def qsysContract (hN : N ≤ 84) : DriverContract N (Qsys.MatrixAccelTop N) where
  step := Qsys.MatrixAccelTop.step
  readdata := Qsys.MatrixAccelTop.avsReaddata
  memA := Qsys.MatrixAccelTop.memA
  memB := Qsys.MatrixAccelTop.memB
  done q := q.fsm.ctrlDone
  elements q i j := (q.array i j).cOut
  combine sum pairs := macFold sum pairs
  latency := 3 * N + 3
  Sound := QsysSound
  Resting := AtRest
  sound_step _ bus h := h.step hN bus
  memA_step _ _ := rfl
  memB_step _ _ := rfl
  status_read := qsys_status_read
  element_read := qsys_element_read
  rests := qsys_rests hN
  holds := qsys_holds hN
  runs := qsys_runs hN

end MatrixAccelerator.Analysis
