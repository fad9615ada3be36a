import MatrixAccelerator.Analysis.FabricStages
import MatrixAccelerator.Interface.BackToBack

/-!
# A played program keeps the protocol

Each access of a played program is taken in its first cycle and done in its second, so the
processor sees done exactly the accesses of the program, as the accelerator itself would
log them with one idle cycle after each.
-/

set_option autoImplicit false

namespace MatrixAccelerator.Analysis

open MatrixAccelerator.Library MatrixAccelerator.Model MatrixAccelerator.Interface

/-! ## The addresses of a program -/

/-- An address in a span is not below its base. -/
theorem toNat_le_of_inSpan {pad : ℕ} {base a : BitVec 18} (h : inSpan pad base a = true) :
    base.toNat ≤ a.toNat := by
  have hbase : a >>> pad <<< pad = base := of_decide_eq_true h
  rw [← hbase, BitVec.toNat_shiftLeft, BitVec.toNat_ushiftRight, Nat.shiftLeft_eq,
    Nat.shiftRight_eq_div_pow]
  exact (Nat.mod_le _ _).trans (Nat.div_mul_le_self _ _)

/-- The byte address of an access is four times its word address. -/
theorem toNat_request_address (bus : AvsCycle) :
    (request bus).address.toNat = bus.address.toNat * 4 := by
  have hlt := bus.address.isLt
  have hword : (request bus).address = 0#2 ++ bus.address ++ 0#2 := rfl
  rw [hword, BitVec.toNat_append, BitVec.toNat_append, BitVec.toNat_ofNat]
  rw [Nat.zero_mod, Nat.zero_shiftLeft, Nat.zero_or, Nat.or_zero, Nat.shiftLeft_eq]

/-- The accelerator's addresses lie below every span from `0x10000` on. -/
theorem not_inSpan_request (bus : AvsCycle) {pad : ℕ} {base : BitVec 18}
    (hbase : 0x10000 ≤ base.toNat) : inSpan pad base (request bus).address = false := by
  rw [← Bool.not_eq_true]
  intro h
  have hle := toNat_le_of_inSpan h
  have hlt := bus.address.isLt
  rw [toNat_request_address] at hle
  omega

/-- The router sends the accesses to the accelerator. -/
theorem srcChannel_request (bus : AvsCycle) :
    srcChannel (request bus).address = Slave.matrixAccel := by
  unfold srcChannel
  rw [not_inSpan_request bus (by decide : 0x10000 ≤ (0x18000#18).toNat),
    not_inSpan_request bus (by decide : 0x10000 ≤ (0x20800#18).toNat),
    not_inSpan_request bus (by decide : 0x10000 ≤ (0x21008#18).toNat)]
  simp

/-- The slave sees the word address of the access. -/
theorem wordAddress_request (bus : AvsCycle) :
    (request bus).address.extractLsb' 2 14 = bus.address := by
  apply BitVec.eq_of_toNat_eq
  have hlt := bus.address.isLt
  rw [BitVec.extractLsb'_toNat, toNat_request_address, Nat.shiftRight_eq_div_pow]
  omega

/-- Silent slaves respond to nothing. -/
theorem solicited_asking (bus : AvsCycle) : Solicited (asking bus) := by
  intro h
  cases h

/-! ## The two cycles of an access -/

/-- The path between two accesses. -/
structure Ready (s : Interconnect) : Prop where
  stage : At s Stage.nothing
  endBegintransfer : s.translator.endBegintransfer = false

section Slot

variable {σ : Type*} {coreStep : σ → AvsCycle → σ} {readdata : σ → BitVec 32} {b : Board σ}
  {bus : AvsCycle}

/-- A ready interconnect passes the access on in its first cycle. -/
theorem avsCycle_ready (h : Ready b.fabric) (bus : AvsCycle) :
    b.fabric.avsCycle (asking bus) = bus := by
  have hchannel : srcChannel (asking bus).av.address = Slave.matrixAccel := srcChannel_request bus
  have haddress : (asking bus).av.address.extractLsb' 2 14 = bus.address := wordAddress_request bus
  rw [h.stage.avsCycle_eq, uavRead_rest h.stage, uavWrite_rest h.stage, hchannel, haddress,
    decide_eq_true rfl, Bool.true_and, Bool.true_and]
  rfl

/-- After a cycle that asks the accelerator `end_begintransfer` is down. -/
theorem endBegintransfer_asking {stage : Stage} {s : Interconnect} (h : At s stage)
    (bus : AvsCycle) (word : BitVec 32) :
    (s.step (asking bus) word).translator.endBegintransfer = false := by
  unfold Interconnect.step MasterTranslator.step
  simp only [h.uavWaitrequest_accel (c := asking bus) (srcChannel_request bus), Bool.and_false,
    Bool.false_eq_true, if_false]

/-- In its first cycle an access has to wait. -/
theorem waitrequest_ready (h : Ready b.fabric) (hrequest : bus.read = true ∨ bus.write = true) :
    b.waitrequest readdata (asking bus) = true := by
  rw [Board.waitrequest, Interconnect.waitrequest, MasterTranslator.avWaitrequest,
    h.stage.uavReaddatavalid_eq (c := asking bus) rfl]
  have hfree : b.fabric.translator.writeAccepted = false := h.stage.writeAccepted
  have hread : (asking bus).av.read = bus.read := rfl
  have hwrite : (asking bus).av.write = bus.write := rfl
  rw [MasterTranslator.internalBegintransfer, h.endBegintransfer, uavRead_rest h.stage,
    uavWrite_rest h.stage, hfree, hread, hwrite]
  cases hreading : bus.read with
  | true => rfl
  | false =>
    rw [hreading] at hrequest
    have hwriting := hrequest.resolve_left Bool.false_ne_true
    rw [hwriting]
    rfl

theorem released_eq (hread : bus.read = false) (hwrite : bus.write = false) :
    released bus = bus :=
  calc released bus = ⟨bus.address, bus.write, bus.writedata, bus.read⟩ := by
        rw [hread, hwrite, released]
    _ = bus := rfl

/-- The strobes of an access under way at the accelerator are back down. -/
theorem strobes_taken {s : Interconnect} {stage : Stage} {c : FabricCycle} (h : At s stage)
    (hfit : stage.Fits c.av) (hexclusive : c.av.write = true → c.av.read = false)
    (hstage : stage = Stage.write ∨ stage = Stage.read) :
    s.translator.uavRead c.av = false ∧ s.translator.uavWrite c.av = false := by
  rw [MasterTranslator.uavRead, MasterTranslator.uavWrite, h.readAccepted, h.writeAccepted]
  rcases hstage with rfl | rfl
  · rw [hfit.2]
    simp
  · rw [write_false_of_read hexclusive hfit.1]
    simp

/-- In its second cycle the accelerator sees no strobe of the access. -/
theorem avsCycle_taken {stage : Stage} (h : At b.fabric stage) (hfit : stage.Fits (asking bus).av)
    (hexclusive : bus.write = true → bus.read = false)
    (hstage : stage = Stage.write ∨ stage = Stage.read) :
    b.fabric.avsCycle (asking bus) = released bus := by
  obtain ⟨hread, hwrite⟩ := strobes_taken h hfit hexclusive hstage
  have haddress : (asking bus).av.address.extractLsb' 2 14 = bus.address := wordAddress_request bus
  rw [h.avsCycle_eq, hread, hwrite, haddress, Bool.and_false]
  rfl

/-- An access under way at the accelerator is over after the edge. -/
theorem edge_over {stage : Stage} {c : FabricCycle} (h : At b.fabric stage)
    (hfit : stage.Fits c.av) (hexclusive : c.av.write = true → c.av.read = false)
    (hsolicited : Solicited c) (hstage : stage = Stage.write ∨ stage = Stage.read) :
    Edge coreStep readdata b c stage Stage.nothing := by
  rcases hstage with rfl | rfl
  · exact edge_write h hfit
  · exact edge_read h hfit hexclusive hsolicited

/-- Two cycles of an access, from between two accesses. -/
structure Slot (coreStep : σ → AvsCycle → σ) (readdata : σ → BitVec 32) (b : Board σ)
    (bus : AvsCycle) : Prop where
  ready : Ready ((b.step coreStep readdata (asking bus)).step coreStep readdata (asking bus)).fabric
  core : ((b.step coreStep readdata (asking bus)).step coreStep readdata (asking bus)).core =
    slotStep coreStep b.core bus
  log : completed readdata b (asking bus) ++
      completed readdata (b.step coreStep readdata (asking bus)) (asking bus) =
    performedAt coreStep readdata b.core bus
  done : bus.read = true ∨ bus.write = true →
    (b.step coreStep readdata (asking bus)).waitrequest readdata (asking bus) = false

/-- INTERNAL: Two edges of which the second finishes what the first began are a slot. -/
theorem slot_of_edges {stage : Stage} (h : Ready b.fabric)
    (hfirst : Edge coreStep readdata b (asking bus) Stage.nothing stage)
    (hsecond : Edge coreStep readdata (b.step coreStep readdata (asking bus)) (asking bus) stage
      Stage.nothing)
    (hbus : (b.step coreStep readdata (asking bus)).fabric.avsCycle (asking bus) = released bus)
    (hdone : bus.read = true ∨ bus.write = true →
      (b.step coreStep readdata (asking bus)).waitrequest readdata (asking bus) = false) :
    Slot coreStep readdata b bus where
  ready := ⟨hsecond.next, endBegintransfer_asking hfirst.next bus _⟩
  core := by
    have hcore : (b.step coreStep readdata (asking bus)).core = coreStep b.core bus := by
      rw [Board.step, avsCycle_ready h]
    rw [Board.step, hbus, hcore, slotStep]
  log := by
    have hlog := hfirst.log
    have hlog' := hsecond.log
    have hnone : performed coreStep readdata (b.step coreStep readdata (asking bus)) (asking bus) =
        [] := by
      rw [performed, hbus]
      rfl
    rw [hnone, List.append_nil, Stage.owed, List.append_nil] at hlog'
    rw [Stage.owed, List.nil_append, hlog', performed, avsCycle_ready h] at hlog
    exact hlog.symm
  done := hdone

/-- An access is taken in its first cycle and done in its second. -/
theorem slot_ready (h : Ready b.fabric) (hexclusive : bus.write = true → bus.read = false) :
    Slot coreStep readdata b bus := by
  have hsolicited := solicited_asking bus
  by_cases hrequest : bus.read = true ∨ bus.write = true
  · obtain ⟨stage, hedge, hstage⟩ : ∃ stage,
        Edge coreStep readdata b (asking bus) Stage.nothing stage ∧
          (stage = Stage.write ∨ stage = Stage.read) :=
      edge_taken h.stage (srcChannel_request bus) hexclusive hsolicited hrequest
        (waitrequest_ready h hrequest)
    have hover : Edge coreStep readdata (b.step coreStep readdata (asking bus)) (asking bus) stage
        Stage.nothing := edge_over hedge.next hedge.fits hexclusive hsolicited hstage
    exact slot_of_edges h hedge hover (avsCycle_taken hedge.next hedge.fits hexclusive hstage)
      fun _ => waitrequest_taken hedge.next hedge.fits hsolicited hstage
  · obtain ⟨hread, hwrite⟩ := not_or.mp hrequest
    rw [Bool.not_eq_true] at hread hwrite
    have hedge : Edge coreStep readdata b (asking bus) Stage.nothing Stage.nothing :=
      edge_noRequest h.stage hread hwrite
    have hready : Ready (b.step coreStep readdata (asking bus)).fabric :=
      ⟨hedge.next, endBegintransfer_asking h.stage bus _⟩
    refine slot_of_edges h hedge (edge_noRequest hedge.next hread hwrite) ?_
      fun hr => absurd hr hrequest
    rw [avsCycle_ready hready, released_eq hread hwrite]

end Slot

/-! ## The program -/

section Program

variable {σ : Type*} {coreStep : σ → AvsCycle → σ} {readdata : σ → BitVec 32} {core : σ}
  {program : List AvsCycle}

/-- Every access of the stream has one strobe at most. -/
theorem accessAt_exclusive (hexclusive : ∀ bus ∈ program, bus.write = true → bus.read = false)
    (k : ℕ) : (accessAt program k).write = true → (accessAt program k).read = false := by
  unfold accessAt
  rw [List.getD_eq_getElem?_getD]
  by_cases hlt : k < program.length
  · rw [List.getElem?_eq_getElem hlt]
    exact hexclusive _ (List.getElem_mem hlt)
  · rw [List.getElem?_eq_none (Nat.le_of_not_lt hlt)]
    exact fun _ => rfl

theorem played_first (program : List AvsCycle) (k : ℕ) :
    played program (2 * k + 1) = asking (accessAt program k) := by
  rw [played, Nat.mul_div_cancel_left k Nat.two_pos]

theorem played_second (program : List AvsCycle) (k : ℕ) :
    played program (2 * k + 2) = asking (accessAt program k) := by
  have hhalf : (2 * k + 1) / 2 = k := by omega
  rw [played, hhalf]

/-- Where a played program stands between two accesses. -/
structure Between (coreStep : σ → AvsCycle → σ) (readdata : σ → BitVec 32) (s : σ)
    (program : List AvsCycle) (k : ℕ) : Prop where
  ready : Ready (trace (Board.step coreStep readdata) ⟨Interconnect.reset, s⟩ (played program)
    (2 * k + 1)).fabric
  core : (trace (Board.step coreStep readdata) ⟨Interconnect.reset, s⟩ (played program)
      (2 * k + 1)).core =
    trace (slotStep coreStep) (coreStep s noAccess) (accessAt program) k
  log : emitted (Board.step coreStep readdata) (completed readdata) ⟨Interconnect.reset, s⟩
      (played program) (2 * k + 1) =
    emitted (slotStep coreStep) (performedAt coreStep readdata) (coreStep s noAccess)
      (accessAt program) k

/-- One idle cycle out of reset the interconnect is ready. -/
theorem ready_reset (word : BitVec 32) :
    Ready (Interconnect.reset.step (asking noAccess) word) where
  stage := at_step_reset (asking noAccess) word
  endBegintransfer := rfl

/-- After that cycle nothing has been done. -/
theorem between_zero : Between coreStep readdata core program 0 where
  ready := ready_reset (readdata core)
  core := by
    have hbus : Interconnect.reset.avsCycle (asking noAccess) = noAccess := by
      decide
    rw [trace_zero, Nat.mul_zero, trace_succ, trace_zero, Board.step, played, hbus]
  log := by
    have hfirst : completed readdata (⟨Interconnect.reset, core⟩ : Board σ) (played program 0) = [] :=
      completed_reset (solicited_asking noAccess)
    rw [Nat.mul_zero, Nat.zero_add, emitted, emitted, trace_zero, hfirst]
    rfl

/-- The two cycles of access `k`. -/
theorem slot_played (hexclusive : ∀ bus ∈ program, bus.write = true → bus.read = false) {k : ℕ}
    (h : Between coreStep readdata core program k) :
    Slot coreStep readdata
      (trace (Board.step coreStep readdata) ⟨Interconnect.reset, core⟩ (played program)
        (2 * k + 1)) (accessAt program k) :=
  slot_ready h.ready (accessAt_exclusive hexclusive k)

/-- Between two accesses the interconnect is ready, the core has taken the accesses so far, and the
processor has seen them done. -/
theorem between_played (hexclusive : ∀ bus ∈ program, bus.write = true → bus.read = false)
    (k : ℕ) : Between coreStep readdata core program k := by
  induction k with
  | zero => exact between_zero
  | succ k ih =>
    have hslot := slot_played hexclusive ih
    refine ⟨?_, ?_, ?_⟩
    · rw [Nat.mul_succ, trace_succ, trace_succ, played_first, played_second]
      exact hslot.ready
    · rw [Nat.mul_succ, trace_succ, trace_succ, played_first, played_second, hslot.core, ih.core,
        trace_succ]
    · rw [Nat.mul_succ, emitted, emitted, trace_succ _ _ _ (2 * k + 1), played_first, played_second,
        List.append_assoc, hslot.log, ih.log, ih.core, emitted]

/-- INTERNAL: A played program keeps the protocol. -/
theorem protocol_played (hexclusive : ∀ bus ∈ program, bus.write = true → bus.read = false) :
    Protocol coreStep readdata ⟨Interconnect.reset, core⟩ (played program) where
  exclusive t := by
    cases t with
    | zero => exact fun h => absurd h Bool.false_ne_true
    | succ t => exact accessAt_exclusive hexclusive (t / 2)
  held t hrequest hwait := by
    cases t with
    | zero => rcases hrequest with h | h <;> cases h
    | succ t =>
      obtain ⟨k, rfl | rfl⟩ : ∃ k, t = 2 * k ∨ t = 2 * k + 1 :=
        ⟨t / 2, (Nat.mod_two_eq_zero_or_one t).imp (fun h => by omega) fun h => by omega⟩
      · rw [played_first, played_second]
      · have hbetween : Between coreStep readdata core program k := between_played hexclusive k
        have hslot := slot_played hexclusive hbetween
        rw [played_second] at hrequest hwait
        rw [trace_succ, played_first, hslot.done hrequest] at hwait
        cases hwait

/-- A played program meets the assumption on the other slaves. -/
theorem solicited_played (program : List AvsCycle) (t : ℕ) : Solicited (played program t) := by
  cases t with
  | zero => exact solicited_asking noAccess
  | succ t => exact solicited_asking _

end Program

end MatrixAccelerator.Analysis
