import MatrixAccelerator.Analysis.FifoRefinement
import MatrixAccelerator.Interface.BusLog
import MatrixAccelerator.Library.EventLog

/-!
# The stages of an access

Between two accesses nothing is under way; an accepted access waits one cycle for the
processor to see it done.  `Stage` names what is under way, each edge takes a stage to a
stage, and what it performs and what it completes differ by what the stages owe.
-/

set_option autoImplicit false

namespace MatrixAccelerator.Analysis

open MatrixAccelerator.Library MatrixAccelerator.Model MatrixAccelerator.Interface

/-! ## The address on the way -/

/-- Clearing the two low bits changes nothing above them. -/
theorem shiftRight_align (a : BitVec 18) {pad : ℕ} (h : 2 ≤ pad) :
    (a >>> 2 <<< 2) >>> pad = a >>> pad := by
  ext i hi
  simp only [BitVec.getElem_ushiftRight, BitVec.getLsbD_shiftLeft, BitVec.getLsbD_ushiftRight]
  have hge : ¬ pad + i < 2 := by omega
  have heq : 2 + (pad + i - 2) = pad + i := by omega
  rw [heq]
  by_cases hlt : pad + i < 18
  · simp [hlt, hge]
  · simp [hlt, BitVec.getLsbD_of_ge a (pad + i) (by omega)]

/-- An aligned address lies in the same spans. -/
theorem inSpan_align (a base : BitVec 18) {pad : ℕ} (h : 2 ≤ pad) :
    inSpan pad base (a >>> 2 <<< 2) = inSpan pad base a := by
  unfold inSpan
  rw [shiftRight_align a h]

/-- An aligned address is routed to the same slave. -/
theorem srcChannel_align (a : BitVec 18) : srcChannel (a >>> 2 <<< 2) = srcChannel a := by
  unfold srcChannel
  rw [inSpan_align a _ (by decide : 2 ≤ 16), inSpan_align a _ (by decide : 2 ≤ 15),
    inSpan_align a _ (by decide : 2 ≤ 11), inSpan_align a _ (by decide : 2 ≤ 3)]

/-- A word address survives the two alignments on the way. -/
theorem wordAddress_align (a : BitVec 18) {w : ℕ} (hw : w ≤ 16) :
    (a >>> 2 <<< 2 >>> 2 <<< 2).extractLsb' 2 w = a.extractLsb' 2 w := by
  ext i hi
  simp only [BitVec.getElem_extractLsb', BitVec.getLsbD_shiftLeft, BitVec.getLsbD_ushiftRight]
  have hlt : 2 + i < 18 := by omega
  have hge : ¬ 2 + i < 2 := by omega
  simp [hlt, hge]

theorem write_false_of_read {av : AvmCycle} (hexclusive : av.write = true → av.read = false)
    (hread : av.read = true) : av.write = false := by
  cases hwrite : av.write with
  | false => rfl
  | true => exact absurd (hread.symm.trans (hexclusive hwrite)) Bool.true_eq_false.mp

/-! ## The stages -/

/-- What is under way between two edges. -/
inductive Stage
  | nothing
  | write
  | read
  | elsewhere
deriving DecidableEq

namespace Stage

/-- The response FIFO holds the entry of the read under way at the accelerator. -/
def pending : Stage → List RfEntry
  | read => [⟨false, false⟩]
  | _ => []

/-- The request the stage was entered with. -/
def Fits (av : AvmCycle) : Stage → Prop
  | nothing => True
  | write => av.write = true ∧ av.read = false
  | read => av.read = true ∧ srcChannel av.address = Slave.matrixAccel
  | elsewhere => av.read = true ∧ srcChannel av.address ≠ Slave.matrixAccel

/-- What the accelerator has done and the processor has not seen done. -/
def owed (av : AvmCycle) (word : BitVec 32) : Stage → List Access
  | nothing => []
  | write =>
    if srcChannel av.address = Slave.matrixAccel then
      [Access.store (av.address.extractLsb' 2 14) av.writedata]
    else []
  | read => [Access.load (av.address.extractLsb' 2 14) word]
  | elsewhere => []

theorem length_owed_le (stage : Stage) (av : AvmCycle) (word : BitVec 32) :
    (stage.owed av word).length ≤ 1 := by
  cases stage with
  | write =>
    rw [owed]
    split
    · exact le_rfl
    · exact Nat.zero_le 1
  | _ => simp [owed]

end Stage

/-- The registers of the path at a stage, out of reset. -/
structure At (s : Interconnect) (stage : Stage) : Prop where
  readAccepted : s.translator.readAccepted = decide (stage = Stage.read ∨ stage = Stage.elsewhere)
  writeAccepted : s.translator.writeAccepted = decide (stage = Stage.write)
  awake : s.agent.holdWaitrequest = false
  override : s.slaveTranslator.waitrequestResetOverride = false
  latency : s.slaveTranslator.readLatencyShiftReg = decide (stage = Stage.read)
  rspFifo : Holds s.rspFifo stage.pending

namespace At

variable {s : Interconnect} {stage : Stage} (h : At s stage) (c : FabricCycle)

/-! ## The command leg -/

/-- The response FIFO always has room. -/
theorem inReady (h : At s stage) : s.rspFifo.inReady = true := by
  rw [h.rspFifo.inReady_eq]
  cases stage <;> rfl

/-- The route depends on the address the processor shows. -/
theorem channel_eq (s : Interconnect) (c : FabricCycle) :
    s.channel c = srcChannel c.av.address :=
  srcChannel_align c.av.address

/-- The accelerator's leg is always ready. -/
theorem src3Ready (h : At s stage) : s.src3Ready = true := by
  rw [Interconnect.src3Ready, SlaveAgent.cpReady, SlaveTranslator.uavWaitrequest, h.override,
    h.inReady]
  rfl

/-- The accelerator is always ready. -/
theorem uavWaitrequest_accel (h : At s stage) {c : FabricCycle}
    (haccel : srcChannel c.av.address = Slave.matrixAccel) : s.uavWaitrequest c = false := by
  rw [Interconnect.uavWaitrequest, Interconnect.cpReady, channel_eq, haccel,
    MasterAgent.avWaitrequest, h.awake, h.src3Ready]
  rfl

/-- The accelerator's bus carries the strobes that are new and its own. -/
theorem avsCycle_eq (h : At s stage) (c : FabricCycle) :
    s.avsCycle c =
      ⟨c.av.address.extractLsb' 2 14,
        decide (srcChannel c.av.address = Slave.matrixAccel) && s.translator.uavWrite c.av,
        c.av.writedata,
        decide (srcChannel c.av.address = Slave.matrixAccel) && s.translator.uavRead c.av⟩ := by
  unfold Interconnect.avsCycle Interconnect.m0Read SlaveTranslator.av SlaveAgent.m0Read
    SlaveAgent.m0Write SlaveAgent.m0Address Interconnect.src3Valid MasterAgent.cpValid
  rw [channel_eq, h.inReady]
  have haddr : (s.command c).addr >>> 2 <<< 2 = c.av.address >>> 2 <<< 2 >>> 2 <<< 2 := rfl
  rw [haddr, wordAddress_align _ (by decide)]
  simp only [Interconnect.command, MasterAgent.cpData]
  cases s.translator.uavRead c.av <;> cases s.translator.uavWrite c.av <;> simp

/-! ## The response leg -/

/-- The accelerator responds in the second cycle of a read, and then only. -/
theorem sink3_eq (h : At s stage) (word : BitVec 32) :
    (s.sink3 word).granted =
      if stage = Stage.read then ⟨true, word, false⟩ else ⟨false, 0#32, false⟩ := by
  unfold Interconnect.sink3 SlaveAgent.rp Response.granted
  rw [h.latency, h.rspFifo.outValid_eq]
  cases stage with
  | read =>
    have hhead := h.rspFifo.head?_eq (by rw [h.rspFifo.outValid_eq]; rfl)
    rw [Stage.pending, List.head?_cons, Option.some_inj] at hhead
    rw [← hhead]
    rfl
  | _ => rfl

/-- Its response is valid in the second cycle of a read. -/
theorem valid_sink3 (h : At s stage) (word : BitVec 32) :
    (s.sink3 word).valid = decide (stage = Stage.read) := by
  unfold Interconnect.sink3 SlaveAgent.rp
  rw [h.latency, h.rspFifo.outValid_eq]
  cases stage <;> rfl

/-- A response that is not valid is granted as zeros. -/
theorem granted_of_not_valid {r : Response} (h : r.valid = false) :
    r.granted = ⟨false, 0#32, false⟩ := by
  rw [Response.granted, h]
  rfl

/-- With the other slaves silent the response is the accelerator's. -/
theorem response_eq (h : At s stage) {c : FabricCycle} (hsilent : responding c.others = false)
    (word : BitVec 32) :
    s.response c word =
      if stage = Stage.read then ⟨true, word, false⟩ else ⟨false, 0#32, false⟩ := by
  simp only [responding, Bool.or_eq_false_iff] at hsilent
  obtain ⟨⟨h0, h1⟩, h2⟩ := hsilent
  have h3 := h.sink3_eq word
  have hvalid := h.valid_sink3 word
  unfold Interconnect.response Response.mux
  rw [granted_of_not_valid h0, granted_of_not_valid h1, granted_of_not_valid h2, h0, h1, h2,
    hvalid, h3]
  cases stage <;> simp

/-- With the other slaves silent the answer is valid exactly for the read under way. -/
theorem uavReaddatavalid_eq (h : At s stage) {c : FabricCycle}
    (hsilent : responding c.others = false) (word : BitVec 32) :
    s.uavReaddatavalid c word = decide (stage = Stage.read) := by
  rw [Interconnect.uavReaddatavalid, h.response_eq hsilent, MasterAgent.avReaddatavalid]
  cases stage <;> rfl

/-! ## The edge -/

/-- The strobe of a read that is new and the accelerator's. -/
theorem m0Read_eq (h : At s stage) (c : FabricCycle) :
    s.m0Read c =
      (decide (srcChannel c.av.address = Slave.matrixAccel) && s.translator.uavRead c.av) :=
  congrArg AvsCycle.read (h.avsCycle_eq c)

/-- Every write is posted. -/
theorem nonposted_command (s : Interconnect) (c : FabricCycle) (valid : Bool) :
    SlaveAgent.nonpostedWriteEndofpacket valid (s.command c) = false := by
  unfold SlaveAgent.nonpostedWriteEndofpacket Interconnect.command MasterAgent.cpData
  simp only
  cases s.translator.uavWrite c.av <;> simp

/-- A read on its way to the accelerator is put into the response FIFO. -/
theorem rfOffer_inValid (h : At s stage) (c : FabricCycle) (word : BitVec 32) :
    (s.rfOffer c word).inValid =
      (decide (srcChannel c.av.address = Slave.matrixAccel) && s.translator.uavRead c.av) := by
  rw [← h.m0Read_eq c]
  unfold Interconnect.rfOffer SlaveAgent.rfSourceValid Interconnect.m0Read SlaveAgent.m0Read
  have hready : SlaveAgent.cpReady s.slaveTranslator.uavWaitrequest s.rspFifo.inReady = true :=
    h.src3Ready
  rw [hready, h.inReady, nonposted_command]
  simp

/-- The entry says whether the request was a write. -/
theorem rfOffer_inPayload (s : Interconnect) (c : FabricCycle) (word : BitVec 32) :
    (s.rfOffer c word).inPayload = ⟨false, s.translator.uavWrite c.av⟩ := by
  unfold Interconnect.rfOffer SlaveAgent.rfSourceData
  rw [nonposted_command]
  rfl

/-- The entry is taken out with the response. -/
theorem rfOffer_outReady (h : At s stage) (c : FabricCycle) (word : BitVec 32) :
    (s.rfOffer c word).outReady = decide (stage = Stage.read) := by
  unfold Interconnect.rfOffer SlaveAgent.rfSinkReady
  simp only
  rw [h.valid_sink3, h.latency, h.rspFifo.outValid_eq]
  cases stage <;> simp [Stage.pending]

/-- The response FIFO after an edge holds the entry of the read it took, if any. -/
theorem rspFifo_step (h : At s stage) {c : FabricCycle}
    (hexclusive : c.av.write = true → c.av.read = false) (word : BitVec 32) {stage' : Stage}
    (hread : (decide (srcChannel c.av.address = Slave.matrixAccel) &&
      s.translator.uavRead c.av) = decide (stage' = Stage.read)) :
    Holds (s.step c word).rspFifo stage'.pending := by
  have hstep := h.rspFifo.step (s.rfOffer c word)
  have hqueue : BoundedQueue.step (0 + 2) stage.pending (s.rfOffer c word) = stage'.pending := by
    unfold BoundedQueue.step BoundedQueue.gives BoundedQueue.takes
    rw [h.rfOffer_inValid, h.rfOffer_outReady, rfOffer_inPayload, hread]
    have hempty : (if (decide (stage = Stage.read) && !stage.pending.isEmpty) = true then
        stage.pending.tail else stage.pending) = [] := by
      cases stage <;> rfl
    have hroom : decide (stage.pending.length < 0 + 2) = true := by
      cases stage <;> rfl
    rw [hempty, hroom, List.nil_append, Bool.and_true]
    by_cases hnew : stage' = Stage.read
    · subst hnew
      have hnow := hread.trans (decide_eq_true rfl)
      rw [Bool.and_eq_true, MasterTranslator.uavRead, Bool.and_eq_true] at hnow
      have hwrite := write_false_of_read hexclusive hnow.2.1
      simp [MasterTranslator.uavWrite, hwrite, Stage.pending]
    · rw [decide_eq_false hnew, if_neg Bool.false_ne_true]
      cases stage' with
      | read => exact absurd rfl hnew
      | _ => rfl
  rw [hqueue] at hstep
  exact hstep

/-- An edge that leaves the master translator as `stage'` wants it leaves the path at `stage'`. -/
theorem next (h : At s stage) {c : FabricCycle}
    (hexclusive : c.av.write = true → c.av.read = false) (word : BitVec 32) (stage' : Stage)
    (hreadAccepted : (s.step c word).translator.readAccepted =
      decide (stage' = Stage.read ∨ stage' = Stage.elsewhere))
    (hwriteAccepted : (s.step c word).translator.writeAccepted = decide (stage' = Stage.write))
    (hread : (decide (srcChannel c.av.address = Slave.matrixAccel) &&
      s.translator.uavRead c.av) = decide (stage' = Stage.read)) :
    At (s.step c word) stage' where
  readAccepted := hreadAccepted
  writeAccepted := hwriteAccepted
  awake := rfl
  override := rfl
  latency := by
    have hm0 := (h.m0Read_eq c).trans hread
    unfold Interconnect.step SlaveTranslator.step SlaveTranslator.uavWaitrequest
    simp only
    rw [hm0, h.override]
    simp
  rspFifo := h.rspFifo_step hexclusive word hread

end At

/-! ## One edge of the board -/

section Edges

variable {σ : Type*} {coreStep : σ → AvsCycle → σ} {readdata : σ → BitVec 32} {b : Board σ}
  {c : FabricCycle} {stage : Stage}

/-- What one edge does: it leads to `stage'`, waits if anything is under way there, and
keeps the books. -/
structure Edge (coreStep : σ → AvsCycle → σ) (readdata : σ → BitVec 32) (b : Board σ)
    (c : FabricCycle) (stage stage' : Stage) : Prop where
  next : At (b.step coreStep readdata c).fabric stage'
  fits : stage'.Fits c.av
  waits : stage' ≠ Stage.nothing → b.waitrequest readdata c = true
  log : stage.owed c.av (readdata b.core) ++ performed coreStep readdata b c =
    completed readdata b c ++ stage'.owed c.av (readdata (b.step coreStep readdata c).core)

/-- What an edge performs at the accelerator, from the strobes behind the translator. -/
theorem performed_eq (h : At b.fabric stage) (c : FabricCycle) :
    performed coreStep readdata b c =
      if srcChannel c.av.address = Slave.matrixAccel then
        (if b.fabric.translator.uavWrite c.av then
          [Access.store (c.av.address.extractLsb' 2 14) c.av.writedata] else []) ++
        if b.fabric.translator.uavRead c.av then
          [Access.load (c.av.address.extractLsb' 2 14)
            (readdata (b.step coreStep readdata c).core)] else []
      else [] := by
  unfold performed performedAt Board.step
  rw [h.avsCycle_eq c]
  by_cases haccel : srcChannel c.av.address = Slave.matrixAccel
  · simp only [haccel, decide_true, Bool.true_and, if_true]
  · simp [haccel]

/-- A request that waits is not done. -/
theorem completed_of_waitrequest (hwait : b.waitrequest readdata c = true) :
    completed readdata b c = [] := by
  rw [completed, hwait]
  rfl

/-- A request to another slave is no access to the accelerator. -/
theorem completed_elsewhere (haway : srcChannel c.av.address ≠ Slave.matrixAccel) :
    completed readdata b c = [] := by
  rw [completed, decide_eq_false haway, Bool.and_false]
  rfl

/-- An edge without `waitrequest` leaves nothing under way. -/
theorem edge_done (h : At b.fabric stage) (hexclusive : c.av.write = true → c.av.read = false)
    (hwait : b.waitrequest readdata c = false)
    (hanswer : b.fabric.translator.readAccepted = true →
      b.fabric.uavReaddatavalid c (readdata b.core) = true)
    (hread : (decide (srcChannel c.av.address = Slave.matrixAccel) &&
      b.fabric.translator.uavRead c.av) = false)
    (hlog : stage.owed c.av (readdata b.core) ++ performed coreStep readdata b c =
      completed readdata b c) : Edge coreStep readdata b c stage Stage.nothing := by
  rw [Board.waitrequest, Interconnect.waitrequest] at hwait
  refine ⟨h.next hexclusive _ _ ?_ ?_ (hread.trans (decide_eq_false (by simp)).symm), trivial,
    fun hne => absurd rfl hne, ?_⟩
  · unfold Interconnect.step MasterTranslator.step
    simp only [hwait]
    cases hacc : b.fabric.translator.readAccepted with
    | false => rfl
    | true => simp [hanswer hacc]
  · unfold Interconnect.step MasterTranslator.step
    simp only [hwait]
    rfl
  · rw [hlog, Stage.owed, List.append_nil]

/-- An edge with `waitrequest` leaves under way what the master translator then marks. -/
theorem edge_waiting (h : At b.fabric stage) (hexclusive : c.av.write = true → c.av.read = false)
    (hwait : b.waitrequest readdata c = true) (stage' : Stage) (hfit : stage'.Fits c.av)
    (hreadAccepted : (if b.fabric.translator.readAccepted then
        !b.fabric.uavReaddatavalid c (readdata b.core)
      else c.av.read && !b.fabric.uavWaitrequest c) =
        decide (stage' = Stage.read ∨ stage' = Stage.elsewhere))
    (hwriteAccepted : (if b.fabric.translator.uavWrite c.av && !b.fabric.uavWaitrequest c then true
      else b.fabric.translator.writeAccepted) = decide (stage' = Stage.write))
    (hread : (decide (srcChannel c.av.address = Slave.matrixAccel) &&
      b.fabric.translator.uavRead c.av) = decide (stage' = Stage.read))
    (hlog : stage.owed c.av (readdata b.core) ++ performed coreStep readdata b c =
      stage'.owed c.av (readdata (b.step coreStep readdata c).core)) :
    Edge coreStep readdata b c stage stage' := by
  have hmaster := hwait
  rw [Board.waitrequest, Interconnect.waitrequest] at hmaster
  refine ⟨h.next hexclusive _ _ ?_ ?_ hread, hfit, fun _ => hwait, ?_⟩
  · rw [← hreadAccepted]
    unfold Interconnect.step MasterTranslator.step
    simp only [hmaster, if_true]
  · rw [← hwriteAccepted]
    unfold Interconnect.step MasterTranslator.step
    simp only [hmaster, Bool.not_true, Bool.false_eq_true, if_false]
  · rw [hlog, completed_of_waitrequest hwait, List.nil_append]

/-- While the processor does not read another slave, the other slaves are silent. -/
theorem silent_of_solicited (hsolicited : Solicited c)
    (h : c.av.read = false ∨ srcChannel c.av.address = Slave.matrixAccel) :
    responding c.others = false := by
  cases hresponding : responding c.others with
  | false => rfl
  | true =>
    obtain ⟨hread, haway⟩ := hsolicited hresponding
    rcases h with h | h
    · rw [hread] at h
      cases h
    · exact absurd h haway

section FromRest

variable (h : At b.fabric Stage.nothing)

include h

/-- Between requests the read strobe is passed on. -/
theorem uavRead_rest : b.fabric.translator.uavRead c.av = c.av.read := by
  have hfree : b.fabric.translator.readAccepted = false := h.readAccepted
  rw [MasterTranslator.uavRead, hfree, Bool.not_false, Bool.and_true]

/-- Between requests the write strobe is passed on. -/
theorem uavWrite_rest : b.fabric.translator.uavWrite c.av = c.av.write := by
  have hfree : b.fabric.translator.writeAccepted = false := h.writeAccepted
  rw [MasterTranslator.uavWrite, hfree, Bool.not_false, Bool.and_true]

/-- A read: the accelerator takes it at once, another slave when it is ready. -/
theorem edge_newRead (hexclusive : c.av.write = true → c.av.read = false)
    (hsolicited : Solicited c) (hread : c.av.read = true) :
    ∃ stage', Edge coreStep readdata b c Stage.nothing stage' := by
  have hfree : b.fabric.translator.readAccepted = false := h.readAccepted
  have hfree' : b.fabric.translator.writeAccepted = false := h.writeAccepted
  have hwrite := write_false_of_read hexclusive hread
  have hwait : b.waitrequest readdata c = !b.fabric.uavReaddatavalid c (readdata b.core) := by
    rw [Board.waitrequest, Interconnect.waitrequest, MasterTranslator.avWaitrequest, hread]
    rfl
  by_cases haccel : srcChannel c.av.address = Slave.matrixAccel
  · have hvalid := h.uavReaddatavalid_eq (silent_of_solicited hsolicited (Or.inr haccel))
      (readdata b.core)
    refine ⟨Stage.read, edge_waiting h hexclusive (by rw [hwait, hvalid]; rfl) _ ⟨hread, haccel⟩
      ?_ ?_ ?_ ?_⟩
    · rw [hfree, hread, h.uavWaitrequest_accel haccel]
      rfl
    · rw [uavWrite_rest h, hwrite, hfree']
      rfl
    · rw [uavRead_rest h, hread, haccel]
      rfl
    · rw [performed_eq h, if_pos haccel, uavRead_rest h, uavWrite_rest h, hread, hwrite]
      rfl
  · -- another slave answers at once, is not ready, or has taken the read
    have hquiet : (decide (srcChannel c.av.address = Slave.matrixAccel) &&
        b.fabric.translator.uavRead c.av) = false := by
      rw [decide_eq_false haccel, Bool.false_and]
    have hnone : performed coreStep readdata b c = [] := by rw [performed_eq h, if_neg haccel]
    cases hvalid : b.fabric.uavReaddatavalid c (readdata b.core) with
    | true =>
      refine ⟨_, edge_done h hexclusive (by rw [hwait, hvalid]; rfl) (fun _ => hvalid) hquiet ?_⟩
      rw [hnone, completed_elsewhere haccel]
      rfl
    | false =>
      have hwait' : b.waitrequest readdata c = true := by rw [hwait, hvalid]; rfl
      cases hready : b.fabric.uavWaitrequest c with
      | true =>
        refine ⟨Stage.nothing, edge_waiting h hexclusive hwait' _ trivial ?_ ?_ hquiet ?_⟩
        · rw [hfree, hready, hread]
          rfl
        · rw [uavWrite_rest h, hwrite, hfree']
          rfl
        · rw [hnone]
          rfl
      | false =>
        refine ⟨Stage.elsewhere, edge_waiting h hexclusive hwait' _ ⟨hread, haccel⟩ ?_ ?_ hquiet ?_⟩
        · rw [hfree, hready, hread]
          rfl
        · rw [uavWrite_rest h, hwrite, hfree']
          rfl
        · rw [hnone]
          rfl

/-- A write: the accelerator takes it at once, another slave when it is ready. -/
theorem edge_newWrite (hread : c.av.read = false) (hwrite : c.av.write = true) :
    ∃ stage', Edge coreStep readdata b c Stage.nothing stage' := by
  have hfree : b.fabric.translator.readAccepted = false := h.readAccepted
  have hquiet : (decide (srcChannel c.av.address = Slave.matrixAccel) &&
      b.fabric.translator.uavRead c.av) = false := by
    rw [uavRead_rest h, hread, Bool.and_false]
  have howed : performed coreStep readdata b c =
      Stage.write.owed c.av (readdata (b.step coreStep readdata c).core) := by
    rw [performed_eq h, uavRead_rest h, uavWrite_rest h, hread, hwrite, Stage.owed]
    rfl
  cases hwait : b.waitrequest readdata c with
  | false =>
    refine ⟨_, edge_done h (fun _ => hread) hwait (fun hacc => ?_) hquiet ?_⟩
    · rw [hfree] at hacc
      cases hacc
    · rw [howed, completed, hwait, hread, hwrite]
      by_cases haccel : srcChannel c.av.address = Slave.matrixAccel <;> simp [haccel, Stage.owed]
  | true =>
    cases hready : b.fabric.uavWaitrequest c with
    | false =>
      refine ⟨Stage.write, edge_waiting h (fun _ => hread) hwait _ ⟨hwrite, hread⟩ ?_ ?_ hquiet
        howed⟩
      · rw [hfree, hread]
        rfl
      · rw [uavWrite_rest h, hwrite, hready]
        rfl
    | true =>
      have haway : srcChannel c.av.address ≠ Slave.matrixAccel := by
        intro haccel
        rw [h.uavWaitrequest_accel haccel] at hready
        cases hready
      refine ⟨Stage.nothing, edge_waiting h (fun _ => hread) hwait _ trivial ?_ ?_ hquiet ?_⟩
      · rw [hfree, hread]
        rfl
      · rw [hready, Bool.not_true, Bool.and_false]
        exact h.writeAccepted
      · rw [performed_eq h, if_neg haway]
        rfl

/-- No request: nothing happens. -/
theorem edge_noRequest (hread : c.av.read = false) (hwrite : c.av.write = false) :
    Edge coreStep readdata b c Stage.nothing Stage.nothing := by
  have hfree : b.fabric.translator.readAccepted = false := h.readAccepted
  have hwait : b.waitrequest readdata c = true := by
    rw [Board.waitrequest, Interconnect.waitrequest, MasterTranslator.avWaitrequest, hread, hwrite]
    rfl
  refine edge_waiting h (fun _ => hread) hwait _ trivial ?_ ?_ ?_ ?_
  · rw [hfree, hread]
    rfl
  · rw [uavWrite_rest h, hwrite]
    exact h.writeAccepted
  · rw [uavRead_rest h, hread, Bool.and_false]
    rfl
  · rw [performed_eq h, uavRead_rest h, uavWrite_rest h, hread, hwrite]
    simp [Stage.owed]

end FromRest

/-- A write ends in its second cycle. -/
theorem waitrequest_write (h : At b.fabric Stage.write) (hfit : Stage.write.Fits c.av) :
    b.waitrequest readdata c = false := by
  have haccepted : b.fabric.translator.writeAccepted = true := h.writeAccepted
  rw [Board.waitrequest, Interconnect.waitrequest, MasterTranslator.avWaitrequest, hfit.2,
    hfit.1, haccepted]
  simp

/-- The write under way is done. -/
theorem edge_write (h : At b.fabric Stage.write) (hfit : Stage.write.Fits c.av) :
    Edge coreStep readdata b c Stage.write Stage.nothing := by
  obtain ⟨hwrite, hread⟩ := hfit
  have haccepted : b.fabric.translator.writeAccepted = true := h.writeAccepted
  have hfree : b.fabric.translator.readAccepted = false := h.readAccepted
  have huavWrite : b.fabric.translator.uavWrite c.av = false := by
    rw [MasterTranslator.uavWrite, haccepted, Bool.not_true, Bool.and_false]
  have huavRead : b.fabric.translator.uavRead c.av = false := by
    rw [MasterTranslator.uavRead, hread, Bool.false_and]
  have hwait : b.waitrequest readdata c = false := waitrequest_write h ⟨hwrite, hread⟩
  refine edge_done h (fun _ => hread) hwait (fun hacc => ?_) ?_ ?_
  · rw [hfree] at hacc
    cases hacc
  · rw [huavRead, Bool.and_false]
  · rw [performed_eq h, completed, hwait, huavWrite, huavRead, hwrite, hread]
    by_cases haccel : srcChannel c.av.address = Slave.matrixAccel <;> simp [haccel, Stage.owed]

/-- A read ends in its second cycle. -/
theorem waitrequest_read (h : At b.fabric Stage.read) (hfit : Stage.read.Fits c.av)
    (hsolicited : Solicited c) : b.waitrequest readdata c = false := by
  have hvalid : b.fabric.uavReaddatavalid c (readdata b.core) = true :=
    h.uavReaddatavalid_eq (silent_of_solicited hsolicited (Or.inr hfit.2)) _
  rw [Board.waitrequest, Interconnect.waitrequest, MasterTranslator.avWaitrequest, hfit.1, hvalid]
  rfl

/-- The read under way at the accelerator is done, with the word in its register. -/
theorem edge_read (h : At b.fabric Stage.read) (hfit : Stage.read.Fits c.av)
    (hexclusive : c.av.write = true → c.av.read = false) (hsolicited : Solicited c) :
    Edge coreStep readdata b c Stage.read Stage.nothing := by
  obtain ⟨hread, haccel⟩ := hfit
  have hsilent := silent_of_solicited hsolicited (Or.inr haccel)
  have haccepted : b.fabric.translator.readAccepted = true := h.readAccepted
  have hfree : b.fabric.translator.writeAccepted = false := h.writeAccepted
  have hwrite := write_false_of_read hexclusive hread
  have hvalid : b.fabric.uavReaddatavalid c (readdata b.core) = true :=
    h.uavReaddatavalid_eq hsilent _
  have huavRead : b.fabric.translator.uavRead c.av = false := by
    rw [MasterTranslator.uavRead, haccepted, Bool.not_true, Bool.and_false]
  have huavWrite : b.fabric.translator.uavWrite c.av = false := by
    rw [MasterTranslator.uavWrite, hwrite, Bool.false_and]
  have hwait : b.waitrequest readdata c = false := waitrequest_read h ⟨hread, haccel⟩ hsolicited
  refine edge_done h hexclusive hwait (fun _ => hvalid) ?_ ?_
  · rw [huavRead, Bool.and_false]
  · rw [performed_eq h, huavRead, huavWrite, completed, hwait, hwrite, hread, Board.avReaddata,
      h.response_eq hsilent]
    simp [haccel, Stage.owed]

/-- A read under way elsewhere is done when it is answered. -/
theorem edge_elsewhere (h : At b.fabric Stage.elsewhere) (hfit : Stage.elsewhere.Fits c.av)
    (hexclusive : c.av.write = true → c.av.read = false) :
    ∃ stage', Edge coreStep readdata b c Stage.elsewhere stage' := by
  obtain ⟨hread, haway⟩ := hfit
  have haccepted : b.fabric.translator.readAccepted = true := h.readAccepted
  have hfree : b.fabric.translator.writeAccepted = false := h.writeAccepted
  have hwrite := write_false_of_read hexclusive hread
  have hquiet : (decide (srcChannel c.av.address = Slave.matrixAccel) &&
      b.fabric.translator.uavRead c.av) = false := by
    rw [decide_eq_false haway, Bool.false_and]
  have hnone : performed coreStep readdata b c = [] := by rw [performed_eq h, if_neg haway]
  have hwait : b.waitrequest readdata c = !b.fabric.uavReaddatavalid c (readdata b.core) := by
    rw [Board.waitrequest, Interconnect.waitrequest, MasterTranslator.avWaitrequest, hread]
    rfl
  cases hvalid : b.fabric.uavReaddatavalid c (readdata b.core) with
  | true =>
    refine ⟨_, edge_done h hexclusive (by rw [hwait, hvalid]; rfl) (fun _ => hvalid) hquiet ?_⟩
    rw [hnone, completed_elsewhere haway]
    rfl
  | false =>
    refine ⟨Stage.elsewhere, edge_waiting h hexclusive (by rw [hwait, hvalid]; rfl) _
      ⟨hread, haway⟩ ?_ ?_ hquiet ?_⟩
    · rw [haccepted, hvalid]
      rfl
    · rw [MasterTranslator.uavWrite, hwrite, hfree]
      rfl
    · rw [hnone]
      rfl

/-- **Every edge.** -/
theorem edge (h : At b.fabric stage) (hfit : stage.Fits c.av)
    (hexclusive : c.av.write = true → c.av.read = false) (hsolicited : Solicited c) :
    ∃ stage', Edge coreStep readdata b c stage stage' := by
  cases stage with
  | nothing =>
    cases hread : c.av.read with
    | true => exact edge_newRead h hexclusive hsolicited hread
    | false =>
      cases hwrite : c.av.write with
      | true => exact edge_newWrite h hread hwrite
      | false => exact ⟨_, edge_noRequest h hread hwrite⟩
  | write => exact ⟨_, edge_write h hfit⟩
  | read => exact ⟨_, edge_read h hfit hexclusive hsolicited⟩
  | elsewhere => exact edge_elsewhere h hfit hexclusive

/-- A request to the accelerator that waits is under way after the edge. -/
theorem edge_taken (h : At b.fabric Stage.nothing)
    (haccel : srcChannel c.av.address = Slave.matrixAccel)
    (hexclusive : c.av.write = true → c.av.read = false) (hsolicited : Solicited c)
    (hrequest : c.av.read = true ∨ c.av.write = true)
    (hwait : b.waitrequest readdata c = true) :
    ∃ stage', Edge coreStep readdata b c Stage.nothing stage' ∧
      (stage' = Stage.write ∨ stage' = Stage.read) := by
  obtain ⟨stage', hedge⟩ : ∃ stage', Edge coreStep readdata b c Stage.nothing stage' :=
    edge h trivial hexclusive hsolicited
  refine ⟨stage', hedge, ?_⟩
  have hlog := hedge.log
  rw [completed_of_waitrequest hwait, List.nil_append, Stage.owed, List.nil_append] at hlog
  have hsome : performed coreStep readdata b c ≠ [] := by
    rw [performed_eq h, if_pos haccel, uavRead_rest h, uavWrite_rest h]
    rcases hrequest with hread | hwrite
    · simp [hread]
    · simp [hwrite]
  cases stage' with
  | nothing => exact absurd hlog hsome
  | write => exact Or.inl rfl
  | read => exact Or.inr rfl
  | elsewhere => exact absurd hlog hsome

/-- What is under way at the accelerator is done in the next cycle. -/
theorem waitrequest_taken (h : At b.fabric stage) (hfit : stage.Fits c.av)
    (hsolicited : Solicited c) (hstage : stage = Stage.write ∨ stage = Stage.read) :
    b.waitrequest readdata c = false := by
  rcases hstage with rfl | rfl
  · exact waitrequest_write h hfit
  · exact waitrequest_read h hfit hsolicited

end Edges

/-! ## Streams -/

section Streams

variable {σ : Type*} {coreStep : σ → AvsCycle → σ} {readdata : σ → BitVec 32} {b : Board σ}
  {input : ℕ → FabricCycle}

/-- At every moment of a stream some stage fits the request of the moment, and the two logs
differ by what it owes. -/
theorem stage_trace (hrest : At b.fabric Stage.nothing)
    (hprotocol : Protocol coreStep readdata b input) (hsolicited : ∀ t, Solicited (input t))
    (t : ℕ) :
    ∃ stage, At (trace (Board.step coreStep readdata) b input t).fabric stage ∧
      stage.Fits (input t).av ∧
      emitted (Board.step coreStep readdata) (performed coreStep readdata) b input t =
        emitted (Board.step coreStep readdata) (completed readdata) b input t ++
          stage.owed (input t).av
            (readdata (trace (Board.step coreStep readdata) b input t).core) := by
  induction t with
  | zero => exact ⟨Stage.nothing, hrest, trivial, rfl⟩
  | succ t ih =>
    obtain ⟨stage, hat, hfit, hlog⟩ := ih
    obtain ⟨stage', hedge⟩ : ∃ stage', Edge coreStep readdata _ (input t) stage stage' :=
      edge hat hfit (hprotocol.exclusive t) (hsolicited t)
    -- a request that waits is held by the master, so the stage still fits
    have hsame : stage' ≠ Stage.nothing → (input (t + 1)).av = (input t).av := by
      intro hne
      refine hprotocol.held t ?_ (hedge.waits hne)
      have hfit' := hedge.fits
      cases stage' with
      | nothing => exact absurd rfl hne
      | write => exact Or.inr hfit'.1
      | read => exact Or.inl hfit'.1
      | elsewhere => exact Or.inl hfit'.1
    refine ⟨stage', hedge.next, ?_, ?_⟩
    · by_cases hne : stage' = Stage.nothing
      · rw [hne]
        trivial
      · rw [hsame hne]
        exact hedge.fits
    · rw [emitted, emitted, hlog, List.append_assoc, hedge.log, List.append_assoc, trace_succ]
      by_cases hne : stage' = Stage.nothing
      · rw [hne]
        rfl
      · rw [hsame hne]

end Streams

/-! ## Out of reset -/

/-- In the first cycle out of reset the slave translator holds its `waitrequest` up, so
nothing is accepted, whatever the processor drives. -/
theorem at_step_reset (c : FabricCycle) (word : BitVec 32) :
    At (Interconnect.reset.step c word) Stage.nothing where
  readAccepted := by
    simp [Interconnect.step, MasterTranslator.step, Interconnect.reset, MasterTranslator.reset,
      Interconnect.uavWaitrequest, MasterAgent.avWaitrequest, MasterAgent.reset]
  writeAccepted := by
    simp [Interconnect.step, MasterTranslator.step, Interconnect.reset, MasterTranslator.reset,
      Interconnect.uavWaitrequest, MasterAgent.avWaitrequest, MasterAgent.reset]
  awake := rfl
  override := rfl
  latency := by
    simp [Interconnect.step, SlaveTranslator.step, Interconnect.reset, SlaveTranslator.reset,
      SlaveTranslator.uavWaitrequest]
  rspFifo := by
    have hstep := (Holds.reset 0 (⟨false, false⟩ : RfEntry)).step
      (Interconnect.reset.rfOffer c word)
    have hnone : (Interconnect.reset.rfOffer c word).inValid = false := by
      simp [Interconnect.rfOffer, SlaveAgent.rfSourceValid, SlaveAgent.cpReady,
        SlaveTranslator.uavWaitrequest, Interconnect.reset, SlaveTranslator.reset]
    rw [BoundedQueue.step, BoundedQueue.takes, hnone] at hstep
    exact hstep

section FromReset

variable {σ : Type*} {coreStep : σ → AvsCycle → σ} {readdata : σ → BitVec 32} {core : σ}
  {input : ℕ → FabricCycle}

/-- The protocol holds from the next cycle on. -/
theorem protocol_succ {b : Board σ} (h : Protocol coreStep readdata b input) :
    Protocol coreStep readdata (b.step coreStep readdata (input 0)) fun t => input (t + 1) where
  exclusive t := h.exclusive (t + 1)
  held t hrequest hwait := h.held (t + 1) hrequest (by rw [trace_succ']; exact hwait)

/-- Out of reset nothing is read. -/
theorem uavReaddatavalid_reset {c : FabricCycle} (hsilent : responding c.others = false)
    (word : BitVec 32) : Interconnect.reset.uavReaddatavalid c word = false := by
  simp only [responding, Bool.or_eq_false_iff] at hsilent
  obtain ⟨⟨h0, h1⟩, h2⟩ := hsilent
  have h3 : (Interconnect.reset.sink3 word).valid = false := rfl
  have hvalid : (Interconnect.reset.response c word).valid = false := by
    unfold Interconnect.response Response.mux
    rw [h0, h1, h2, h3]
    rfl
  rw [Interconnect.uavReaddatavalid, MasterAgent.avReaddatavalid, hvalid]
  exact ite_self _

/-- Out of reset the processor has to wait. -/
theorem waitrequest_reset {c : FabricCycle} (hsilent : responding c.others = false) :
    (⟨Interconnect.reset, core⟩ : Board σ).waitrequest readdata c = true := by
  rw [Board.waitrequest, Interconnect.waitrequest, MasterTranslator.avWaitrequest,
    uavReaddatavalid_reset hsilent]
  cases hread : c.av.read <;> cases hwrite : c.av.write <;>
    simp [MasterTranslator.internalBegintransfer, MasterTranslator.uavWrite,
      MasterTranslator.uavRead, Interconnect.reset, MasterTranslator.reset, hread, hwrite]

/-- The first cycle completes nothing. -/
theorem completed_reset {c : FabricCycle} (hsolicited : Solicited c) :
    completed readdata (⟨Interconnect.reset, core⟩ : Board σ) c = [] := by
  by_cases haccel : srcChannel c.av.address = Slave.matrixAccel
  · exact completed_of_waitrequest
      (waitrequest_reset (silent_of_solicited hsolicited (Or.inr haccel)))
  · exact completed_elsewhere haccel

/-- From the second cycle on some stage fits the request, and the logs differ by what it owes and
by what the first cycle put on the accelerator's bus. -/
theorem stage_from_reset (hprotocol : Protocol coreStep readdata ⟨Interconnect.reset, core⟩ input)
    (hsolicited : ∀ t, Solicited (input t)) (t : ℕ) :
    ∃ stage, At (trace (Board.step coreStep readdata) ⟨Interconnect.reset, core⟩ input
        (t + 1)).fabric stage ∧ stage.Fits (input (t + 1)).av ∧
      emitted (Board.step coreStep readdata) (performed coreStep readdata)
          ⟨Interconnect.reset, core⟩ input (t + 1) =
        performed coreStep readdata ⟨Interconnect.reset, core⟩ (input 0) ++
          (emitted (Board.step coreStep readdata) (completed readdata)
            ⟨Interconnect.reset, core⟩ input (t + 1) ++
          stage.owed (input (t + 1)).av (readdata
            (trace (Board.step coreStep readdata) ⟨Interconnect.reset, core⟩ input (t + 1)).core)) := by
  obtain ⟨stage, hat, hfit, hlog⟩ := stage_trace (at_step_reset (input 0) (readdata core))
    (protocol_succ hprotocol) (fun t => hsolicited (t + 1)) t
  rw [trace_succ', emitted_succ', emitted_succ', completed_reset (hsolicited 0), List.nil_append]
  exact ⟨stage, hat, hfit, congrArg _ hlog⟩

end FromReset

end MatrixAccelerator.Analysis
