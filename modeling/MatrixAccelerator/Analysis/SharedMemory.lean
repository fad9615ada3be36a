import MatrixAccelerator.Analysis.Arbitration
import MatrixAccelerator.Analysis.FabricStages
import MatrixAccelerator.Analysis.FifoRefinement
import MatrixAccelerator.Interface.SerialMemory

/-!
# Two masters and one memory

A request is served in the cycle it passes the multiplexer, and the response FIFO holds the
number of the master that is answered in the next cycle, if any.  So the two masters see one
memory that serves their requests one after another, in the order they pass; and a request
that stands passes by the third cycle.
-/

set_option autoImplicit false

namespace MatrixAccelerator.Analysis

open MatrixAccelerator.Library MatrixAccelerator.Model MatrixAccelerator.Interface

/-! ## The packets -/

/-- The slave agent reads out of a packet what the master agent put in. -/
theorem ofWord_cpWord (i : Fin 2) (uav : UavCycle) :
    CommandPacket.ofWord (cpWord i uav) =
      MasterAgent.cpData uav.read uav.write uav.toAvmCycle := by
  unfold CommandPacket.ofWord cpWord
  simp (disch := omega) only [BitVec.extractLsb'_append_eq_of_le, BitVec.getLsbD_append,
    Nat.reduceSub, Nat.reduceLT, if_true, if_false]
  rw [CommandPacket.mk.injEq]
  exact ⟨BitVec.extractLsb'_append_eq_right, BitVec.extractLsb'_append_eq_right,
    BitVec.extractLsb'_append_eq_right, BitVec.getLsbD_ofBool _ 0, BitVec.getLsbD_ofBool _ 0,
    BitVec.getLsbD_ofBool _ 0⟩

/-- The packet carries the number of its master. -/
theorem srcId_cpWord (i : Fin 2) (uav : UavCycle) :
    (cpWord i uav).extractLsb' 75 2 = masterId i := by
  unfold cpWord
  simp (disch := omega) only [BitVec.extractLsb'_append_eq_of_le, Nat.reduceSub]
  exact BitVec.extractLsb'_append_eq_right

/-- The masters never lock the multiplexer. -/
theorem lock_memorySink (i : Fin 2) (uav : UavCycle) : (memorySink i uav).lock = false := by
  unfold MuxSink.lock memorySink cpWord
  simp only [BitVec.getLsbD_append, Nat.reduceSub, Nat.reduceLT, if_false, if_true]
  rfl

theorem data_payload (k : MuxSink) : k.payload.extractLsb' 2 89 = k.data := by
  unfold MuxSink.payload
  simp (disch := omega) only [BitVec.extractLsb'_append_eq_of_le, Nat.reduceSub]
  exact BitVec.extractLsb'_append_eq_right

/-- A response goes to the master whose number it carries. -/
theorem idChannel_masterId (i k : Fin 2) :
    (idChannel (masterId k)).getLsbD i.val = decide (k = i) := by
  revert i k
  decide

/-! ## What is under way -/

section Flow

variable {σ : Type*} {ramStep : σ → RamCycle → σ} {q : σ → BitVec 32}

/-- The entry of a read of master `k`. -/
def readBy (k : Fin 2) : RfWord := ⟨⟨false, false⟩, masterId k⟩

/-- `reader` is the master whose read stands at the memory's output.  In the first cycle after
reset nobody holds the multiplexer. -/
structure Flowing (s : SharedMemory σ) (reader : Option (Fin 2)) : Prop where
  mux : ∃ holder p, Held s.mux holder p ∧
    (s.slaveTranslator.waitrequestResetOverride = true → holder = none)
  fifo : Holds s.rspFifo (reader.toList.map readBy)
  late : s.slaveTranslator.readLatencyShiftReg = reader.isSome

/-- Whose read a request leaves at the output. -/
def reads (e : Fin 2 × MemoryRequest) : Option (Fin 2) := if e.2.read then some e.1 else none

namespace Flowing

variable {s : SharedMemory σ} {reader : Option (Fin 2)}

/-- Out of reset nothing is under way. -/
theorem reset (ram : σ) : Flowing (SharedMemory.reset ram) none where
  mux := ⟨none, 0, Held.reset, fun _ => rfl⟩
  fifo := Holds.reset 0 _
  late := rfl

/-! ## The response -/

/-- The FIFO never holds more than the one read. -/
theorem length_le (reader : Option (Fin 2)) : (reader.toList.map readBy).length ≤ 1 := by
  cases reader with
  | none => exact Nat.zero_le 1
  | some k => exact Nat.le_refl 1

/-- The response FIFO always has room. -/
theorem inReady (h : Flowing s reader) : s.rspFifo.inReady = true := by
  rw [h.fifo.inReady_eq, decide_eq_true_iff]
  have hle := length_le reader
  omega

/-- The output of the FIFO while a read stands. -/
theorem outPayload_some {k : Fin 2} (h : Flowing s (some k)) :
    s.rspFifo.outPayload = readBy k :=
  Option.some.inj (h.fifo.head?_eq h.fifo.outValid_eq).symm

/-- The response to a read goes to its master and nobody else. -/
theorem response_some {k : Fin 2} (h : Flowing s (some k)) (q : σ → BitVec 32) (i : Fin 2) :
    s.response q i = ⟨decide (k = i), q s.ram, false⟩ := by
  unfold SharedMemory.response SharedMemory.rp SharedMemory.rpChannel SlaveAgent.rp
  rw [h.outPayload_some, h.late]
  show Response.mk ((idChannel (masterId k)).getLsbD i.val && true) _ _ = _
  rw [idChannel_masterId, Bool.and_true]
  rfl

/-- While no read stands, no master is answered. -/
theorem response_none (h : Flowing s none) (q : σ → BitVec 32) (i : Fin 2) :
    (s.response q i).valid = false := by
  unfold SharedMemory.response SharedMemory.rp SlaveAgent.rp
  rw [h.late, h.fifo.outValid_eq]
  exact Bool.and_false _

/-- A response is taken in the cycle it stands. -/
theorem outReady_some {k : Fin 2} (h : Flowing s (some k)) (c : Fin 2 → UavCycle) :
    (s.rfOffer c q).outReady = true := by
  have hready : s.rpReady q = true := by
    unfold SharedMemory.rpReady SharedMemory.rpChannel
    rw [List.any_eq_true]
    refine ⟨k, List.mem_finRange _, ?_⟩
    rw [h.outPayload_some, h.response_some]
    show ((idChannel (masterId k)).getLsbD k.val && decide (k = k)) = true
    rw [idChannel_masterId, decide_eq_true rfl]
    rfl
  unfold SharedMemory.rfOffer SlaveAgent.rfSinkReady
  rw [h.fifo.outValid_eq, h.late, hready]
  rfl

/-- The FIFO holds after an edge what it is offered before it. -/
theorem rspFifo_step (h : Flowing s reader) (q : σ → BitVec 32) (c : Fin 2 → UavCycle) :
    Holds (s.rspFifo.step (s.rfOffer c q))
      (if (s.rfOffer c q).inValid then [(s.rfOffer c q).inPayload] else []) := by
  have hstep := h.fifo.step (s.rfOffer c q)
  have hgone : (if BoundedQueue.gives (reader.toList.map readBy) (s.rfOffer c q) then
      (reader.toList.map readBy).tail else reader.toList.map readBy) = [] := by
    cases reader with
    | none => exact ite_self _
    | some k =>
      rw [BoundedQueue.gives, h.outReady_some]
      rfl
  have htakes : BoundedQueue.takes 2 (reader.toList.map readBy) (s.rfOffer c q) =
      (s.rfOffer c q).inValid := by
    have hle := length_le reader
    rw [BoundedQueue.takes, decide_eq_true (by omega), Bool.and_true]
  rw [BoundedQueue.step_eq, BoundedQueue.taken, hgone, htakes, List.nil_append] at hstep
  exact hstep

/-! ## One edge -/

/-- The requests that pass are the beats that do. -/
theorem passed_eq_beats (s : SharedMemory σ) (c : Fin 2 → UavCycle) :
    passed s c = (beats s.mux (s.muxCycle c)).map fun b => (b.1, memoryRequest (c b.1)) := by
  unfold passed beats
  rw [List.map_map]
  rfl

/-- Out of the first cycle after reset the slave agent is ready. -/
theorem srcReady (h : Flowing s reader) (hup : s.slaveTranslator.waitrequestResetOverride = false)
    (c : Fin 2 → UavCycle) : (s.muxCycle c).srcReady = true := by
  unfold SharedMemory.muxCycle SlaveAgent.cpReady SlaveTranslator.uavWaitrequest
  rw [hup, h.inReady]
  rfl

/-- **What a cycle can do.**  Either nothing passes and the slave agent is shown no packet, or
one request does, and its packet is at the slave agent, out of the first cycle after reset. -/
theorem front (h : Flowing s reader) (c : Fin 2 → UavCycle) :
    (passed s c = [] ∧ s.cpValid c = false) ∨
      ∃ k, passed s c = [(k, memoryRequest (c k))] ∧ s.cpValid c = true ∧
        s.cpData c = cpWord k (c k) ∧ s.slaveTranslator.waitrequestResetOverride = false := by
  obtain ⟨holder, p, hheld, hreset⟩ := h.mux
  cases holder with
  | none =>
    left
    rw [passed_eq_beats, hheld.beats_none]
    exact ⟨rfl, hheld.srcValid_none _⟩
  | some k =>
    have hup : s.slaveTranslator.waitrequestResetOverride = false := by
      rw [← Bool.not_eq_true]
      intro hup
      cases hreset hup
    have hcp : s.cpValid c = (memorySink k (c k)).valid := hheld.srcValid_some (s.muxCycle c)
    have hbeats : beats s.mux (s.muxCycle c) =
        if (memorySink k (c k)).valid then [(k, memorySink k (c k))] else [] := by
      rw [hheld.beats_some, h.srcReady hup, Bool.and_true]
      rfl
    cases hvalid : (memorySink k (c k)).valid with
    | false =>
      left
      rw [passed_eq_beats, hbeats, hvalid]
      exact ⟨rfl, hcp.trans hvalid⟩
    | true =>
      right
      rw [passed_eq_beats, hbeats, hvalid]
      refine ⟨k, rfl, hcp.trans hvalid, ?_, hup⟩
      unfold SharedMemory.cpData
      rw [hheld.srcPayload_some, data_payload]
      rfl

/-- Without a packet the memory sees no strobe and the FIFO no entry. -/
theorem strobes_idle {c : Fin 2 → UavCycle} (hvalid : s.cpValid c = false) :
    s.m0Read c = false ∧ (s.ramCycle c).wren = false ∧ (s.rfOffer c q).inValid = false := by
  have hwrite : s.m0Write c = false := by
    unfold SharedMemory.m0Write SlaveAgent.m0Write
    rw [hvalid, Bool.false_and, Bool.and_false]
  refine ⟨?_, ?_, ?_⟩
  · unfold SharedMemory.m0Read SlaveAgent.m0Read
    rw [hvalid, Bool.false_and, Bool.and_false]
  · unfold SharedMemory.ramCycle OnchipMemory.ramCycle
    rw [hwrite, Bool.and_false]
  · unfold SharedMemory.rfOffer SlaveAgent.rfSourceValid SlaveAgent.nonpostedWriteEndofpacket
    rw [hvalid]
    simp only [Bool.false_and, Bool.and_false, Bool.or_false]

section Passing

variable (h : Flowing s reader) {c : Fin 2 → UavCycle} {k : Fin 2} (hvalid : s.cpValid c = true)
  (hword : s.cpData c = cpWord k (c k))

include h hvalid hword

/-- The memory sees the strobes of the request that passes. -/
theorem strobes_passing : s.m0Read c = (c k).read ∧ s.m0Write c = (c k).write := by
  unfold SharedMemory.m0Read SharedMemory.m0Write SlaveAgent.m0Read SlaveAgent.m0Write
  rw [hvalid, hword, ofWord_cpWord, h.inReady]
  exact ⟨rfl, rfl⟩

/-- The memory is shown the request that passes. -/
theorem ramCycle_passing :
    s.ramCycle c = ⟨(memoryRequest (c k)).address, (c k).byteenable, (c k).writedata,
      (c k).write⟩ := by
  obtain ⟨hread, hwrite⟩ := strobes_passing h hvalid hword
  have haddr : (SlaveAgent.m0Address (CommandPacket.ofWord (s.cpData c))).extractLsb' 2 13 =
      (c k).address.extractLsb' 2 13 := by
    rw [hword, ofWord_cpWord]
    exact wordAddress_align (c k).address (by decide)
  have hwren : (((c k).read || (c k).write) && (c k).write) = (c k).write := by
    cases (c k).read <;> cases (c k).write <;> rfl
  unfold SharedMemory.ramCycle OnchipMemory.ramCycle
  rw [haddr, hread, hwrite, hwren, hword, ofWord_cpWord]
  rfl

/-- A read, and nothing else, puts its master's number into the FIFO. -/
theorem rfOffer_passing (hup : s.slaveTranslator.waitrequestResetOverride = false)
    (hexclusive : Exclusive c) :
    (s.rfOffer c q).inValid = (c k).read ∧
      ((c k).read = true → (s.rfOffer c q).inPayload = readBy k) := by
  unfold SharedMemory.rfOffer SlaveAgent.rfSourceValid SlaveAgent.nonpostedWriteEndofpacket
    SlaveAgent.rfSourceData SlaveAgent.cpReady SlaveTranslator.uavWaitrequest
  rw [hvalid, hword, ofWord_cpWord, srcId_cpWord, h.inReady, hup]
  constructor
  · show ((true && (c k).read || (!(c k).write && (true && (c k).write))) && true &&
      (!false && true)) = (c k).read
    cases (c k).write <;> cases (c k).read <;> rfl
  · intro hread
    have hwrite : (c k).write = false := write_false_of_read (hexclusive k) hread
    unfold readBy SlaveAgent.nonpostedWriteEndofpacket
    show RfWord.mk ⟨!(c k).write && (true && (c k).write), (c k).write⟩ _ = _
    rw [hwrite]
    rfl

end Passing

/-- **One edge.**  A read that passes stands at the output after it, and nothing else does. -/
theorem step (h : Flowing s reader) {c : Fin 2 → UavCycle} (hexclusive : Exclusive c) :
    Flowing (s.step c q ramStep) ((passed s c).head?.bind reads) := by
  obtain ⟨holder, p, hheld, -⟩ := h.mux
  have hmux : ∃ holder p, Held (s.step c q ramStep).mux holder p ∧
      ((s.step c q ramStep).slaveTranslator.waitrequestResetOverride = true → holder = none) :=
    ⟨_, _, hheld.step (s.muxCycle c), fun hup => nomatch hup⟩
  have hlate : (s.step c q ramStep).slaveTranslator.readLatencyShiftReg =
      (s.m0Read c && !s.slaveTranslator.waitrequestResetOverride &&
        !s.slaveTranslator.waitrequestResetOverride) := rfl
  have hfifo := h.rspFifo_step q c
  rcases h.front c with ⟨hpassed, hvalid⟩ | ⟨k, hpassed, hvalid, hword, hup⟩
  · obtain ⟨hread, -, hoffer⟩ := strobes_idle (q := q) hvalid
    rw [hoffer] at hfifo
    rw [hpassed]
    refine ⟨hmux, hfifo, ?_⟩
    rw [hlate, hread]
    rfl
  · obtain ⟨hread, -⟩ := strobes_passing h hvalid hword
    obtain ⟨hoffer, hentry⟩ := rfOffer_passing (q := q) h hvalid hword hup hexclusive
    rw [hpassed]
    show Flowing _ (reads (k, memoryRequest (c k)))
    unfold reads memoryRequest
    rw [hoffer] at hfifo
    cases hasks : (c k).read with
    | false =>
      rw [hasks] at hfifo
      refine ⟨hmux, hfifo, ?_⟩
      rw [hlate, hread, hasks]
      rfl
    | true =>
      rw [hasks, if_pos rfl, hentry hasks] at hfifo
      refine ⟨hmux, hfifo, ?_⟩
      rw [hlate, hread, hasks, hup]
      rfl

end Flowing

end Flow

/-! ## One memory -/

section Serving

variable {σ : Type*} {ramStep : σ → RamCycle → σ} {q : σ → BitVec 32}
  {contents : σ → BitVec 13 → BitVec 32}

/-- The memory holds `held`, and `pending` is the read whose word stands at its output. -/
structure Serving (q : σ → BitVec 32) (contents : σ → BitVec 13 → BitVec 32)
    (s : SharedMemory σ) (held : BitVec 13 → BitVec 32) (pending : Option (Fin 2 × BitVec 32)) :
    Prop where
  flowing : Flowing s (pending.map Prod.fst)
  word : ∀ e, pending = some e → q s.ram = e.2
  memory : contents s.ram = held

/-- The read a request leaves pending. -/
def leaves (held : BitVec 13 → BitVec 32) (e : Fin 2 × MemoryRequest) :
    Option (Fin 2 × BitVec 32) :=
  if e.2.read then some (e.1, held e.2.address) else none

/-- The word master `i` is owed. -/
def owes (i : Fin 2) (pending : Option (Fin 2 × BitVec 32)) : List (BitVec 32) :=
  (pending.toList.filter fun e => e.1 = i).map Prod.snd

namespace Serving

variable {s : SharedMemory σ} {held : BitVec 13 → BitVec 32}
  {pending : Option (Fin 2 × BitVec 32)}

/-- Out of reset the memory holds its first contents, and nothing is pending. -/
theorem reset (q : σ → BitVec 32) (contents : σ → BitVec 13 → BitVec 32) (ram : σ) :
    Serving q contents (SharedMemory.reset ram) (contents ram) none where
  flowing := Flowing.reset ram
  word _ h := nomatch h
  memory := rfl

/-- A master is answered with what it is owed. -/
theorem answered_eq (h : Serving q contents s held pending) (i : Fin 2) (c : Fin 2 → UavCycle) :
    answered q i s c = owes i pending := by
  have hflow := h.flowing
  unfold answered owes
  cases pending with
  | none =>
    unfold MasterAgent.avReaddatavalid
    rw [hflow.response_none, ite_self]
    rfl
  | some e =>
    rw [Flowing.response_some (k := e.1) hflow, h.word e rfl]
    show (if decide (e.1 = i) = true then [e.2] else []) = _
    by_cases hi : e.1 = i
    · simp [hi]
    · simp [hi]

/-- The pending read is the one of the request that passed. -/
theorem map_leaves (held : BitVec 13 → BitVec 32) (o : Option (Fin 2 × MemoryRequest)) :
    (o.bind (leaves held)).map Prod.fst = o.bind reads := by
  cases o with
  | none => rfl
  | some e =>
    show (leaves held e).map Prod.fst = reads e
    unfold leaves reads
    split <;> rfl

/-- **One edge.**  The request that passes is served, and the word of a read is pending. -/
theorem step (hram : SinglePort ramStep q contents) (h : Serving q contents s held pending)
    {c : Fin 2 → UavCycle} (hexclusive : Exclusive c) :
    Serving q contents (s.step c q ramStep) (run served held (passed s c))
      ((passed s c).head?.bind (leaves held)) := by
  have hnext : Flowing (s.step c q ramStep) (((passed s c).head?.bind (leaves held)).map Prod.fst) := by
    rw [map_leaves]
    exact h.flowing.step hexclusive
  have hmem : contents (s.step c q ramStep).ram = contents (ramStep s.ram (s.ramCycle c)) := rfl
  rcases h.flowing.front c with ⟨hpassed, hvalid⟩ | ⟨k, hpassed, hvalid, hword, -⟩
  · obtain ⟨-, hwren, -⟩ := Flowing.strobes_idle (q := q) hvalid
    rw [hpassed] at hnext ⊢
    refine ⟨hnext, fun e he => ?_, ?_⟩
    · cases he
    · rw [hmem, hram.write, hwren, if_neg Bool.false_ne_true, h.memory]
      rfl
  · have hcycle := h.flowing.ramCycle_passing hvalid hword
    rw [hpassed] at hnext ⊢
    refine ⟨hnext, fun e he => ?_, ?_⟩
    · have he : leaves held (k, memoryRequest (c k)) = some e := he
      unfold leaves at he
      split at he
      · rename_i hread
        have hwrite : (c k).write = false := write_false_of_read (hexclusive k) hread
        cases he
        show q (ramStep s.ram (s.ramCycle c)) = held (memoryRequest (c k)).address
        rw [hram.read _ _ (by rw [hcycle]; exact hwrite), hcycle, h.memory]
      · cases he
    · rw [hmem, hram.write, hcycle, h.memory]
      rfl

end Serving

/-- The machine answers each master one edge late. -/
theorem answersLate (hram : SinglePort ramStep q contents) (i : Fin 2) :
    AnswersLate (fun s c => SharedMemory.step s c q ramStep) passed (answered q i) served (replied i)
      Exclusive fun s held owed => ∃ pending, Serving q contents s held pending ∧
        owed = owes i pending := by
  rintro s held owed c hexclusive ⟨pending, h, rfl⟩
  refine ⟨h.answered_eq i c, _, h.step hram hexclusive, ?_⟩
  rcases h.flowing.front c with ⟨hpassed, -⟩ | ⟨k, hpassed, -⟩
  · rw [hpassed]
    rfl
  · rw [hpassed]
    show replied i held (k, memoryRequest (c k)) ++ [] = owes i (leaves held (k, memoryRequest (c k)))
    unfold replied leaves owes
    cases (memoryRequest (c k)).read with
    | false => rfl
    | true =>
      by_cases hi : k = i
      · simp [hi]
      · simp [hi]

/-- **The masters see one memory.**  Two masters on one memory: in every run from reset on, with
any requests of both in any cycles, at most one request passes in a cycle; the memory holds
what serving the requests one after another in the order they pass makes of its first
contents; and what each master is answered, in order, is what its own reads return in that
order, each in the cycle after it passed.
RTL: system/synthesis/submodules/system_cmd_xbar_mux.sv:105-301,
system/synthesis/submodules/altera_merlin_slave_agent.sv:226-557,
system/synthesis/submodules/altera_merlin_slave_translator.sv:201-439,
system/synthesis/submodules/system_id_router.sv:177-195,
system/synthesis/submodules/system_rsp_xbar_demux.sv:89-112 -/
theorem shared_memory_serial (ramStep : σ → RamCycle → σ) (q : σ → BitVec 32)
    (contents : σ → BitVec 13 → BitVec 32) (hram : SinglePort ramStep q contents) (ram : σ)
    (input : ℕ → Fin 2 → UavCycle) (hexclusive : ∀ t, Exclusive (input t)) (t : ℕ) :
    let step := fun (s : SharedMemory σ) c => s.step c q ramStep
    let log := emitted step passed (SharedMemory.reset ram) input t
    (passed (trace step (SharedMemory.reset ram) input t) (input t)).length ≤ 1 ∧
      contents (trace step (SharedMemory.reset ram) input t).ram = run served (contents ram) log ∧
      ∀ i, emitted step (answered q i) (SharedMemory.reset ram) input (t + 1) =
        runLog served (replied i) (contents ram) log := by
  intro step log
  have hstart : ∀ i, ∃ pending, Serving q contents (SharedMemory.reset ram) (contents ram) pending ∧
      [] = owes i pending := fun i => ⟨none, Serving.reset q contents ram, rfl⟩
  refine ⟨?_, ?_, fun i => ?_⟩
  · obtain ⟨_, _, hserving, _⟩ := (answersLate hram 0).served (hstart 0) hexclusive t
    rcases hserving.flowing.front (input t) with ⟨hpassed, -⟩ | ⟨k, hpassed, -⟩
    · rw [hpassed]
      exact Nat.zero_le 1
    · rw [hpassed]
      exact Nat.le_refl 1
  · obtain ⟨_, _, hserving, _⟩ := (answersLate hram 0).served (hstart 0) hexclusive t
    exact hserving.memory
  · have hlate := (answersLate hram i).answered (hstart i) hexclusive t
    rwa [List.nil_append] at hlate

/-- A memory block: the words, and the one at the output. -/
def blockStep (m : (BitVec 13 → BitVec 32) × BitVec 32) (r : RamCycle) :
    (BitVec 13 → BitVec 32) × BitVec 32 :=
  let words := if r.wren then Function.update m.1 r.address (merged r.byteena r.data (m.1 r.address))
    else m.1
  (words, words r.address)

/-- The block behaves as documented. -/
theorem singlePort_block : SinglePort blockStep Prod.snd Prod.fst where
  write _ _ := rfl
  read m r hwren := by
    unfold blockStep
    rw [hwren]
    rfl

/-- The instruction master reads a word without end; the data master stores its low half. -/
def fetchAndStore (_ : ℕ) (i : Fin 2) : UavCycle :=
  if i.val = 0 then ⟨⟨0x18004#18, 0xF#4, true, false, 0#32⟩, false⟩
  else ⟨⟨0x18004#18, 0x3#4, false, true, 0xCAFECAFE#32⟩, false⟩

/-- Neither master asks for both at once. -/
theorem fetchAndStore_exclusive (t : ℕ) : Exclusive (fetchAndStore t)
  | 0 => fun h => nomatch h
  | 1 => fun _ => rfl

/-- The first fetch is answered with the old word, the second one with the stored half. -/
theorem shared_memory_serial_store :
    emitted (fun s c => SharedMemory.step s c Prod.snd blockStep) (answered Prod.snd 0)
      (SharedMemory.reset (fun _ => 0x11111111#32, 0#32)) fetchAndStore 5 =
        [0x11111111#32, 0x1111CAFE#32] :=
  ((shared_memory_serial blockStep Prod.snd Prod.fst singlePort_block
    (fun _ => 0x11111111#32, 0#32) fetchAndStore fetchAndStore_exclusive 4).2.2 0).trans (by decide)

end Serving

/-! ## No master waits long -/

section Waiting

variable {σ : Type*} {ramStep : σ → RamCycle → σ} {q : σ → BitVec 32} {s : SharedMemory σ}
  {i : Fin 2} {c c' : Fin 2 → UavCycle}

/-- Who holds the multiplexer in a cycle: a packet in progress is one its master still offers. -/
structure Turn (s : SharedMemory σ) (c : Fin 2 → UavCycle) (holder : Option (Fin 2)) (p : Fin 2) :
    Prop where
  held : Held s.mux holder p
  reset : s.slaveTranslator.waitrequestResetOverride = true → holder = none
  offered : Offered s.mux holder (s.muxCycle c)

/-- The masters send packets of one beat without a lock. -/
theorem singleBeats_muxCycle (s : SharedMemory σ) (c : Fin 2 → UavCycle) :
    SingleBeats (s.muxCycle c) := fun k _ => ⟨rfl, lock_memorySink k (c k)⟩

/-- What is offered to a sink that is ready passes. -/
theorem mem_passed (hvalid : (memorySink i (c i)).valid = true)
    (hready : s.mux.sinkReady (s.muxCycle c) i = true) : (i, memoryRequest (c i)) ∈ passed s c := by
  unfold passed
  refine List.mem_map.mpr ⟨i, List.mem_filter.mpr ⟨List.mem_finRange i, ?_⟩, rfl⟩
  rw [hvalid, hready]
  rfl

namespace Turn

variable {holder : Option (Fin 2)} {p : Fin 2}

/-- Out of reset it is nobody's turn. -/
theorem start (ram : σ) (c : Fin 2 → UavCycle) : Turn (SharedMemory.reset ram) c none 0 where
  held := Held.reset
  reset _ := rfl
  offered h := nomatch h

/-- One edge, when every request that waits stands. -/
theorem step (h : Turn s c holder p)
    (hholds : ∀ k, (memorySink k (c k)).valid = true →
      s.mux.sinkReady (s.muxCycle c) k = false → c' k = c k) :
    Turn (s.step c q ramStep) c'
      (if s.mux.updateGrant (s.muxCycle c) then serve p (s.mux.request (s.muxCycle c)) else holder)
      (Round.step p ⟨s.mux.request (s.muxCycle c), s.mux.updateGrant (s.muxCycle c)⟩) where
  held := h.held.step (s.muxCycle c)
  reset hup := nomatch hup
  offered := by
    refine offered_step h.held (singleBeats_muxCycle s c) h.offered fun k hvalid hwaits => ?_
    have hvalid : (memorySink k (c k)).valid = true := hvalid
    show (memorySink k (c' k)).valid = true
    rw [hholds k hvalid hwaits, hvalid]

/-- A cycle in which `i` waits brings its turn nearer: the multiplexer is free, or the memory is
ready for the other master. -/
theorem nearer {reader : Option (Fin 2)} (h : Turn s c holder p) (hflow : Flowing s reader)
    (hvalid : (memorySink i (c i)).valid = true)
    (hwaits : s.mux.sinkReady (s.muxCycle c) i = false) :
    readyCycles i (if s.mux.updateGrant (s.muxCycle c) then serve p (s.mux.request (s.muxCycle c))
      else holder) < readyCycles i holder := by
  cases holder with
  | none =>
    obtain ⟨w, hw⟩ := serve_isSome (p := p) (request_of_valid s.mux (c := s.muxCycle c) hvalid)
    have hupdate : s.mux.updateGrant (s.muxCycle c) = true := by
      rw [h.held.updateGrant_eq, h.held.srcValid_none, h.held.idle rfl]
      rfl
    rw [hupdate, if_pos rfl, hw]
    exact Nat.lt_succ_of_le (readyCycles_some_le i w)
  | some k =>
    have hup : s.slaveTranslator.waitrequestResetOverride = false := by
      rw [← Bool.not_eq_true]
      intro hup
      cases h.reset hup
    have hstep := readyCycles_step h.held (singleBeats_muxCycle s c) h.offered hvalid hwaits
    rw [hflow.srcReady hup, if_pos rfl] at hstep
    omega

end Turn

section Run

variable {ram : σ} {input : ℕ → Fin 2 → UavCycle} (hexclusive : ∀ t, Exclusive (input t))

/-- The run from reset on. -/
abbrev sharedTrace (ramStep : σ → RamCycle → σ) (q : σ → BitVec 32) (ram : σ)
    (input : ℕ → Fin 2 → UavCycle) (t : ℕ) : SharedMemory σ :=
  trace (fun s c => SharedMemory.step s c q ramStep) (SharedMemory.reset ram) input t

/-- Somebody or nobody has the turn at any time of a run. -/
theorem turn_trace
    (hstands : Standing (fun s c => SharedMemory.step s c q ramStep) (SharedMemory.reset ram) input)
    (t : ℕ) : ∃ holder p, Turn (sharedTrace ramStep q ram input t) (input t) holder p := by
  induction t with
  | zero => exact ⟨none, 0, Turn.start ram (input 0)⟩
  | succ t ih =>
    obtain ⟨_, _, hturn⟩ := ih
    exact ⟨_, _, hturn.step (hstands t)⟩

include hexclusive

/-- The read at the output at any time of a run. -/
theorem flowing_trace (t : ℕ) : ∃ reader, Flowing (sharedTrace ramStep q ram input t) reader := by
  induction t with
  | zero => exact ⟨none, Flowing.reset ram⟩
  | succ t ih =>
    obtain ⟨_, hflow⟩ := ih
    exact ⟨_, hflow.step (hexclusive t)⟩

variable (hstands : Standing (fun s c => SharedMemory.step s c q ramStep) (SharedMemory.reset ram)
  input)

include hstands

/-- A request passes by its turn: the induction is on the cycles before it. -/
theorem passes_within {t : ℕ} {holder : Option (Fin 2)} {p : Fin 2}
    (h : Turn (sharedTrace ramStep q ram input t) (input t) holder p) {n : ℕ}
    (hn : readyCycles i holder ≤ n) (hvalid : (memorySink i (input t i)).valid = true) :
    ∃ u ≤ n, (i, memoryRequest (input t i)) ∈
      passed (sharedTrace ramStep q ram input (t + u)) (input (t + u)) := by
  induction n generalizing t holder p with
  | zero =>
    cases hready : (sharedTrace ramStep q ram input t).mux.sinkReady
        ((sharedTrace ramStep q ram input t).muxCycle (input t)) i with
    | true => exact ⟨0, Nat.le_refl 0, mem_passed hvalid hready⟩
    | false =>
      obtain ⟨_, hflow⟩ : ∃ reader, Flowing (sharedTrace ramStep q ram input t) reader :=
        flowing_trace hexclusive t
      have hnear := h.nearer hflow hvalid hready
      omega
  | succ n ih =>
    cases hready : (sharedTrace ramStep q ram input t).mux.sinkReady
        ((sharedTrace ramStep q ram input t).muxCycle (input t)) i with
    | true => exact ⟨0, Nat.zero_le _, mem_passed hvalid hready⟩
    | false =>
      obtain ⟨_, hflow⟩ : ∃ reader, Flowing (sharedTrace ramStep q ram input t) reader :=
        flowing_trace hexclusive t
      have hnear := h.nearer hflow hvalid hready
      have hsame := hstands t i hvalid hready
      obtain ⟨u, hu, hmem⟩ := ih (t := t + 1) (h.step (hstands t)) (by omega)
        (by rw [hsame, hvalid])
      refine ⟨u + 1, Nat.succ_le_succ hu, ?_⟩
      rwa [hsame, Nat.add_right_comm] at hmem

end Run

/-- **No master waits long.**  When both masters hold their requests until they pass, a request
that is offered in any cycle of any run passes in that cycle or one of the next two, whatever
the other master asks, and a read is answered in the cycle after it passes.
RTL: system/synthesis/submodules/system_cmd_xbar_mux.sv:105-301,
system/synthesis/submodules/altera_merlin_slave_agent.sv:226-557,
system/synthesis/submodules/system_rsp_xbar_demux.sv:89-112 -/
theorem shared_memory_answers (ramStep : σ → RamCycle → σ) (q : σ → BitVec 32) (ram : σ)
    (input : ℕ → Fin 2 → UavCycle) (hexclusive : ∀ t, Exclusive (input t))
    (hstands : Standing (fun s c => SharedMemory.step s c q ramStep) (SharedMemory.reset ram) input)
    (t : ℕ) (i : Fin 2) (hvalid : (memorySink i (input t i)).valid = true) :
    ∃ u ≤ 2, (i, memoryRequest (input t i)) ∈
        passed (sharedTrace ramStep q ram input (t + u)) (input (t + u)) ∧
      ((input t i).read = true →
        answered q i (sharedTrace ramStep q ram input (t + u + 1)) (input (t + u + 1)) =
          [q (sharedTrace ramStep q ram input (t + u + 1)).ram]) := by
  obtain ⟨holder, p, hturn⟩ :=
    turn_trace hstands t
  have hle : readyCycles i holder ≤ 2 := by
    cases holder with
    | none => exact Nat.le_refl 2
    | some k => exact Nat.le_succ_of_le (readyCycles_some_le i k)
  obtain ⟨u, hu, hmem⟩ := passes_within hexclusive hstands hturn hle hvalid
  refine ⟨u, hu, hmem, fun hread => ?_⟩
  obtain ⟨_, hflow⟩ : ∃ reader, Flowing (sharedTrace ramStep q ram input (t + u)) reader :=
    flowing_trace hexclusive (t + u)
  have hnext : Flowing (sharedTrace ramStep q ram input (t + u + 1)) (some i) := by
    have hstep : Flowing (sharedTrace ramStep q ram input (t + u + 1)) _ :=
      hflow.step (hexclusive (t + u))
    rcases hflow.front (input (t + u)) with ⟨hpassed, -⟩ | ⟨k, hpassed, -⟩
    · rw [hpassed] at hmem
      exact absurd hmem List.not_mem_nil
    · rw [hpassed] at hmem
      rw [hpassed, ← List.mem_singleton.mp hmem] at hstep
      have hreads : reads (i, memoryRequest (input t i)) = some i := if_pos hread
      exact hreads ▸ hstep
  unfold answered MasterAgent.avReaddatavalid
  rw [hnext.response_some, decide_eq_true rfl]
  rfl

/-- The second fetch waits for the store, and is answered. -/
theorem shared_memory_answers_fetch :
    ∃ u ≤ 2, ((0 : Fin 2), memoryRequest (fetchAndStore 2 0)) ∈
        passed (sharedTrace blockStep Prod.snd (fun _ => 0x11111111#32, 0#32) fetchAndStore (2 + u))
          (fetchAndStore (2 + u)) ∧
      answered Prod.snd 0 (sharedTrace blockStep Prod.snd (fun _ => 0x11111111#32, 0#32)
          fetchAndStore (2 + u + 1)) (fetchAndStore (2 + u + 1)) =
        [(sharedTrace blockStep Prod.snd (fun _ => 0x11111111#32, 0#32) fetchAndStore
          (2 + u + 1)).ram.2] := by
  obtain ⟨u, hu, hmem, hread⟩ := shared_memory_answers blockStep Prod.snd
    (fun _ => 0x11111111#32, 0#32) fetchAndStore fetchAndStore_exclusive (fun _ _ _ _ => rfl) 2 0
    (by decide)
  exact ⟨u, hu, hmem, hread rfl⟩

end Waiting

end MatrixAccelerator.Analysis
