import MatrixAccelerator.Model.CmdXbarMux
import MatrixAccelerator.Model.Interconnect

/-!
# The on-chip memory behind both masters

The instruction master and the data master of the processor share the on-chip memory: their
agents' packets meet in `cmd_xbar_mux_001`, and the memory's slave agent sends every response
back by the master's number in the response FIFO, over `id_router_001` and
`rsp_xbar_demux_001`.  Sink 0 is the instruction master, sink 1 the data master.  The memory
block itself, an `altsyncram`, is a parameter.
-/

set_option autoImplicit false

namespace MatrixAccelerator.Model

open MatrixAccelerator.Library

/-- What the agent of one master is shown in one cycle, behind its translator. -/
structure UavCycle extends AvmCycle where
  debugaccess : Bool
deriving DecidableEq

/-! ## The packets -/

/-- The parameter `ID` of the two master agents. -/
def masterId (i : Fin 2) : BitVec 2 := if i.val = 0 then 1#2 else 0#2

/-- The parameter `BURSTWRAP_VALUE` of the two master agents. -/
def burstwrapValue (i : Fin 2) : BitVec 3 := if i.val = 0 then 3#3 else 7#3

/-- The destination of a slave in the address routers. -/
def Slave.destId : Slave → BitVec 2
  | jtagDebugModule => 2#2
  | onchipMemory => 3#2
  | jtagUart => 0#2
  | matrixAccel => 1#2

/-- `src_channel` of `system_addr_router`, which the accelerator is not connected to.
RTL: system/synthesis/submodules/system_addr_router.sv:47-50, 180-206 -/
def srcChannel0 (address : BitVec 18) : Slave :=
  let channel := Slave.onchipMemory
  let channel := if inSpan 15 0x18000#18 address then Slave.onchipMemory else channel
  let channel := if inSpan 11 0x20800#18 address then Slave.jtagDebugModule else channel
  if inSpan 3 0x21008#18 address then Slave.jtagUart else channel

/-- The channel the address router of one master selects. -/
def routed (i : Fin 2) (address : BitVec 18) : Slave :=
  if i.val = 0 then srcChannel0 address else srcChannel address

/-- `cp_data` of one master agent, with the destination the router sets: no burst, no lock, no
response status.
RTL: system/synthesis/submodules/altera_merlin_master_agent.sv:186-218 -/
def cpWord (i : Fin 2) (uav : UavCycle) : BitVec 89 :=
  let cp := MasterAgent.cpData uav.read uav.write uav.toAvmCycle
  0#2 ++ 0#4 ++ (0#1 ++ 1#1 ++ BitVec.ofBool uav.debugaccess) ++ 0#1 ++
    (routed i cp.addr).destId ++ masterId i ++ 0#4 ++
    (if (burstwrapValue i).getLsbD 2 then 1#2 else 2#2) ++ 2#3 ++ burstwrapValue i ++ 4#3 ++
    0#1 ++ 0#1 ++ BitVec.ofBool cp.transRead ++ BitVec.ofBool cp.transWrite ++
    BitVec.ofBool cp.transPosted ++ 0#1 ++ cp.addr ++ cp.byteen ++ cp.data

/-- The output of one master's demultiplexer that leads to the memory.
RTL: system/synthesis/submodules/system_cmd_xbar_demux.sv:104-109,
system/synthesis/submodules/system_cmd_xbar_demux_001.sv:111-116 -/
def memorySink (i : Fin 2) (uav : UavCycle) : MuxSink where
  valid := decide (routed i (uav.address >>> 2 <<< 2) = Slave.onchipMemory) &&
    MasterAgent.cpValid uav.read uav.write
  data := cpWord i uav
  channel := 0#4
  startofpacket := true
  endofpacket := true

/-- The fields of a packet that the slave agent reads. -/
def CommandPacket.ofWord (word : BitVec 89) : CommandPacket where
  data := word.extractLsb' 0 32
  byteen := word.extractLsb' 32 4
  addr := word.extractLsb' 36 18
  transPosted := word.getLsbD 55
  transWrite := word.getLsbD 56
  transRead := word.getLsbD 57

/-- An entry of the response FIFO, with the number of the master. -/
structure RfWord extends RfEntry where
  srcId : BitVec 2
deriving DecidableEq

/-- `src_channel` of `system_id_router`.
RTL: system/synthesis/submodules/system_id_router.sv:47-50, 177-195 -/
def idChannel (destid : BitVec 2) : BitVec 4 :=
  let channel := 1#4
  let channel := if destid = 1#2 then 0b01#4 else channel
  if destid = 0#2 then 0b10#4 else channel

/-! ## The memory -/

/-- What the ports of the `altsyncram` carry in one cycle; `clocken0` is high out of reset. -/
structure RamCycle where
  address : BitVec 13
  byteena : BitVec 4
  data : BitVec 32
  wren : Bool
deriving DecidableEq

/-- The wires of `system_onchip_memory2_0`. -/
def OnchipMemory.ramCycle (address : BitVec 13) (byteenable : BitVec 4) (chipselect write : Bool)
    (writedata : BitVec 32) : RamCycle :=
  ⟨address, byteenable, writedata, chipselect && write⟩

/-- The registers from the multiplexer to the memory and back. -/
@[ext] structure SharedMemory (σ : Type*) where
  mux : CmdXbarMux
  rspFifo : ScFifo 0 RfWord
  slaveTranslator : SlaveTranslator
  ram : σ

namespace SharedMemory

variable {σ : Type*}

def reset (ram : σ) : SharedMemory σ where
  mux := CmdXbarMux.reset
  rspFifo := ScFifo.reset 0 ⟨⟨false, false⟩, 0#2⟩
  slaveTranslator := SlaveTranslator.reset
  ram := ram

variable (s : SharedMemory σ) (c : Fin 2 → UavCycle)

/-- What the multiplexer is shown. -/
def muxCycle : MuxCycle where
  sink i := memorySink i (c i)
  srcReady := SlaveAgent.cpReady s.slaveTranslator.uavWaitrequest s.rspFifo.inReady

/-- The packet at the slave agent. -/
def cpData : BitVec 89 := (s.mux.srcPayload (s.muxCycle c)).extractLsb' 2 89

/-- `cp_valid` of the slave agent. -/
def cpValid : Bool := s.mux.srcValid (s.muxCycle c)

/-- `m0_read`. -/
def m0Read : Bool :=
  SlaveAgent.m0Read s.rspFifo.inReady (s.cpValid c) (CommandPacket.ofWord (s.cpData c))

/-- `m0_write`. -/
def m0Write : Bool :=
  SlaveAgent.m0Write s.rspFifo.inReady (s.cpValid c) (CommandPacket.ofWord (s.cpData c))

/-- What the memory is shown: `av_chipselect` is either strobe.
RTL: system/synthesis/submodules/altera_merlin_slave_translator.sv:201-209, 264, 324-325, 439 -/
def ramCycle : RamCycle :=
  OnchipMemory.ramCycle
    ((SlaveAgent.m0Address (CommandPacket.ofWord (s.cpData c))).extractLsb' 2 13)
    (CommandPacket.ofWord (s.cpData c)).byteen (s.m0Read c || s.m0Write c) (s.m0Write c)
    (CommandPacket.ofWord (s.cpData c)).data

section Response

variable (q : σ → BitVec 32)

/-- The response of the slave agent. -/
def rp : Response :=
  SlaveAgent.rp s.rspFifo.outValid s.rspFifo.outPayload.toRfEntry
    s.slaveTranslator.readLatencyShiftReg (q s.ram)

/-- The channel the response is sent on; the master's number is its destination.
RTL: system/synthesis/submodules/altera_merlin_slave_agent.sv:524 -/
def rpChannel : BitVec 4 := idChannel s.rspFifo.outPayload.srcId

/-- The output of the response demultiplexer that leads to one master.
RTL: system/synthesis/submodules/system_rsp_xbar_demux.sv:89-104 -/
def response (i : Fin 2) : Response :=
  { s.rp q with valid := (s.rpChannel).getLsbD i.val && (s.rp q).valid }

/-- `rp_ready`: the response multiplexers grant what is valid, and the master agents are
always ready.
RTL: system/synthesis/submodules/system_rsp_xbar_demux.sv:109-112 -/
def rpReady : Bool :=
  (List.finRange 2).any fun i => s.rpChannel.getLsbD i.val && (s.response q i).valid

/-- What the response FIFO is shown. -/
def rfOffer : Offer RfWord where
  inValid := SlaveAgent.rfSourceValid s.slaveTranslator.uavWaitrequest s.rspFifo.inReady
    (s.cpValid c) (CommandPacket.ofWord (s.cpData c))
  inPayload :=
    ⟨SlaveAgent.rfSourceData (s.cpValid c) (CommandPacket.ofWord (s.cpData c)),
      (s.cpData c).extractLsb' 75 2⟩
  outReady := SlaveAgent.rfSinkReady s.rspFifo.outValid s.rspFifo.outPayload.toRfEntry
    s.slaveTranslator.readLatencyShiftReg (s.rpReady q)

/-- One rising edge with `reset` low. -/
def step (ramStep : σ → RamCycle → σ) : SharedMemory σ where
  mux := s.mux.step (s.muxCycle c)
  rspFifo := s.rspFifo.step (s.rfOffer c q)
  slaveTranslator := s.slaveTranslator.step (s.m0Read c)
  ram := ramStep s.ram (s.ramCycle c)

end Response

end SharedMemory

end MatrixAccelerator.Model
