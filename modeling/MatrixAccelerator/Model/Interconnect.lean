import MatrixAccelerator.Model.ScFifo
import MatrixAccelerator.Model.Top

/-!
# The interconnect between the processor and the accelerator

The path of a data access through the generated system: master translator, master agent,
address router and demultiplexer, slave agent with its response FIFO, slave translator, and
the response multiplexer back.  The parameters are those of the instances on this path.  A
packet carries the fields that some component on the path reads.  What stands behind the
other three outputs of the demultiplexer is an input of every cycle, and the slave's core is
a parameter.
-/

set_option autoImplicit false

namespace MatrixAccelerator.Model

open MatrixAccelerator.Library

/-- What the data master of the processor drives in one cycle. -/
structure AvmCycle where
  address : BitVec 18
  byteenable : BitVec 4
  read : Bool
  write : Bool
  writedata : BitVec 32
deriving DecidableEq

/-- A command packet. -/
structure CommandPacket where
  data : BitVec 32
  byteen : BitVec 4
  addr : BitVec 18
  transPosted : Bool
  transWrite : Bool
  transRead : Bool
deriving DecidableEq

/-- An entry of the response FIFO. -/
structure RfEntry where
  needsResponseSynthesis : Bool
  transWrite : Bool
deriving DecidableEq

/-- A response with its valid bit. -/
structure Response where
  valid : Bool
  data : BitVec 32
  transWrite : Bool
deriving DecidableEq

/-- The outputs of the demultiplexer, `src0` to `src3`. -/
inductive Slave
  | jtagDebugModule
  | onchipMemory
  | jtagUart
  | matrixAccel
deriving DecidableEq

/-- What the other three slaves show the data master's leg in one cycle. -/
structure Others where
  src0Ready : Bool
  src1Ready : Bool
  src2Ready : Bool
  sink0 : Response
  sink1 : Response
  sink2 : Response
deriving DecidableEq

/-- The inputs of one cycle. -/
structure FabricCycle where
  av : AvmCycle
  others : Others
deriving DecidableEq

/-! ## The master translator -/

/-- The registers of `altera_merlin_master_translator` that steer a transfer, for
`AV_REGISTERINCOMINGSIGNALS = 1` and `USE_READDATAVALID = 0`. -/
@[ext] structure MasterTranslator where
  readAccepted : Bool
  writeAccepted : Bool
  endBegintransfer : Bool
deriving DecidableEq

namespace MasterTranslator

variable (s : MasterTranslator) (av : AvmCycle)

def reset : MasterTranslator := ⟨false, false, false⟩

/-- `uav_read`.
RTL: system/synthesis/submodules/altera_merlin_master_translator.sv:391-394 -/
def uavRead : Bool := av.read && !s.readAccepted

/-- `uav_write`.
RTL: system/synthesis/submodules/altera_merlin_master_translator.sv:396-399 -/
def uavWrite : Bool := av.write && !s.writeAccepted

/-- `internal_begintransfer`.
RTL: system/synthesis/submodules/altera_merlin_master_translator.sv:414 -/
def internalBegintransfer : Bool := (s.uavWrite av || s.uavRead av) && !s.endBegintransfer

/-- `av_waitrequest`.
RTL: system/synthesis/submodules/altera_merlin_master_translator.sv:347-352 -/
def avWaitrequest (uavWaitrequest uavReaddatavalid : Bool) : Bool :=
  if av.read then !uavReaddatavalid
  else if av.write then
    (s.internalBegintransfer av || uavWaitrequest) && !s.writeAccepted
  else true

/-- One rising edge with `reset` low.
RTL: system/synthesis/submodules/altera_merlin_master_translator.sv:311-338, 418-434 -/
def step (uavWaitrequest uavReaddatavalid : Bool) : MasterTranslator where
  readAccepted :=
    if s.readAccepted then !uavReaddatavalid
    else if s.avWaitrequest av uavWaitrequest uavReaddatavalid then av.read && !uavWaitrequest
    else false
  writeAccepted :=
    if !s.avWaitrequest av uavWaitrequest uavReaddatavalid then false
    else if s.uavWrite av && !uavWaitrequest then true
    else s.writeAccepted
  endBegintransfer :=
    if s.internalBegintransfer av && uavWaitrequest then true
    else if uavWaitrequest then s.endBegintransfer
    else false

end MasterTranslator

/-! ## The master agent -/

/-- The one register of `altera_merlin_master_agent`. -/
@[ext] structure MasterAgent where
  holdWaitrequest : Bool
deriving DecidableEq

namespace MasterAgent

def reset : MasterAgent := ⟨true⟩

/-- `cp_valid`.
RTL: system/synthesis/submodules/altera_merlin_master_agent.sv:238-243 -/
def cpValid (avRead avWrite : Bool) : Bool := avWrite || avRead

/-- `cp_data`; `av_writeresponserequest` is low, so every write is posted.
RTL: system/synthesis/submodules/altera_merlin_master_agent.sv:186-218 -/
def cpData (avRead avWrite : Bool) (av : AvmCycle) : CommandPacket where
  data := av.writedata
  byteen := av.byteenable
  addr := av.address >>> 2 <<< 2
  transPosted := avWrite
  transWrite := avWrite
  transRead := avRead

/-- `av_waitrequest`.
RTL: system/synthesis/submodules/altera_merlin_master_agent.sv:289 -/
def avWaitrequest (s : MasterAgent) (cpReady : Bool) : Bool := s.holdWaitrequest || !cpReady

/-- `av_readdatavalid`.
RTL: system/synthesis/submodules/altera_merlin_master_agent.sv:298-301 -/
def avReaddatavalid (rp : Response) : Bool := if rp.transWrite then false else rp.valid

/-- One rising edge with `reset` low.
RTL: system/synthesis/submodules/altera_merlin_master_agent.sv:278-283 -/
def step (_s : MasterAgent) : MasterAgent := ⟨false⟩

end MasterAgent

/-! ## The address router -/

/-- `address` lies in the span of `2 ^ pad` bytes at `base`. -/
def inSpan (pad : ℕ) (base address : BitVec 18) : Bool := decide (address >>> pad <<< pad = base)

/-- `src_channel` of `system_addr_router_001`: the later decode stands, and an address that
no decode takes goes to the default channel.
RTL: system/synthesis/submodules/system_addr_router_001.sv:47-50, 180-213 -/
def srcChannel (address : BitVec 18) : Slave :=
  let channel := Slave.matrixAccel
  let channel := if inSpan 16 0x0#18 address then Slave.matrixAccel else channel
  let channel := if inSpan 15 0x18000#18 address then Slave.onchipMemory else channel
  let channel := if inSpan 11 0x20800#18 address then Slave.jtagDebugModule else channel
  if inSpan 3 0x21008#18 address then Slave.jtagUart else channel

/-! ## The slave agent -/

namespace SlaveAgent

/-- `cp_ready`, for `PREVENT_FIFO_OVERFLOW = 1` and `SUPPRESS_0_BYTEEN_CMD = 0`.
RTL: system/synthesis/submodules/altera_merlin_slave_agent.sv:258-259, 275 -/
def cpReady (m0Waitrequest rfSourceReady : Bool) : Bool := !m0Waitrequest && rfSourceReady

/-- `m0_address`.
RTL: system/synthesis/submodules/altera_merlin_slave_agent.sv:298 -/
def m0Address (cp : CommandPacket) : BitVec 18 := cp.addr >>> 2 <<< 2

/-- `m0_read`.
RTL: system/synthesis/submodules/altera_merlin_slave_agent.sv:227, 321-322 -/
def m0Read (rfSourceReady cpValid : Bool) (cp : CommandPacket) : Bool :=
  rfSourceReady && (cpValid && cp.transRead)

/-- `m0_write`.
RTL: system/synthesis/submodules/altera_merlin_slave_agent.sv:226, 343 -/
def m0Write (rfSourceReady cpValid : Bool) (cp : CommandPacket) : Bool :=
  rfSourceReady && (cpValid && cp.transWrite)

/-- `nonposted_write_endofpacket`; every packet is one beat.
RTL: system/synthesis/submodules/altera_merlin_slave_agent.sv:229 -/
def nonpostedWriteEndofpacket (cpValid : Bool) (cp : CommandPacket) : Bool :=
  !cp.transPosted && (cpValid && cp.transWrite)

/-- `rf_source_valid`, for `USE_WRITERESPONSE = 0`.
RTL: system/synthesis/submodules/altera_merlin_slave_agent.sv:393-394 -/
def rfSourceValid (m0Waitrequest rfSourceReady cpValid : Bool) (cp : CommandPacket) : Bool :=
  (cpValid && cp.transRead || nonpostedWriteEndofpacket cpValid cp) && rfSourceReady &&
    cpReady m0Waitrequest rfSourceReady

/-- `rf_source_data`.
RTL: system/synthesis/submodules/altera_merlin_slave_agent.sv:376, 397-417 -/
def rfSourceData (cpValid : Bool) (cp : CommandPacket) : RfEntry where
  needsResponseSynthesis := nonpostedWriteEndofpacket cpValid cp
  transWrite := cp.transWrite

/-- `rp_valid` and the fields of `rp_data` the master agent reads.
RTL: system/synthesis/submodules/altera_merlin_slave_agent.sv:438, 492, 519-522, 557 -/
def rp (rfSinkValid : Bool) (rfSinkData : RfEntry) (m0Readdatavalid : Bool)
    (m0Readdata : BitVec 32) : Response where
  valid := m0Readdatavalid ||
    (rfSinkValid && (m0Readdatavalid || rfSinkData.needsResponseSynthesis))
  data := m0Readdata
  transWrite := rfSinkData.transWrite

/-- `rf_sink_ready`: the uncompressor passes a response of one beat through.
RTL: system/synthesis/submodules/altera_merlin_burst_uncompressor.sv:161, 166, 279 -/
def rfSinkReady (rfSinkValid : Bool) (rfSinkData : RfEntry) (m0Readdatavalid rpReady : Bool) :
    Bool :=
  rfSinkValid && (m0Readdatavalid || rfSinkData.needsResponseSynthesis) && rpReady

end SlaveAgent

/-! ## The slave translator -/

/-- The registers of `altera_merlin_slave_translator` that steer a transfer, for
`USE_WAITREQUEST = 0`, no wait cycles and `AV_READLATENCY = 1`. -/
@[ext] structure SlaveTranslator where
  waitrequestResetOverride : Bool
  readLatencyShiftReg : Bool
deriving DecidableEq

namespace SlaveTranslator

def reset : SlaveTranslator := ⟨true, false⟩

/-- `uav_waitrequest`; `av_waitrequest_generated` is 0 as `LOG2_OF_LATENCY_SUM` is 1.
RTL: system/synthesis/submodules/altera_merlin_slave_translator.sv:330-331, 352 -/
def uavWaitrequest (s : SlaveTranslator) : Bool := s.waitrequestResetOverride

/-- The Avalon side: the word address, both strobes and the data, unqualified.
RTL: system/synthesis/submodules/altera_merlin_slave_translator.sv:206-209, 264, 324-325 -/
def av (uavAddress : BitVec 18) (uavRead uavWrite : Bool) (uavWritedata : BitVec 32) :
    AvsCycle :=
  ⟨uavAddress.extractLsb' 2 14, uavWrite, uavWritedata, uavRead⟩

/-- One rising edge with `reset` low.
RTL: system/synthesis/submodules/altera_merlin_slave_translator.sv:300-307, 414-420 -/
def step (s : SlaveTranslator) (uavRead : Bool) : SlaveTranslator where
  waitrequestResetOverride := false
  readLatencyShiftReg := uavRead && !s.uavWaitrequest && !s.waitrequestResetOverride

end SlaveTranslator

/-! ## The response multiplexer -/

namespace Response

/-- The payload under its grant, which is the valid bit.
RTL: system/synthesis/submodules/altera_merlin_arbitrator.sv:172-177 -/
def granted (r : Response) : Response := if r.valid then r else ⟨false, 0#32, false⟩

/-- `system_rsp_xbar_mux_001`, a sum of products.
RTL: system/synthesis/submodules/system_rsp_xbar_mux_001.sv:343-351 -/
def mux (sink0 sink1 sink2 sink3 : Response) : Response where
  valid := sink0.valid || sink1.valid || sink2.valid || sink3.valid
  data := sink0.granted.data ||| sink1.granted.data ||| sink2.granted.data |||
    sink3.granted.data
  transWrite := sink0.granted.transWrite || sink1.granted.transWrite ||
    sink2.granted.transWrite || sink3.granted.transWrite

end Response

/-! ## The path -/

/-- The registers of the path; the response FIFO has two words. -/
@[ext] structure Interconnect where
  translator : MasterTranslator
  agent : MasterAgent
  rspFifo : ScFifo 0 RfEntry
  slaveTranslator : SlaveTranslator

namespace Interconnect

def reset : Interconnect where
  translator := MasterTranslator.reset
  agent := MasterAgent.reset
  rspFifo := ScFifo.reset 0 ⟨false, false⟩
  slaveTranslator := SlaveTranslator.reset

variable (s : Interconnect) (c : FabricCycle) (readdata : BitVec 32)

/-- The packet the master agent offers. -/
def command : CommandPacket :=
  MasterAgent.cpData (s.translator.uavRead c.av) (s.translator.uavWrite c.av) c.av

/-- The demultiplexer's output the packet is offered to. -/
def channel : Slave := srcChannel (s.command c).addr

/-- `src3_valid`.
RTL: system/synthesis/submodules/system_cmd_xbar_demux_001.sv:130 -/
def src3Valid : Bool :=
  decide (s.channel c = Slave.matrixAccel) &&
    MasterAgent.cpValid (s.translator.uavRead c.av) (s.translator.uavWrite c.av)

/-- `m0_read` of the accelerator's slave agent. -/
def m0Read : Bool := SlaveAgent.m0Read s.rspFifo.inReady (s.src3Valid c) (s.command c)

/-- What the accelerator's bus carries. -/
def avsCycle : AvsCycle :=
  SlaveTranslator.av (SlaveAgent.m0Address (s.command c)) (s.m0Read c)
    (SlaveAgent.m0Write s.rspFifo.inReady (s.src3Valid c) (s.command c)) (s.command c).data

/-- `src3_ready`. -/
def src3Ready : Bool :=
  SlaveAgent.cpReady s.slaveTranslator.uavWaitrequest s.rspFifo.inReady

/-- `sink_ready` of the demultiplexer: the ready bit of the selected output.
RTL: system/synthesis/submodules/system_cmd_xbar_demux_001.sv:137-142 -/
def cpReady : Bool :=
  match s.channel c with
  | Slave.jtagDebugModule => c.others.src0Ready
  | Slave.onchipMemory => c.others.src1Ready
  | Slave.jtagUart => c.others.src2Ready
  | Slave.matrixAccel => s.src3Ready

/-- `uav_waitrequest` of the master translator. -/
def uavWaitrequest : Bool := s.agent.avWaitrequest (s.cpReady c)

/-- The accelerator's response; `readdata` is its `avs_readdata`. -/
def sink3 : Response :=
  SlaveAgent.rp s.rspFifo.outValid s.rspFifo.outPayload s.slaveTranslator.readLatencyShiftReg
    readdata

/-- What the multiplexer returns to the master agent. -/
def response : Response := Response.mux c.others.sink0 c.others.sink1 c.others.sink2
  (s.sink3 readdata)

/-- `uav_readdatavalid` of the master translator. -/
def uavReaddatavalid : Bool := MasterAgent.avReaddatavalid (s.response c readdata)

/-- The data master's `waitrequest`. -/
def waitrequest : Bool :=
  s.translator.avWaitrequest c.av (s.uavWaitrequest c) (s.uavReaddatavalid c readdata)

/-- What the response FIFO is shown.  The response path is ready: the master agent always
is, and the multiplexer grants every valid response.
RTL: system/synthesis/submodules/system_rsp_xbar_mux_001.sv:339, 341 -/
def rfOffer : Offer RfEntry where
  inValid := SlaveAgent.rfSourceValid s.slaveTranslator.uavWaitrequest s.rspFifo.inReady
    (s.src3Valid c) (s.command c)
  inPayload := SlaveAgent.rfSourceData (s.src3Valid c) (s.command c)
  outReady := SlaveAgent.rfSinkReady s.rspFifo.outValid s.rspFifo.outPayload
    s.slaveTranslator.readLatencyShiftReg (s.sink3 readdata).valid

/-- One rising edge with `reset` low. -/
def step : Interconnect where
  translator :=
    s.translator.step c.av (s.uavWaitrequest c) (s.uavReaddatavalid c readdata)
  agent := s.agent.step
  rspFifo := s.rspFifo.step (s.rfOffer c readdata)
  slaveTranslator := s.slaveTranslator.step (s.m0Read c)

end Interconnect

/-- The path with the core of the accelerator at its end. -/
@[ext] structure Board (σ : Type*) where
  fabric : Interconnect
  core : σ

namespace Board

variable {σ : Type*} (coreStep : σ → AvsCycle → σ) (readdata : σ → BitVec 32)

/-- One rising edge. -/
def step (b : Board σ) (c : FabricCycle) : Board σ where
  fabric := b.fabric.step c (readdata b.core)
  core := coreStep b.core (b.fabric.avsCycle c)

/-- The data master's `waitrequest`. -/
def waitrequest (b : Board σ) (c : FabricCycle) : Bool := b.fabric.waitrequest c (readdata b.core)

/-- The data master's `readdata`. -/
def avReaddata (b : Board σ) (c : FabricCycle) : BitVec 32 :=
  (b.fabric.response c (readdata b.core)).data

end Board

end MatrixAccelerator.Model
