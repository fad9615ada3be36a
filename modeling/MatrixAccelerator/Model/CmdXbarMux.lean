import Mathlib.Data.List.Basic

/-!
# The command multiplexers and their arbiter

`system_cmd_xbar_mux` joins the two masters in front of a slave they share.  Its arbiter is
`altera_merlin_arbitrator` with round-robin arbitration and a pipelined grant, for two
requesters or more; its adder is the ripple-carry one.
-/

set_option autoImplicit false

namespace MatrixAccelerator.Model

/-! ## The arbiter -/

namespace ArbAdder

/-- `cout`.
RTL: system/synthesis/submodules/altera_merlin_arbitrator.sv:253-261 -/
def cout (a b : ℕ → Bool) : ℕ → Bool
  | 0 => a 0 && b 0
  | i + 1 => (a (i + 1) && b (i + 1)) || (cout a b i && (a (i + 1) ^^ b (i + 1)))

/-- `sum`.
RTL: system/synthesis/submodules/altera_merlin_arbitrator.sv:253-258 -/
def sum (a b : ℕ → Bool) : ℕ → Bool
  | 0 => a 0 ^^ b 0
  | i + 1 => (a (i + 1) ^^ b (i + 1)) ^^ cout a b i

end ArbAdder

/-- The register of the arbiter, for `NUM_REQUESTERS = n + 2`. -/
@[ext] structure Arbitrator (n : ℕ) where
  topPriorityReg : Fin (n + 2) → Bool

namespace Arbitrator

variable {n : ℕ}

def reset (n : ℕ) : Arbitrator n := ⟨fun i => decide (i.val = 0)⟩

theorem mod_requesters_lt (k : ℕ) : k % (n + 2) < n + 2 := Nat.mod_lt k (Nat.succ_pos (n + 1))

/-- `{request, request}`. -/
def doubled (request : Fin (n + 2) → Bool) (k : ℕ) : Bool :=
  request ⟨k % (n + 2), mod_requesters_lt k⟩

/-- `{{NUM_REQUESTERS{1'b0}}, top_priority}`. -/
def padded (topPriority : Fin (n + 2) → Bool) (k : ℕ) : Bool :=
  if h : k < n + 2 then topPriority ⟨k, h⟩ else false

/-- `grant_double_vector`; the adder is given `{~request, ~request}` and the pointer.
RTL: system/synthesis/submodules/altera_merlin_arbitrator.sv:160-168, 181-182 -/
def grantDoubleVector (s : Arbitrator n) (request : Fin (n + 2) → Bool) (k : ℕ) : Bool :=
  doubled request k &&
    ArbAdder.sum (fun k => !doubled request k) (padded s.topPriorityReg) k

/-- `grant`.
RTL: system/synthesis/submodules/altera_merlin_arbitrator.sv:188-190 -/
def grant (s : Arbitrator n) (request : Fin (n + 2) → Bool) (i : Fin (n + 2)) : Bool :=
  s.grantDoubleVector request i.val || s.grantDoubleVector request (i.val + (n + 2))

/-- A grant vector rotated to the left by one. -/
def rotated (g : Fin (n + 2) → Bool) (i : Fin (n + 2)) : Bool :=
  g ⟨(i.val + (n + 1)) % (n + 2), mod_requesters_lt _⟩

/-- One rising edge with `reset` low.
RTL: system/synthesis/submodules/altera_merlin_arbitrator.sv:198-207 -/
def step (s : Arbitrator n) (request : Fin (n + 2) → Bool) (incrementTopPriority : Bool) :
    Arbitrator n where
  topPriorityReg :=
    if incrementTopPriority then
      if (List.finRange (n + 2)).any request then rotated (s.grant request) else s.topPriorityReg
    else s.topPriorityReg

end Arbitrator

/-! ## The multiplexer -/

/-- What one sink is shown. -/
structure MuxSink where
  valid : Bool
  data : BitVec 89
  channel : BitVec 4
  startofpacket : Bool
  endofpacket : Bool
deriving DecidableEq

namespace MuxSink

/-- `sink_payload`. -/
def payload (k : MuxSink) : BitVec 95 :=
  k.channel ++ k.data ++ BitVec.ofBool k.startofpacket ++ BitVec.ofBool k.endofpacket

/-- `lock`. -/
def lock (k : MuxSink) : Bool := k.data.getLsbD 58

end MuxSink

/-- The inputs of one cycle. -/
structure MuxCycle where
  sink : Fin 2 → MuxSink
  srcReady : Bool

/-- The registers; `prev_request` is not read with `PIPELINE_ARB = 1`. -/
@[ext] structure CmdXbarMux where
  locked : Fin 2 → Bool
  packetInProgress : Bool
  shareCount : Bool
  shareCountZeroFlag : Bool
  savedGrant : Fin 2 → Bool
  arb : Arbitrator 0

namespace CmdXbarMux

def reset : CmdXbarMux where
  locked _ := false
  packetInProgress := false
  shareCount := false
  shareCountZeroFlag := true
  savedGrant _ := false
  arb := Arbitrator.reset 0

variable (s : CmdXbarMux) (c : MuxCycle)

/-- `src_valid`. -/
def srcValid : Bool :=
  (s.savedGrant 0 && (c.sink 0).valid) || (s.savedGrant 1 && (c.sink 1).valid)

/-- `src_payload`, a sum of products.
RTL: system/synthesis/submodules/system_cmd_xbar_mux.sv:288-292, 298-301 -/
def srcPayload : BitVec 95 :=
  (if s.savedGrant 0 then (c.sink 0).payload else 0#95) |||
    (if s.savedGrant 1 then (c.sink 1).payload else 0#95)

/-- `sink0_ready` and `sink1_ready`. -/
def sinkReady (i : Fin 2) : Bool := c.srcReady && s.savedGrant i

/-- `last_cycle`; `src_endofpacket` is the lowest bit of the payload.
RTL: system/synthesis/submodules/system_cmd_xbar_mux.sv:125 -/
def lastCycle : Bool :=
  s.srcValid c && c.srcReady && (s.srcPayload c).getLsbD 0 &&
    !(((c.sink 0).lock && s.savedGrant 0) || ((c.sink 1).lock && s.savedGrant 1))

/-- `update_grant`.
RTL: system/synthesis/submodules/system_cmd_xbar_mux.sv:205-223 -/
def updateGrant : Bool :=
  (!s.packetInProgress && !s.srcValid c) || (s.lastCycle c && s.shareCountZeroFlag)

/-- `request`. -/
def request (i : Fin 2) : Bool := (c.sink i).valid || s.locked i

/-- `next_grant`. -/
def nextGrant : Fin 2 → Bool := s.arb.grant (s.request c)

/-- One rising edge with `reset` low; both shares are 0.
RTL: system/synthesis/submodules/system_cmd_xbar_mux.sv:115-141, 156-202, 229-234 -/
def step : CmdXbarMux where
  locked i := s.nextGrant c i && (c.sink i).lock
  packetInProgress :=
    if s.lastCycle c then false else if s.srcValid c then true else s.packetInProgress
  shareCount :=
    if s.updateGrant c then false
    else if s.lastCycle c then !s.shareCountZeroFlag && !s.shareCount
    else s.shareCount
  shareCountZeroFlag :=
    if s.updateGrant c then true
    else if s.lastCycle c then s.shareCountZeroFlag || s.shareCount
    else s.shareCountZeroFlag
  savedGrant := if s.updateGrant c then s.nextGrant c else s.savedGrant
  arb := s.arb.step (s.request c) (s.updateGrant c)

end CmdXbarMux

end MatrixAccelerator.Model
