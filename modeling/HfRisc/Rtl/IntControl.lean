import HfRisc.Rtl.Control

/-!
# The interrupt controller (`int_control.vhd`)

The memory mapped interrupt registers at `0xf0000000`, the state machine that
turns a masked interrupt line into the request `irq`, and the address decoder
between the core and the memory.
-/

namespace HfRisc.Rtl

/-- The states of the interrupt pulse. -/
inductive PulseState
  | idle
  | int
  | req
  | ackn
  | done
deriving DecidableEq, Repr

/-- The registers of the controller. The state machine is clocked twice: both
`pulse_state` and `pulse_next_state` are registers. -/
@[ext] structure IntControl where
  periphData : Word
  irqVector : Word
  irqMask : BitVec 8
  irqStatus : BitVec 8
  extioOut : BitVec 8
  irqEpc : Word
  irq : Bool
  pulseState : PulseState
  pulseNextState : PulseState
  periphAccessDly : Bool

/-- What the core drives to the controller in one cycle. -/
structure CpuBus where
  irqAck : Bool
  exception : Bool
  address : Word
  dataOut : Word
  dataW : BitVec 4
  dataAccess : Bool

namespace CpuBus

/-- `periph_access`: the data access addresses the controller. -/
def periphAccess (b : CpuBus) : Bool :=
  b.address.extractLsb' 27 5 == 0b11110 && b.dataAccess

/-- `periph_access_we`. The source compares `periph_access <= '1'`, which holds
of `'0'` and `'1'`, so only the byte lanes matter. -/
def periphAccessWe (b : CpuBus) : Bool := b.dataW != 0b0000

/-- `data_we_mem`: the byte lanes of a write that goes to the memory. -/
def dataWeMem (b : CpuBus) : BitVec 4 :=
  if b.dataAccess = true ∧ b.periphAccess = false then b.dataW else 0b0000

/-- `address_cpu(7 downto 4)`: the register select. -/
def periphReg (b : CpuBus) : BitVec 4 := b.address.extractLsb' 4 4

end CpuBus

namespace IntControl

variable (r : IntControl)

/-- `interrupt`: some unmasked line is high (`irq_cause` is `extio_in`). -/
def interrupt (extioIn : BitVec 8) : Bool := (extioIn &&& r.irqMask) != 0

/-- `data_in_cpu`: the word the core reads. -/
def dataInCpu (dataReadMem : Word) : Word :=
  if r.periphAccessDly = false then dataReadMem else r.periphData

/-- What a read of the controller's registers latches. -/
def readReg (b : CpuBus) (dataReadMem : Word) (extioIn : BitVec 8) : Word :=
  if b.periphReg = 0b0000 then r.irqVector
  else if b.periphReg = 0b0001 then extioIn ++ 0x000000#24
  else if b.periphReg = 0b0010 then r.irqMask ++ 0x000000#24
  else if b.periphReg = 0b0011 then r.irqStatus ++ 0x000000#24
  else if b.periphReg = 0b0100 then
    r.irqEpc.extractLsb' 0 8 ++ r.irqEpc.extractLsb' 8 8 ++
      r.irqEpc.extractLsb' 16 8 ++ r.irqEpc.extractLsb' 24 8
  else if b.periphReg = 0b1000 then extioIn ++ 0x000000#24
  else if b.periphReg = 0b1001 then r.extioOut ++ 0x000000#24
  else dataReadMem

/-- Whether this cycle writes the register with select `k`. -/
def writes (b : CpuBus) (k : BitVec 4) : Bool :=
  b.periphAccess && b.periphAccessWe && b.periphReg == k

/-- `irq_status_reg` at the clock edge: a write, then the master bit cleared by
an acknowledge or an exception. -/
def statusStep (b : CpuBus) : BitVec 8 :=
  let written := if writes b 0b0011 then b.dataOut.extractLsb' 24 8 else r.irqStatus
  if b.irqAck || b.exception then written &&& 0xfe else written

/-- One clock edge of the state machine: the next values of `irq` and
`pulse_next_state`, read off the registered `pulse_state`. -/
def pulseStep (irqAck : Bool) (extioIn : BitVec 8) : Bool × PulseState :=
  match r.pulseState with
  | .idle =>
    (r.irq, if r.interrupt extioIn = true ∧ r.irqStatus.getLsbD 0 = true then .int
            else r.pulseNextState)
  | .int => (true, .req)
  | .req => if irqAck then (false, .ackn) else (r.irq, r.pulseNextState)
  | .ackn => (r.irq, .done)
  | .done => (r.irq, if r.irqStatus.getLsbD 0 then .idle else r.pulseNextState)

/-- One clock edge of the controller. -/
def step (stall : Bool) (b : CpuBus) (dataReadMem : Word) (extioIn : BitVec 8) : IntControl where
  periphData := if b.periphAccess then r.readReg b dataReadMem extioIn else r.periphData
  irqVector :=
    if writes b 0b0000 then
      b.dataOut.extractLsb' 0 8 ++ b.dataOut.extractLsb' 8 8 ++
        b.dataOut.extractLsb' 16 8 ++ b.dataOut.extractLsb' 24 8
    else r.irqVector
  irqMask := if writes b 0b0010 then b.dataOut.extractLsb' 24 8 else r.irqMask
  irqStatus := r.statusStep b
  extioOut := if writes b 0b1001 then b.dataOut.extractLsb' 24 8 else r.extioOut
  irqEpc := if (r.irq = true ∧ b.irqAck = false) ∨ b.exception = true then b.address else r.irqEpc
  irq := if stall = false then (r.pulseStep b.irqAck extioIn).1 else r.irq
  pulseState := if stall = false then r.pulseNextState else r.pulseState
  pulseNextState :=
    if stall = false then (r.pulseStep b.irqAck extioIn).2 else r.pulseNextState
  periphAccessDly := if stall = false then b.periphAccess else r.periphAccessDly

end IntControl

end HfRisc.Rtl
