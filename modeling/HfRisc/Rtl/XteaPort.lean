import HfRisc.Rtl.Datapath
import HfRisc.Rtl.Xtea

/-!
# The registers of the XTEA core (`hf-riscv_tb_xtea.vhd`)

The test bench gives the core a place at `0xfa…` on the bus of the processor. The inputs of the core
are registers there. A read is registered too, so it has what the register was in the cycle of the
address. The stall of the test bench is off.
-/

namespace HfRisc.Rtl

/-- What the processor drives in one cycle. -/
structure ExtBus where
  address : Word
  data : Word
  dataWe : BitVec 4

namespace ExtBus

variable (b : ExtBus)

def extPeriph : Bool := b.address.extractLsb' 24 8 == 0xfa

def dataWritePeriph : Word := swapBytes b.data

/-- A register is written, or would be if there is none. -/
def writesXtea : Bool := b.extPeriph && b.dataWe != 0b0000

/-- `address(7 downto 4)`. -/
def register : BitVec 4 := b.address.extractLsb' 4 4

end ExtBus

/-- The registers, and the core behind them. -/
structure XteaPort where
  key : BitVec 128
  input : BitVec 64
  /-- Bit 1 is `encrypt`, bit 0 `start`. -/
  control : BitVec 2
  dataReadXteaS : Word
  core : Xtea

namespace XteaPort

/-- The registers after `reset`. -/
def reset : XteaPort where
  key := 0
  input := 0
  control := 0b00
  dataReadXteaS := 0
  core := Xtea.reset

variable (s : XteaPort) (b : ExtBus)

def dataReadXtea : Word := swapBytes s.dataReadXteaS

/-- The ports of the core. -/
def coreIn : XteaIn where
  start := s.control.getLsbD 0
  encrypt := s.control.getLsbD 1
  key := s.key
  input := s.input

/-- The process of the reads. -/
def readRegister (address : BitVec 4) : Word :=
  if address = 0b0000 then 0#29 ++ (BitVec.ofBool s.core.ready ++ s.control)
  else if address = 0b0001 then s.key.extractLsb' 96 32
  else if address = 0b0010 then s.key.extractLsb' 64 32
  else if address = 0b0011 then s.key.extractLsb' 32 32
  else if address = 0b0100 then s.key.extractLsb' 0 32
  else if address = 0b0101 then s.input.extractLsb' 32 32
  else if address = 0b0110 then s.input.extractLsb' 0 32
  else if address = 0b0111 then s.core.output.extractLsb' 32 32
  else if address = 0b1000 then s.core.output.extractLsb' 0 32
  else 0

/-- The process of the writes. -/
def writeRegister (address : BitVec 4) (w : Word) : XteaPort :=
  if address = 0b0000 then { s with control := w.extractLsb' 0 2 }
  else if address = 0b0001 then { s with key := w ++ s.key.extractLsb' 0 96 }
  else if address = 0b0010 then
    { s with key := s.key.extractLsb' 96 32 ++ (w ++ s.key.extractLsb' 0 64) }
  else if address = 0b0011 then
    { s with key := s.key.extractLsb' 64 64 ++ (w ++ s.key.extractLsb' 0 32) }
  else if address = 0b0100 then { s with key := s.key.extractLsb' 32 96 ++ w }
  else if address = 0b0101 then { s with input := w ++ s.input.extractLsb' 0 32 }
  else if address = 0b0110 then { s with input := s.input.extractLsb' 32 32 ++ w }
  else s

/-- One clock edge. -/
def step : XteaPort :=
  { (if b.writesXtea then s.writeRegister b.register b.dataWritePeriph else s) with
    dataReadXteaS := if b.extPeriph then s.readRegister b.register else s.dataReadXteaS
    core := s.core.step s.coreIn }

/-! ## Cycles without a write -/

variable {s b}

theorem step_key (h : b.writesXtea = false) : (s.step b).key = s.key := by
  rw [step, h]
  rfl

theorem step_input (h : b.writesXtea = false) : (s.step b).input = s.input := by
  rw [step, h]
  rfl

theorem step_control (h : b.writesXtea = false) : (s.step b).control = s.control := by
  rw [step, h]
  rfl

theorem step_core : (s.step b).core = s.core.step s.coreIn := rfl

end XteaPort

end HfRisc.Rtl
