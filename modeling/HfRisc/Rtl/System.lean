import HfRisc.Lib.Mealy
import HfRisc.Rtl.Datapath
import HfRisc.Rtl.IntControl

/-!
# The processor on its test bench (`cpu.vhd`, `hf-riscv_tb.vhd`, `ram.vhd`)

The datapath and the interrupt controller wired as in `cpu.vhd`, with the
synchronous RAM of the test bench: four byte banks of `2 ^ n` entries at
`0x4…`, enabled when addressed and not stalled; a bank either writes or
latches its output. Addresses at `0xe…` read whatever the peripherals of the
test bench drive (`data_read_periph`, an input here). The boot ROM at `0x0…` is
left out: the programs considered run from RAM.

`commits` is what a cycle makes architecturally visible: the register file
write and the bytes a store puts on the bus.
-/

namespace HfRisc.Rtl

/-- The bytes selected by `lanes` in the bus word at `address`: lane 3 is the
lowest address. -/
def laneBytes (address : Word) (lanes : BitVec 4) (data : Word) : List (Word × BitVec 8) :=
  let base := address &&& ~~~3#32
  (if lanes.getLsbD 3 then [(base, data.extractLsb' 24 8)] else []) ++
  (if lanes.getLsbD 2 then [(base + 1, data.extractLsb' 16 8)] else []) ++
  (if lanes.getLsbD 1 then [(base + 2, data.extractLsb' 8 8)] else []) ++
  (if lanes.getLsbD 0 then [(base + 3, data.extractLsb' 0 8)] else [])

/-- The effect of a bus write. -/
def commitMem (address : Word) (lanes : BitVec 4) (data : Word) : List Commit :=
  if lanes ≠ 0 then [.mem (laneBytes address lanes data)] else []

/-- Byte by byte, `data` on the lanes set in `lanes` and `old` on the others. -/
def mergeLanes (lanes : BitVec 4) (data old : Word) : Word :=
  (if lanes.getLsbD 3 then data.extractLsb' 24 8 else old.extractLsb' 24 8) ++
  (if lanes.getLsbD 2 then data.extractLsb' 16 8 else old.extractLsb' 16 8) ++
  (if lanes.getLsbD 1 then data.extractLsb' 8 8 else old.extractLsb' 8 8) ++
  (if lanes.getLsbD 0 then data.extractLsb' 0 8 else old.extractLsb' 0 8)

/-- The RAM word an address selects. -/
def wordIndex (n : Nat) (address : Word) : BitVec n := address.extractLsb' 2 n

/-- `address(31 downto 28) = x"e"`. -/
def periphSel (address : Word) : Bool := address.extractLsb' 28 4 == 0xe

/-- Write the selected lanes of one RAM word. -/
def writeRam {n : Nat} (ram : BitVec n → Word) (address : Word) (lanes : BitVec 4)
    (data : Word) : BitVec n → Word :=
  fun k => if k = wordIndex n address then mergeLanes lanes data (ram k) else ram k

/-- The registers of the whole system. -/
@[ext] structure System (n : Nat) (α : Type) where
  core : Datapath α
  intc : IntControl
  ram : BitVec n → Word
  dataReadRam : Word
  periphDly : Bool

/-- The inputs of the system in one cycle. -/
structure Input where
  stall : Bool
  extioIn : BitVec 8
  dataReadPeriph : Word

namespace System

variable {n : Nat} {α : Type} (c : Core α) (s : System n α) (i : Input)

/-- What the core drives in this cycle. -/
def bus : CpuBus where
  irqAck := s.core.irqAckDly
  exception := s.core.ex.except
  address := s.core.address c
  dataOut := s.core.dataOut
  dataW := s.core.dataW c
  dataAccess := s.core.mwait

/-- `data_read`: the word the memory side returns. -/
def dataRead : Word :=
  if periphSel (s.core.address c) || s.periphDly then i.dataReadPeriph else s.dataReadRam

/-- `data_in_cpu`: the word the core reads. -/
def dataIn : Word := s.intc.dataInCpu (s.dataRead c i)

/-- The inputs of the datapath. -/
def datapathIn : DatapathIn where
  stall := i.stall
  irqVector := s.intc.irqVector
  irq := s.intc.irq
  dataIn := s.dataIn c i

/-- The RAM is enabled. -/
def ramEnable : Bool := ramSel (s.core.address c) && !i.stall

/-- `irq_ack_s` in this cycle. -/
def irqAck : Bool := s.core.irqAck c s.intc.irq

/-- One clock edge of the system. -/
def step : System n α where
  core := s.core.step c (s.datapathIn c i)
  intc := s.intc.step i.stall (s.bus c) (s.dataRead c i) i.extioIn
  ram :=
    if s.ramEnable c i then
      writeRam s.ram (s.core.address c) (s.bus c).dataWeMem s.core.dataOut
    else s.ram
  dataReadRam :=
    if s.ramEnable c i then
      mergeLanes (s.bus c).dataWeMem s.dataReadRam (s.ram (wordIndex n (s.core.address c)))
    else s.dataReadRam
  periphDly := periphSel (s.core.address c)

/-- The register file write of this cycle. -/
def commitsReg : List Commit :=
  if s.core.wreg c then commitReg s.core.ex.rd (s.core.writeData c (s.dataIn c i)) else []

/-- The store of this cycle: the `mwait` cycle, once the stall is released. -/
def commitsMem : List Commit :=
  if s.core.mwait = true ∧ i.stall = false then
    commitMem (s.core.address c) (s.core.dataW c) s.core.dataOut
  else []

/-- Everything this cycle commits. -/
def commits : List Commit := s.commitsReg c i ++ s.commitsMem c i

/-- The destination register of a multiplication is written in every cycle of its
wait. All these writes but the last are transient. -/
def isTransient : Bool := s.core.aluWait c && (s.step c i).core.aluWait c

/-- What this cycle commits and no later cycle of the same instruction repeats. -/
def finals : List Commit := if s.isTransient c i then [] else s.commits c i

/-- The system as a machine that emits the effects no later cycle of the same
instruction repeats. -/
def machine : Lib.Mealy (System n α) Input Commit where
  step := System.step c
  out := System.finals c

/-- The system as a machine that emits everything it commits. -/
def rawMachine : Lib.Mealy (System n α) Input Commit where
  step := System.step c
  out := System.commits c

end System

end HfRisc.Rtl
