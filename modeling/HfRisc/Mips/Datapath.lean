import HfRisc.Mips.Control
import HfRisc.Rtl.Datapath

/-!
# The datapath of the MIPS core (`alu.vhd`, `datapath.vhd`)

The ALU, the decode stage, the execute stage with its loads and stores, and one
clock edge. Register bank and barrel shifter are the files of the RISC-V cores.
The bus is big endian like the core, so no bytes are swapped; a branch or jump has
a delay slot, which is the word being decoded while it executes, and `bds` turns
the one behind it into a bubble.
-/

namespace HfRisc.Mips

open HfRisc.Rtl (AluOut bshift addsub less readReg DatapathIn)

/-! ## The ALU -/

/-- `r`: what `alu_op` selects, `shift` being the output of the barrel shifter. -/
def aluResult (op1 op2 : Word) (aluOp : BitVec 4) (shift : Word) : Word :=
  if aluOp = 0b0000 then op1 &&& op2
  else if aluOp = 0b0001 then op1 ||| op2
  else if aluOp = 0b0010 then op1 ^^^ op2
  else if aluOp = 0b0011 then ~~~(op1 ||| op2)
  else if aluOp = 0b0100 ∨ aluOp = 0b0101 then (addsub op1 op2 aluOp).extractLsb' 0 32
  else if aluOp = 0b0110 then op2.extractLsb' 0 16 ++ 0x0000#16
  else if aluOp = 0b0111 ∨ aluOp = 0b1000 then 0#31 ++ BitVec.ofBool (less op1 op2 aluOp)
  else shift

/-- `shift_op2`: the `shamt` field of an immediate, or the low bits of a register. -/
def shiftOp2 (op2 : Word) (aluOp : BitVec 4) : BitVec 5 :=
  if aluOp < 0b1100 then op2.extractLsb' 6 5 else op2.extractLsb' 0 5

/-- `core_mips/alu.vhd`. -/
def alu (op1 op2 : Word) (aluOp : BitVec 4) : AluOut :=
  let left := aluOp == 0b1001 || aluOp == 0b1100
  let logical := !(aluOp == 0b1011 || aluOp == 0b1110)
  let r := aluResult op1 op2 aluOp (bshift left logical (shiftOp2 op2 aluOp) op1)
  { result := r
    zero := r == 0
    lessThan := less op1 op2 aluOp }

/-! ## Decode stage -/

/-- The registers between decode and execute (the `_r` signals). -/
structure Execute where
  rs : BitVec 5
  rt : BitVec 5
  rd : BitVec 5
  imm : BitVec 16
  ctl : Control
deriving DecidableEq, Repr

/-- Decode an instruction word. With a link, `rd` is register 31 whatever the field
says. -/
def decode (inst : Word) : Execute :=
  let ctl := control (inst.extractLsb' 26 6) (inst.extractLsb' 0 6) (inst.extractLsb' 16 5)
  { rs := inst.extractLsb' 21 5
    rt := inst.extractLsb' 16 5
    rd := if ctl.brLink then 0b11111 else inst.extractLsb' 11 5
    imm := inst.extractLsb' 0 16
    ctl := ctl }

/-! ## Execute stage -/

namespace Execute

variable (e : Execute)

/-- `read_reg1`: a shift takes its operand from `rt`. -/
def readReg1 : BitVec 5 := if e.ctl.shift = false then e.rs else e.rt

/-- `read_reg2`: register 0 for the branches that compare with zero. -/
def readReg2 : BitVec 5 :=
  if e.ctl.branch > 0b010 then 0b00000
  else if e.ctl.shift then e.rs
  else e.rt

/-- `target`, the destination of a computation. -/
def target : BitVec 5 := if e.ctl.regDst = false then e.rt else e.rd

/-- `write_reg`. -/
def writeReg : BitVec 5 := if e.ctl.memToReg = false then e.target else e.rt

/-- `ext32`. -/
def ext32 : Word :=
  if e.imm.getLsbD 15 = false ∨ e.ctl.signedImm = false then 0x0000#16 ++ e.imm
  else 0xffff#16 ++ e.imm

/-- `alu_src`. -/
def aluSrc (regs : BitVec 5 → Word) : Word :=
  if e.ctl.aluSrc = false then readReg regs e.readReg2 else e.ext32

/-- The outputs of the ALU. -/
def aluOut (regs : BitVec 5 → Word) : AluOut :=
  alu (readReg regs e.readReg1) (e.aluSrc regs) e.ctl.aluOp

/-- `branch`: the offset is relative to the delay slot. -/
def branch (pcLast : Word) : Word := (e.ext32.extractLsb' 0 30 ++ 0b00#2) + pcLast

/-- `jump`. -/
def jump (regs : BitVec 5 → Word) (pcLast : Word) : Word :=
  if e.ctl.jump = 0b10 then readReg regs e.readReg1
  else pcLast.extractLsb' 28 4 ++ e.rs ++ e.rt ++ e.imm ++ 0b00#2

/-- `branch_taken`. -/
def branchTaken (regs : BitVec 5 → Word) : Bool :=
  let out := e.aluOut regs
  (out.zero && e.ctl.branch == 0b001) ||
  (!out.zero && e.ctl.branch == 0b010) ||
  ((out.zero || out.lessThan) && e.ctl.branch == 0b011) ||
  ((!out.zero && !out.lessThan) && e.ctl.branch == 0b100) ||
  ((!out.zero && out.lessThan) && e.ctl.branch == 0b101) ||
  ((out.zero || !out.lessThan) && e.ctl.branch == 0b110)

/-- `jump_taken`. -/
def jumpTaken : Bool := e.ctl.jump != 0b00

/-- Where the instruction leads, the delay slot apart: the cases of `pc_next`
between the interrupt and `pc_plus4`. -/
def redirect (regs : BitVec 5 → Word) (pcLast : Word) : Option Word :=
  if e.branchTaken regs then some (e.branch pcLast)
  else if e.jumpTaken then some (e.jump regs pcLast)
  else none

/-- `data_access_s`. -/
def dataAccess : Bool := e.ctl.regToMem || e.ctl.memToReg

/-- `data_out`. -/
def dataOut (readData2 : Word) : Word :=
  if e.ctl.memWrite = 0b01 then
    readData2.extractLsb' 0 8 ++ readData2.extractLsb' 0 8 ++
      readData2.extractLsb' 0 8 ++ readData2.extractLsb' 0 8
  else if e.ctl.memWrite = 0b10 then readData2.extractLsb' 0 16 ++ readData2.extractLsb' 0 16
  else readData2

/-- `data_w`: the byte lanes a store writes at the address `result`. -/
def dataW (result : Word) : BitVec 4 :=
  if e.ctl.memWrite = 0b11 then 0b1111
  else if e.ctl.memWrite = 0b01 then
    if result.extractLsb' 0 2 = 0b11 then 0b0001
    else if result.extractLsb' 0 2 = 0b10 then 0b0010
    else if result.extractLsb' 0 2 = 0b01 then 0b0100
    else 0b1000
  else if e.ctl.memWrite = 0b10 then
    if result.getLsbD 1 then 0b0011 else 0b1100
  else 0b0000

/-- `data_in_s`: the addressed bytes of a loaded bus word. -/
def dataInS (result dataIn : Word) : Word :=
  if e.ctl.memRead = 0b01 then
    if result.extractLsb' 0 2 = 0b11 then 0x000000#24 ++ dataIn.extractLsb' 0 8
    else if result.extractLsb' 0 2 = 0b10 then 0x000000#24 ++ dataIn.extractLsb' 8 8
    else if result.extractLsb' 0 2 = 0b01 then 0x000000#24 ++ dataIn.extractLsb' 16 8
    else 0x000000#24 ++ dataIn.extractLsb' 24 8
  else if e.ctl.memRead = 0b10 then
    if result.getLsbD 1 then 0x0000#16 ++ dataIn.extractLsb' 0 16
    else 0x0000#16 ++ dataIn.extractLsb' 16 16
  else dataIn

/-- `ext32b`. -/
def ext32b (d : Word) : Word :=
  if d.getLsbD 7 = false ∨ e.ctl.signedRd = false then 0x000000#24 ++ d.extractLsb' 0 8
  else 0xffffff#24 ++ d.extractLsb' 0 8

/-- `ext32h`. -/
def ext32h (d : Word) : Word :=
  if d.getLsbD 15 = false ∨ e.ctl.signedRd = false then 0x0000#16 ++ d.extractLsb' 0 16
  else 0xffff#16 ++ d.extractLsb' 0 16

/-- `write_data`; the link value is the program counter. -/
def writeData (result dataIn pc : Word) : Word :=
  let d := e.dataInS result dataIn
  if e.ctl.memRead = 0b11 then d
  else if e.ctl.memRead = 0b01 then e.ext32b d
  else if e.ctl.memRead = 0b10 then e.ext32h d
  else if e.ctl.brLink then pc
  else result

end Execute

/-! ## One clock edge -/

/-- The registers of the datapath; `regs` is `reg_bank.vhd`. -/
structure Datapath where
  pc : Word
  pcLast : Word
  irqAckDly : Bool
  bds : Bool
  memToRegDly : Bool
  dataAccessDly : Bool
  stallReg : Bool
  ex : Execute
  regs : BitVec 5 → Word

namespace Datapath

variable (s : Datapath)

/-- `mwait`: the cycle in which a load or store owns the memory port. -/
def mwait : Bool := s.ex.dataAccess && !s.dataAccessDly

/-- `address`. -/
def address : Word :=
  if s.ex.dataAccess = true ∧ s.mwait = true then (s.ex.aluOut s.regs).result else s.pc

/-- `irq_ack_s`. -/
def irqAck (irq : Bool) : Bool :=
  irq && !s.bds && !s.ex.branchTaken s.regs && !s.ex.jumpTaken &&
    !s.ex.ctl.regToMem && !s.ex.ctl.memToReg

/-- `inst_in_s`: the instruction word entering decode, or a bubble. -/
def instIn (irq : Bool) (dataIn : Word) : Word :=
  if s.ex.ctl.regToMem || s.ex.ctl.memToReg || s.bds || s.irqAck irq then 0x00000000 else dataIn

/-- `pc_next`. -/
def pcNext (irq : Bool) (irqVector : Word) : Word :=
  if irq = true ∧ s.irqAck irq = true then irqVector
  else (s.ex.redirect s.regs s.pcLast).getD (s.pc + 4)

/-- `wreg`: the register file write enable. -/
def wreg : Bool := (s.ex.ctl.regWrite || s.memToRegDly) && !s.mwait && !s.stallReg

/-- `write_data`. -/
def writeData (dataIn : Word) : Word :=
  s.ex.writeData (s.ex.aluOut s.regs).result dataIn s.pc

/-- One clock edge of the datapath. -/
def step (i : DatapathIn) : Datapath where
  pc :=
    if i.stall = false then
      if s.mwait = false then s.pcNext i.irq i.irqVector
      else if s.ex.dataAccess = true ∧ s.bds = false then s.pcLast
      else s.pc
    else s.pc
  pcLast := if i.stall = false ∧ s.mwait = false then s.pc else s.pcLast
  irqAckDly := if i.stall = false ∧ s.mwait = false then s.irqAck i.irq else s.irqAckDly
  bds :=
    if i.stall = false ∧ s.mwait = false then s.ex.branchTaken s.regs || s.ex.jumpTaken
    else s.bds
  memToRegDly := if i.stall = false then s.ex.ctl.memToReg else s.memToRegDly
  dataAccessDly := if i.stall = false then s.ex.dataAccess else s.dataAccessDly
  stallReg := i.stall
  ex := if i.stall = false ∧ s.mwait = false then decode (s.instIn i.irq i.dataIn) else s.ex
  regs :=
    if s.wreg then Rtl.writeReg s.regs s.ex.writeReg (s.writeData i.dataIn) else s.regs

end Datapath

end HfRisc.Mips
