import HfRisc.Rtl.Mul

/-!
# The three-stage datapath (`datapath.vhd`)

Fetch (program counter and its two delayed copies), decode (instruction word,
control unit, bubble insertion) and execute (register file, ALU, branch
resolution, loads and stores), with the interrupt acknowledge chain.

The two cores have the same datapath but for the lines of the multiplier's
`alu_wait`: `stall_sig <= stall or alu_wait`, `alu_wait3` among the bubble
conditions, and `or alu_wait` on the register write enable. `Core` is what a
core plugs in: its control unit and its ALU. The rv32i datapath is the one
whose ALU never waits and has no state.
-/

namespace HfRisc.Rtl

/-- A core: its control unit and its ALU with state `α`. -/
structure Core (α : Type) where
  control : BitVec 7 → BitVec 3 → BitVec 7 → Control
  alu : α → Word → Word → BitVec 4 → AluOut
  aluWait : α → BitVec 4 → Bool
  aluWait3 : α → Bool
  aluStep : α → Word → Word → BitVec 4 → α

/-- `core_rv32i`. -/
def rv32i : Core Unit where
  control := controlRv32i
  alu := fun _ => aluRv32i
  aluWait := fun _ _ => false
  aluWait3 := fun _ => false
  aluStep := fun _ _ _ _ => ()

/-- `core_rv32im_nodiv`. -/
def rv32im : Core MulAlu where
  control := controlRv32im
  alu := aluRv32im
  aluWait := MulAlu.aluWait
  aluWait3 := MulAlu.aluWait3
  aluStep := MulAlu.step

/-- Reverse the four bytes of a word: the core is little endian on a big endian
bus. -/
def swapBytes (w : Word) : Word :=
  w.extractLsb' 0 8 ++ w.extractLsb' 8 8 ++ w.extractLsb' 16 8 ++ w.extractLsb' 24 8

/-! ## Decode stage -/

/-- The registers between decode and execute (the `_r` signals). -/
structure Execute where
  rd : BitVec 5
  rs1 : BitVec 5
  rs2 : BitVec 5
  immI : Word
  immS : Word
  immSb : Word
  immU : BitVec 20
  immUj : Word
  ctl : Control
  regToMem : Bool
  memToReg : Bool
deriving DecidableEq, Repr

/-- `ext32`: twenty copies of the sign bit of the instruction word. -/
def ext32 (inst : Word) : BitVec 20 := if inst.getLsbD 31 then 0xfffff else 0x00000

/-- Decode an instruction word: its fields, its immediates and the outputs of
the control unit. -/
def decode (control : BitVec 7 → BitVec 3 → BitVec 7 → Control) (inst : Word) : Execute :=
  let ext := ext32 inst
  let ctl := control (inst.extractLsb' 0 7) (inst.extractLsb' 12 3) (inst.extractLsb' 25 7)
  { rd := inst.extractLsb' 7 5
    rs1 := inst.extractLsb' 15 5
    rs2 := inst.extractLsb' 20 5
    immI := ext ++ inst.extractLsb' 20 12
    immS := ext ++ inst.extractLsb' 25 7 ++ inst.extractLsb' 7 5
    immSb := ext.extractLsb' 1 19 ++ inst.extractLsb' 31 1 ++ inst.extractLsb' 7 1 ++
      inst.extractLsb' 25 6 ++ inst.extractLsb' 8 4 ++ 0#1
    immU := inst.extractLsb' 12 20
    immUj := ext.extractLsb' 9 11 ++ inst.extractLsb' 31 1 ++ inst.extractLsb' 12 8 ++
      inst.extractLsb' 20 1 ++ inst.extractLsb' 21 10 ++ 0#1
    ctl := ctl
    regToMem := ctl.memWrite != 0b00
    memToReg := ctl.memRead != 0b00 }

/-! ## State -/

/-- The registers of the datapath; `regs` is `reg_bank.vhd`. -/
structure Datapath (α : Type) where
  pc : Word
  pcLast : Word
  pcLast2 : Word
  irqAckDly : Bool
  bds : Bool
  memToRegDly : Bool
  dataAccessDly : Bool
  stallReg : Bool
  ex : Execute
  regs : BitVec 5 → Word
  alu : α

/-- A register file read: register 0 reads as zero. -/
def readReg (regs : BitVec 5 → Word) (r : BitVec 5) : Word := if r ≠ 0 then regs r else 0

/-- A register file write: register 0 is never written. -/
def writeReg (regs : BitVec 5 → Word) (r : BitVec 5) (v : Word) : BitVec 5 → Word :=
  fun r' => if r ≠ 0 ∧ r' = r then v else regs r'

/-! ## Execute stage -/

namespace Execute

/-- `alu_src1`, from the register file and the address of the instruction. -/
def aluSrc1 (e : Execute) (regs : BitVec 5 → Word) (pcLast2 : Word) : Word :=
  if e.ctl.aluSrc1 = false then readReg regs e.rs1 else pcLast2

/-- `alu_src2`. -/
def aluSrc2 (e : Execute) (regs : BitVec 5 → Word) (pc : Word) : Word :=
  if e.ctl.aluSrc2 = 0b000 then e.immU ++ 0x000#12
  else if e.ctl.aluSrc2 = 0b001 then e.immI
  else if e.ctl.aluSrc2 = 0b010 then e.immS
  else if e.ctl.aluSrc2 = 0b011 then pc
  else if e.ctl.aluSrc2 = 0b100 then 0#27 ++ e.rs2
  else readReg regs e.rs2

/-- `branch`: the target of a jump or branch. -/
def branch (e : Execute) (regs : BitVec 5 → Word) (pcLast2 : Word) : Word :=
  let branchSrc1 := if e.ctl.jump = 0b11 then readReg regs e.rs1 else pcLast2
  let branchSrc2 :=
    if e.ctl.jump = 0b10 then e.immUj
    else if e.ctl.jump = 0b11 then e.immI
    else e.immSb
  branchSrc1 + branchSrc2

/-- `branch_taken`, from the flags of the ALU. -/
def branchTaken (e : Execute) (out : AluOut) : Bool :=
  (out.zero && e.ctl.branch == 0b001) ||
  (!out.zero && e.ctl.branch == 0b010) ||
  (out.lessThan && e.ctl.branch == 0b011) ||
  (!out.lessThan && e.ctl.branch == 0b100) ||
  (out.lessThan && e.ctl.branch == 0b101) ||
  (!out.lessThan && e.ctl.branch == 0b110)

/-- `except`: a `SYSTEM` instruction is in execute. -/
def except (e : Execute) : Bool := e.ctl.branch == 0b111

/-- `jump_taken`. -/
def jumpTaken (e : Execute) : Bool := e.ctl.jump != 0b00

/-- `data_access_s`: a load or store is in execute. -/
def dataAccess (e : Execute) : Bool := e.regToMem || e.memToReg

/-- `data_out`: the store data on its byte lanes. -/
def dataOut (e : Execute) (readData2 : Word) : Word :=
  if e.ctl.memWrite = 0b01 then
    readData2.extractLsb' 0 8 ++ readData2.extractLsb' 0 8 ++
      readData2.extractLsb' 0 8 ++ readData2.extractLsb' 0 8
  else if e.ctl.memWrite = 0b10 then
    readData2.extractLsb' 0 8 ++ readData2.extractLsb' 8 8 ++
      readData2.extractLsb' 0 8 ++ readData2.extractLsb' 8 8
  else swapBytes readData2

/-- `data_w`: the byte lanes a store writes at the address `result`. -/
def dataW (e : Execute) (result : Word) : BitVec 4 :=
  if e.ctl.memWrite = 0b11 then 0b1111
  else if e.ctl.memWrite = 0b01 then
    if result.extractLsb' 0 2 = 0b11 then 0b0001
    else if result.extractLsb' 0 2 = 0b10 then 0b0010
    else if result.extractLsb' 0 2 = 0b01 then 0b0100
    else 0b1000
  else if e.ctl.memWrite = 0b10 then
    if result.getLsbD 1 then 0b0011 else 0b1100
  else 0b0000

/-- `data_in_s`: the addressed bytes of a loaded bus word. -/
def dataInS (e : Execute) (result dataIn : Word) : Word :=
  if e.ctl.memRead = 0b01 then
    if result.extractLsb' 0 2 = 0b11 then 0#24 ++ dataIn.extractLsb' 0 8
    else if result.extractLsb' 0 2 = 0b10 then 0#24 ++ dataIn.extractLsb' 8 8
    else if result.extractLsb' 0 2 = 0b01 then 0#24 ++ dataIn.extractLsb' 16 8
    else 0#24 ++ dataIn.extractLsb' 24 8
  else if e.ctl.memRead = 0b10 then
    if result.getLsbD 1 then 0#16 ++ dataIn.extractLsb' 0 8 ++ dataIn.extractLsb' 8 8
    else 0#16 ++ dataIn.extractLsb' 16 8 ++ dataIn.extractLsb' 24 8
  else swapBytes dataIn

/-- `ext32b`: sign or zero extension of a byte. -/
def ext32b (e : Execute) (d : Word) : Word :=
  if d.getLsbD 7 = false ∨ e.ctl.sigRead = false then 0x000000#24 ++ d.extractLsb' 0 8
  else 0xffffff#24 ++ d.extractLsb' 0 8

/-- `ext32h`: sign or zero extension of a half word. -/
def ext32h (e : Execute) (d : Word) : Word :=
  if d.getLsbD 15 = false ∨ e.ctl.sigRead = false then 0x0000#16 ++ d.extractLsb' 0 16
  else 0xffff#16 ++ d.extractLsb' 0 16

/-- `write_data`: what is written back. -/
def writeData (e : Execute) (result dataIn pcLast : Word) : Word :=
  let d := e.dataInS result dataIn
  if e.ctl.memRead = 0b11 then d
  else if e.ctl.memRead = 0b01 then e.ext32b d
  else if e.ctl.memRead = 0b10 then e.ext32h d
  else if e.jumpTaken then pcLast
  else result

end Execute

/-- The inputs of the datapath in one cycle. -/
structure DatapathIn where
  stall : Bool
  irqVector : Word
  irq : Bool
  dataIn : Word

namespace Datapath

variable {α : Type} (c : Core α) (s : Datapath α)

/-- The ALU outputs for the instruction in execute. -/
def aluOut : AluOut :=
  c.alu s.alu (s.ex.aluSrc1 s.regs s.pcLast2) (s.ex.aluSrc2 s.regs s.pc) s.ex.ctl.aluOp

/-- `branch_taken`. -/
def branchTaken : Bool := s.ex.branchTaken (s.aluOut c)

/-- `alu_wait`: a multiplication is running. -/
def aluWait : Bool := c.aluWait s.alu s.ex.ctl.aluOp

/-- `mwait`: the cycle in which a load or store owns the memory port. -/
def mwait : Bool := s.ex.dataAccess && !s.dataAccessDly

/-- `address`: the data address in the `mwait` cycle, else the program counter. -/
def address : Word :=
  if s.ex.dataAccess = true ∧ s.mwait = true then (s.aluOut c).result else s.pc

/-- `irq_ack_s`: an interrupt request is accepted in this cycle. -/
def irqAck (irq : Bool) : Bool :=
  irq && !s.bds && !s.branchTaken c && !s.ex.jumpTaken && !s.ex.regToMem && !s.ex.memToReg

/-- The conditions under which decode sees a bubble. -/
def bubble (irq : Bool) : Bool :=
  s.ex.regToMem || s.ex.memToReg || s.ex.except || s.stallReg || c.aluWait3 s.alu ||
  s.branchTaken c || s.ex.jumpTaken || s.bds || s.irqAck c irq

/-- `inst_in_s`: the instruction word entering decode. -/
def instIn (irq : Bool) (dataIn : Word) : Word :=
  if s.bubble c irq then 0x00000000 else swapBytes dataIn

/-- `pc_next`. -/
def pcNext (irq : Bool) (irqVector : Word) : Word :=
  if (irq = true ∧ s.irqAck c irq = true) ∨ s.ex.except = true then irqVector
  else if s.branchTaken c = true ∨ s.ex.jumpTaken = true then s.ex.branch s.regs s.pcLast2
  else s.pc + 4

/-- `wreg`: the register file write enable. -/
def wreg : Bool :=
  ((s.ex.ctl.regWrite || s.memToRegDly) && !s.mwait && !s.stallReg) || s.aluWait c

/-- `write_data`. -/
def writeData (dataIn : Word) : Word :=
  s.ex.writeData (s.aluOut c).result dataIn s.pcLast

/-- `data_w`. -/
def dataW : BitVec 4 := s.ex.dataW (s.aluOut c).result

/-- `data_out`. -/
def dataOut : Word := s.ex.dataOut (readReg s.regs s.ex.rs2)

/-- `stall_sig`. -/
def stallSig (stall : Bool) : Bool := stall || s.aluWait c

/-- The program counter and its copies at the clock edge. -/
def pcStep (i : DatapathIn) : Word × Word × Word :=
  if s.stallSig c i.stall = false then
    if s.mwait = false then
      (if s.stallReg = false then s.pcNext c i.irq i.irqVector else s.pcLast, s.pc, s.pcLast)
    else if (s.ex.regToMem || s.ex.memToReg || s.ex.except) && !s.bds then
      (s.pcLast, s.pcLast, s.pcLast2)
    else (s.pc, s.pcLast, s.pcLast2)
  else (s.pc, s.pcLast, s.pcLast2)

/-- One clock edge of the datapath. -/
def step (i : DatapathIn) : Datapath α where
  pc := (s.pcStep c i).1
  pcLast := (s.pcStep c i).2.1
  pcLast2 := (s.pcStep c i).2.2
  irqAckDly :=
    if s.stallSig c i.stall = false ∧ s.mwait = false then s.irqAck c i.irq else s.irqAckDly
  bds :=
    if s.stallSig c i.stall = false ∧ s.mwait = false then
      s.branchTaken c || s.ex.jumpTaken
    else s.bds
  memToRegDly := if s.stallSig c i.stall = false then s.ex.memToReg else s.memToRegDly
  dataAccessDly := if s.stallSig c i.stall = false then s.ex.dataAccess else s.dataAccessDly
  stallReg := s.stallSig c i.stall
  ex :=
    if s.stallSig c i.stall = false ∧ s.mwait = false then
      decode c.control (s.instIn c i.irq i.dataIn)
    else s.ex
  regs := if s.wreg c then writeReg s.regs s.ex.rd (s.writeData c i.dataIn) else s.regs
  alu :=
    c.aluStep s.alu (s.ex.aluSrc1 s.regs s.pcLast2) (s.ex.aluSrc2 s.regs s.pc) s.ex.ctl.aluOp

end Datapath

end HfRisc.Rtl
