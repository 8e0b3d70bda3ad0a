import HfRisc.Arch

/-!
# The control unit of the MIPS core (`core_mips/control.vhd`)

The decoder turns `opcode`, `funct` and `rtx`, which is the `rt` field, into the
control word of the execute stage. A row of the source assigns all fourteen
outputs; the rows differ from `nop` in few of them, and the combinations that
come back are named here.
-/

namespace HfRisc.Mips

/-- The outputs of the control unit. -/
structure Control where
  regDst : Bool
  regWrite : Bool
  aluSrc : Bool
  aluOp : BitVec 4
  jump : BitVec 2
  branch : BitVec 3
  brLink : Bool
  regToMem : Bool
  memToReg : Bool
  signedImm : Bool
  memWrite : BitVec 2
  memRead : BitVec 2
  signedRd : Bool
  shift : Bool
deriving DecidableEq, Repr

namespace Control

/-- The `when others` rows: nothing is written and nothing is taken. The ALU code is
`0000` among the R type instructions and `0100` elsewhere. -/
def nop (op : BitVec 4) : Control where
  regDst := false
  regWrite := false
  aluSrc := false
  aluOp := op
  jump := 0b00
  branch := 0b000
  brLink := false
  regToMem := false
  memToReg := false
  signedImm := false
  memWrite := 0b00
  memRead := 0b00
  signedRd := false
  shift := false

/-- A shift: its amount is in the immediate or in a register. -/
def shiftRow (imm : Bool) (op : BitVec 4) : Control :=
  { nop op with regDst := true, regWrite := true, aluSrc := imm, signedImm := true, shift := true }

/-- A computation on two registers. -/
def register (op : BitVec 4) : Control := { nop op with regDst := true, regWrite := true }

/-- A computation with an immediate. -/
def immediate (signed : Bool) (op : BitVec 4) : Control :=
  { nop op with regWrite := true, aluSrc := true, signedImm := signed }

/-- A jump of the given kind, without and with a link. -/
def jumpTo (kind : BitVec 2) : Control := { nop 0b0100 with jump := kind }

@[inherit_doc jumpTo]
def jumpLink (kind : BitVec 2) : Control :=
  { jumpTo kind with regDst := true, regWrite := true, brLink := true }

/-- A branch of the given kind, without and with a link. -/
def branchOn (kind : BitVec 3) : Control :=
  { nop 0b0101 with branch := kind, signedImm := true }

@[inherit_doc branchOn]
def branchLink (kind : BitVec 3) : Control :=
  { branchOn kind with regDst := true, regWrite := true, brLink := true }

/-- A load of the given width and extension: `reg_write` stays low, the register is
written because of `mem_to_reg`. -/
def load (width : BitVec 2) (signed : Bool) : Control :=
  { nop 0b0100 with
    aluSrc := true, memToReg := true, signedImm := true, memRead := width, signedRd := signed }

/-- A store of the given width. -/
def store (width : BitVec 2) : Control :=
  { nop 0b0100 with aluSrc := true, regToMem := true, signedImm := true, memWrite := width }

end Control

open Control

/-- The R type rows. -/
def controlSpecial (funct : BitVec 6) : Control :=
  if funct = 0b000000 then shiftRow true 0b1001                 -- SLL
  else if funct = 0b000010 then shiftRow true 0b1010            -- SRL
  else if funct = 0b000011 then shiftRow true 0b1011            -- SRA
  else if funct = 0b000100 then shiftRow false 0b1100           -- SLLV
  else if funct = 0b000110 then shiftRow false 0b1101           -- SRLV
  else if funct = 0b000111 then shiftRow false 0b1110           -- SRAV
  else if funct = 0b001000 then jumpTo 0b10                     -- JR
  else if funct = 0b001001 then jumpLink 0b10                   -- JALR
  else if funct = 0b100001 then register 0b0100                 -- ADDU
  else if funct = 0b100011 then register 0b0101                 -- SUBU
  else if funct = 0b100100 then register 0b0000                 -- AND
  else if funct = 0b100101 then register 0b0001                 -- OR
  else if funct = 0b100110 then register 0b0010                 -- XOR
  else if funct = 0b100111 then register 0b0011                 -- NOR
  else if funct = 0b101010 then register 0b0111                 -- SLT
  else if funct = 0b101011 then register 0b1000                 -- SLTU
  else nop 0b0000

/-- The rows of opcode `000001`. -/
def controlRegimm (rtx : BitVec 5) : Control :=
  if rtx = 0b00000 then branchOn 0b101                          -- BLTZ
  else if rtx = 0b00001 then branchOn 0b110                     -- BGEZ
  else if rtx = 0b10000 then branchLink 0b101                   -- BLTZAL
  else if rtx = 0b10001 then branchLink 0b110                   -- BGEZAL
  else nop 0b0100

/-- `core_mips/control.vhd`. `SLTIU` is the one comparison whose immediate is not
sign extended. -/
def control (opcode funct : BitVec 6) (rtx : BitVec 5) : Control :=
  if opcode = 0b000000 then controlSpecial funct
  else if opcode = 0b000001 then controlRegimm rtx
  else if opcode = 0b000010 then jumpTo 0b01                    -- J
  else if opcode = 0b000011 then jumpLink 0b01                  -- JAL
  else if opcode = 0b000100 then branchOn 0b001                 -- BEQ
  else if opcode = 0b000101 then branchOn 0b010                 -- BNE
  else if opcode = 0b000110 then branchOn 0b011                 -- BLEZ
  else if opcode = 0b000111 then branchOn 0b100                 -- BGTZ
  else if opcode = 0b001001 then immediate true 0b0100          -- ADDIU
  else if opcode = 0b001010 then immediate true 0b0111          -- SLTI
  else if opcode = 0b001011 then immediate false 0b1000         -- SLTIU
  else if opcode = 0b001100 then immediate false 0b0000         -- ANDI
  else if opcode = 0b001101 then immediate false 0b0001         -- ORI
  else if opcode = 0b001110 then immediate false 0b0010         -- XORI
  else if opcode = 0b001111 then immediate false 0b0110         -- LUI
  else if opcode = 0b100000 then load 0b01 true                 -- LB
  else if opcode = 0b100001 then load 0b10 true                 -- LH
  else if opcode = 0b100011 then load 0b11 false                -- LW
  else if opcode = 0b100100 then load 0b01 false                -- LBU
  else if opcode = 0b100101 then load 0b10 false                -- LHU
  else if opcode = 0b101000 then store 0b01                     -- SB
  else if opcode = 0b101001 then store 0b10                     -- SH
  else if opcode = 0b101011 then store 0b11                     -- SW
  else nop 0b0100

/-! ## Loads and stores in a control word -/

/-- A control word reads data exactly when it asks for the loaded word, and a load or
store does not use the write enable of the computations. -/
structure Control.Regular (c : Control) : Prop where
  ofRead : c.memRead ≠ 0 ↔ c.memToReg = true
  ofAccess : c.regToMem = true ∨ c.memToReg = true → c.regWrite = false
  ofStore : c.regToMem = true → c.memToReg = false

namespace Control.Regular

theorem ite {p : Prop} [Decidable p] {c d : Control} (hc : c.Regular) (hd : d.Regular) :
    (if p then c else d).Regular := by
  split
  · exact hc
  · exact hd

/-- A row without data access. -/
theorem of_quiet {c : Control} (hread : c.memRead = 0) (hload : c.memToReg = false)
    (hstore : c.regToMem = false) : c.Regular where
  ofRead := by rw [hread, hload]; simp
  ofAccess h := by simp [hload, hstore] at h
  ofStore _ := hload

theorem load {width : BitVec 2} (h : width ≠ 0) (signed : Bool) :
    (Control.load width signed).Regular where
  ofRead := iff_of_true h rfl
  ofAccess _ := rfl
  ofStore h := nomatch h

theorem store (width : BitVec 2) : (Control.store width).Regular where
  ofRead := by simp [Control.store, Control.nop]
  ofAccess _ := rfl
  ofStore _ := rfl

end Control.Regular

open Control.Regular in
theorem regular_control (opcode funct : BitVec 6) (rtx : BitVec 5) :
    (control opcode funct rtx).Regular := by
  unfold control controlSpecial controlRegimm
  repeat' apply Control.Regular.ite
  all_goals first
    | exact of_quiet rfl rfl rfl | exact load (by decide) _ | exact store _

end HfRisc.Mips
