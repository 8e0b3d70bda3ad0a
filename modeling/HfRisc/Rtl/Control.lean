import HfRisc.Arch

/-!
# The control unit (`control.vhd`)

The combinational decoder that turns `opcode`, `funct3` and `funct7` into the
control word of the execute stage. Both RISC-V cores have one: the rv32i core
(`core_rv32i/control.vhd`) and the rv32im core without divider
(`core_rv32im_nodiv/control.vhd`). The second adds the four multiplies, moves
the arithmetic right shift from ALU code `1100` to `1011`, and looks at
`funct7` in three more places.

`Control.Exclusive` is what the pipeline relies on: no control word asks for
two of a load, a store, a jump, a branch and a system call at once.
-/

namespace HfRisc.Rtl

/-- The outputs of the control unit. -/
structure Control where
  regWrite : Bool
  aluSrc1 : Bool
  aluSrc2 : BitVec 3
  aluOp : BitVec 4
  jump : BitVec 2
  branch : BitVec 3
  memWrite : BitVec 2
  memRead : BitVec 2
  sigRead : Bool
deriving DecidableEq, Repr

namespace Control

/-- The `when others` branch: a bubble. -/
def others : Control where
  regWrite := false
  aluSrc1 := false
  aluSrc2 := 0b000
  aluOp := 0b0000
  jump := 0b00
  branch := 0b000
  memWrite := 0b00
  memRead := 0b00
  sigRead := false

/-- A computation: writes the register file, source operand `src2`. -/
def compute (src2 : BitVec 3) (op : BitVec 4) : Control :=
  { others with regWrite := true, aluSrc2 := src2, aluOp := op }

/-- A jump: links through `pc_last`, target selected by `kind`. -/
def jumpTo (kind : BitVec 2) : Control :=
  { others with regWrite := true, aluSrc2 := 0b011, aluOp := 0b0110, jump := kind }

/-- A conditional branch comparing two registers with ALU code `op`. -/
def branchOn (op : BitVec 4) (kind : BitVec 3) : Control :=
  { others with aluSrc2 := 0b101, aluOp := op, branch := kind }

/-- A load of the given width and extension. -/
def load (width : BitVec 2) (signed : Bool) : Control :=
  { others with regWrite := true, aluSrc2 := 0b001, aluOp := 0b0100,
                memRead := width, sigRead := signed }

/-- A store of the given width. -/
def store (width : BitVec 2) : Control :=
  { others with aluSrc2 := 0b010, aluOp := 0b0100, memWrite := width }

/-- The `SYSTEM` opcode: raises the exception. -/
def system : Control := { others with branch := 0b111 }

end Control

open Control

/-- The rows of the decoder that both cores share: upper immediates, jumps,
branches, loads, stores and `SYSTEM`. `opImm` and `op` are the two opcode rows
in which the cores differ. -/
def controlRows (opImm op : BitVec 3 → BitVec 7 → Control)
    (opcode : BitVec 7) (funct3 : BitVec 3) (funct7 : BitVec 7) : Control :=
  if opcode = 0b0110111 then                                -- LUI
    compute 0b000 0b0110
  else if opcode = 0b0010111 then                           -- AUIPC
    { compute 0b000 0b0100 with aluSrc1 := true }
  else if opcode = 0b1101111 then jumpTo 0b10               -- JAL
  else if opcode = 0b1100111 then jumpTo 0b11               -- JALR
  else if opcode = 0b1100011 then                           -- branches
    if funct3 = 0b000 then branchOn 0b0101 0b001            -- BEQ
    else if funct3 = 0b001 then branchOn 0b0101 0b010       -- BNE
    else if funct3 = 0b100 then branchOn 0b0111 0b011       -- BLT
    else if funct3 = 0b101 then branchOn 0b0111 0b100       -- BGE
    else if funct3 = 0b110 then branchOn 0b1000 0b101       -- BLTU
    else if funct3 = 0b111 then branchOn 0b1000 0b110       -- BGEU
    else others
  else if opcode = 0b0000011 then                           -- loads
    if funct3 = 0b000 then load 0b01 true                   -- LB
    else if funct3 = 0b001 then load 0b10 true              -- LH
    else if funct3 = 0b010 then load 0b11 true              -- LW
    else if funct3 = 0b100 then load 0b01 false             -- LBU
    else if funct3 = 0b101 then load 0b10 false             -- LHU
    else others
  else if opcode = 0b0100011 then                           -- stores
    if funct3 = 0b000 then store 0b01                       -- SB
    else if funct3 = 0b001 then store 0b10                  -- SH
    else if funct3 = 0b010 then store 0b11                  -- SW
    else others
  else if opcode = 0b0010011 then opImm funct3 funct7       -- imm computation
  else if opcode = 0b0110011 then op funct3 funct7          -- computation
  else if opcode = 0b1110011 then system                    -- SYSTEM
  else others

/-- Immediate computations; `sra` is the core's ALU code of the arithmetic
right shift. `SLLI` does not look at `funct7`. -/
def controlOpImm (sra : BitVec 4) (funct3 : BitVec 3) (funct7 : BitVec 7) : Control :=
  if funct3 = 0b000 then compute 0b001 0b0100               -- ADDI
  else if funct3 = 0b010 then compute 0b001 0b0111          -- SLTI
  else if funct3 = 0b011 then compute 0b001 0b1000          -- SLTIU
  else if funct3 = 0b100 then compute 0b001 0b0010          -- XORI
  else if funct3 = 0b110 then compute 0b001 0b0001          -- ORI
  else if funct3 = 0b111 then compute 0b001 0b0000          -- ANDI
  else if funct3 = 0b001 then compute 0b100 0b1001          -- SLLI
  else                                                      -- "101"
    if funct7 = 0b0000000 then compute 0b100 0b1010         -- SRLI
    else if funct7 = 0b0100000 then compute 0b100 sra       -- SRAI
    else others

/-- Register computations of the rv32i core. -/
def controlOpI (funct3 : BitVec 3) (funct7 : BitVec 7) : Control :=
  if funct3 = 0b000 then
    if funct7 = 0b0000000 then compute 0b101 0b0100         -- ADD
    else if funct7 = 0b0100000 then compute 0b101 0b0101    -- SUB
    else others
  else if funct3 = 0b001 then compute 0b101 0b1001          -- SLL
  else if funct3 = 0b010 then compute 0b101 0b0111          -- SLT
  else if funct3 = 0b011 then compute 0b101 0b1000          -- SLTU
  else if funct3 = 0b100 then compute 0b101 0b0010          -- XOR
  else if funct3 = 0b101 then
    if funct7 = 0b0000000 then compute 0b101 0b1010         -- SRL
    else if funct7 = 0b0100000 then compute 0b101 0b1100    -- SRA
    else others
  else if funct3 = 0b110 then compute 0b101 0b0001          -- OR
  else compute 0b101 0b0000                                 -- AND ("111")

/-- Register computations of the rv32im core. -/
def controlOpIm (funct3 : BitVec 3) (funct7 : BitVec 7) : Control :=
  if funct3 = 0b000 then
    if funct7 = 0b0000000 then compute 0b101 0b0100         -- ADD
    else if funct7 = 0b0000001 then compute 0b101 0b1100    -- MUL
    else if funct7 = 0b0100000 then compute 0b101 0b0101    -- SUB
    else others
  else if funct3 = 0b001 then
    if funct7 = 0b0000001 then compute 0b101 0b1101         -- MULH
    else compute 0b101 0b1001                               -- SLL
  else if funct3 = 0b010 then
    if funct7 = 0b0000001 then compute 0b101 0b1110         -- MULHSU
    else compute 0b101 0b0111                               -- SLT
  else if funct3 = 0b011 then
    if funct7 = 0b0000001 then compute 0b101 0b1111         -- MULHU
    else compute 0b101 0b1000                               -- SLTU
  else if funct3 = 0b100 then compute 0b101 0b0010          -- XOR
  else if funct3 = 0b101 then
    if funct7 = 0b0000000 then compute 0b101 0b1010         -- SRL
    else if funct7 = 0b0100000 then compute 0b101 0b1011    -- SRA
    else others
  else if funct3 = 0b110 then compute 0b101 0b0001          -- OR
  else compute 0b101 0b0000                                 -- AND ("111")

/-- `core_rv32i/control.vhd`. -/
def controlRv32i : BitVec 7 → BitVec 3 → BitVec 7 → Control :=
  controlRows (controlOpImm 0b1100) controlOpI

/-- `core_rv32im_nodiv/control.vhd`. -/
def controlRv32im : BitVec 7 → BitVec 3 → BitVec 7 → Control :=
  controlRows (controlOpImm 0b1011) controlOpIm

/-! ## At most one kind of action per control word -/

/-- A control word asks for at most one of: load, store, jump, branch (a system
call counts as a branch). Stores and branches write no register, and only jumps
let the program counter itself into the ALU. The ALU codes from `1100` on, where
the multiplies are, belong to plain register computations, and nothing uses the
free code `0011`. -/
structure Control.Exclusive (c : Control) : Prop where
  ofLoad : c.memRead ≠ 0 → c.memWrite = 0 ∧ c.jump = 0 ∧ c.branch = 0 ∧ c.aluSrc2 ≠ 0b011
  ofStore : c.memWrite ≠ 0 →
    c.jump = 0 ∧ c.branch = 0 ∧ c.regWrite = false ∧ c.aluSrc2 ≠ 0b011
  ofJump : c.jump ≠ 0 → c.branch = 0
  ofBranch : c.branch ≠ 0 → c.regWrite = false ∧ c.aluSrc1 = false ∧ c.aluSrc2 ≠ 0b011
  ofSlow : 0b1100 ≤ c.aluOp →
    c.memRead = 0 ∧ c.memWrite = 0 ∧ c.jump = 0 ∧ c.branch = 0 ∧ c.regWrite = true
  code : c.aluOp ≠ 0b0011

namespace Control.Exclusive

theorem ite {p : Prop} [Decidable p] {c d : Control} (hc : c.Exclusive)
    (hd : d.Exclusive) : (if p then c else d).Exclusive := by
  split
  · exact hc
  · exact hd

theorem others : Control.others.Exclusive := by
  constructor <;> simp [Control.others]

theorem compute (src2 : BitVec 3) {op : BitVec 4} (hop : op ≠ 0b0011) :
    (Control.compute src2 op).Exclusive := by
  constructor <;> simp [Control.compute, Control.others]
  exact hop

theorem auipc (src2 : BitVec 3) {op : BitVec 4} (hop : op ≠ 0b0011) :
    ({ Control.compute src2 op with aluSrc1 := true }).Exclusive := by
  constructor <;> simp [Control.compute, Control.others]
  exact hop

theorem jumpTo (kind : BitVec 2) : (Control.jumpTo kind).Exclusive := by
  constructor <;> simp [Control.jumpTo, Control.others]

theorem branchOn {op : BitVec 4} (hop : op < 0b1100 ∧ op ≠ 0b0011) (kind : BitVec 3) :
    (Control.branchOn op kind).Exclusive := by
  constructor <;> simp [Control.branchOn, Control.others]
  · exact hop.1
  · exact hop.2

theorem load (width : BitVec 2) (signed : Bool) :
    (Control.load width signed).Exclusive := by
  constructor <;> simp [Control.load, Control.others]

theorem store (width : BitVec 2) : (Control.store width).Exclusive := by
  constructor <;> simp [Control.store, Control.others]

theorem system : Control.system.Exclusive := by
  constructor <;> simp [Control.system, Control.others]

end Control.Exclusive

open Control.Exclusive in
/-- The shared rows are exclusive when the two computation rows are. -/
theorem exclusive_controlRows {opImm op : BitVec 3 → BitVec 7 → Control}
    (hImm : ∀ f₃ f₇, (opImm f₃ f₇).Exclusive) (hOp : ∀ f₃ f₇, (op f₃ f₇).Exclusive)
    (opcode : BitVec 7) (funct3 : BitVec 3) (funct7 : BitVec 7) :
    (controlRows opImm op opcode funct3 funct7).Exclusive := by
  unfold controlRows
  repeat' apply Control.Exclusive.ite
  all_goals first
    | exact compute _ (by decide) | exact jumpTo _ | exact branchOn (by decide) _ | exact load _ _
    | exact store _ | exact system | exact others | exact auipc _ (by decide)
    | exact hImm _ _ | exact hOp _ _

theorem exclusive_controlOpImm {sra : BitVec 4} (hsra : sra ≠ 0b0011) (f₃ : BitVec 3)
    (f₇ : BitVec 7) : (controlOpImm sra f₃ f₇).Exclusive := by
  unfold controlOpImm
  repeat' apply Control.Exclusive.ite
  all_goals first | exact .compute _ (by decide) | exact .compute _ hsra | exact .others

theorem exclusive_controlRv32i (opcode : BitVec 7) (funct3 : BitVec 3)
    (funct7 : BitVec 7) : (controlRv32i opcode funct3 funct7).Exclusive := by
  refine exclusive_controlRows (exclusive_controlOpImm (by decide)) (fun f₃ f₇ => ?_) _ _ _
  unfold controlOpI
  repeat' apply Control.Exclusive.ite
  all_goals first | exact .compute _ (by decide) | exact .others

theorem exclusive_controlRv32im (opcode : BitVec 7) (funct3 : BitVec 3)
    (funct7 : BitVec 7) : (controlRv32im opcode funct3 funct7).Exclusive := by
  refine exclusive_controlRows (exclusive_controlOpImm (by decide)) (fun f₃ f₇ => ?_) _ _ _
  unfold controlOpIm
  repeat' apply Control.Exclusive.ite
  all_goals first | exact .compute _ (by decide) | exact .others

end HfRisc.Rtl
