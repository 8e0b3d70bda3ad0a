import HfRisc.Sim.State

/-!
# The instruction switch of `cycle` (`hf_riscv_sim.c` 274-405)

The two simulators decode an instruction word in the same way and select what to
do with it in the same `switch`, except for the `SYSTEM` row (388-403). `action` is
that switch: what an instruction does, with the values it reads from `r` given by
`Operands`. The source reads `r` at three places, and what it finds in `r[0]`,
or in `r[rs1]` after a write to `r[rd]`, differs between them: `ptr_l` and `ptr_s`
are computed before `r[0] = 0` (291-293), the rows of the switch read `r` after it,
and the `JALR` row after it has written the link (299).
-/

namespace HfRisc.Sim

/-! ## Fields -/

section Fields

variable (inst : Word)

/-- The fields of `inst` (`hf_riscv_sim.c` 274-279). -/
def opcode : Word := inst &&& 0x7f
def rd : Word := (inst >>> 7) &&& 0x1f
def rs1 : Word := (inst >>> 15) &&& 0x1f
def rs2 : Word := (inst >>> 20) &&& 0x1f
def funct3 : Word := (inst >>> 12) &&& 0x7
def funct7 : Word := (inst >>> 25) &&& 0x7f

/-- `if (inst & 0x80000000) imm |= ones;` -/
def extend (ones imm : Word) : Word := if inst &&& 0x80000000 ≠ 0 then imm ||| ones else imm

/-- `imm_i`, with the sign of the word (280, 285-286). -/
def immI : Word := extend inst 0xfffff000 ((inst &&& 0xfff00000) >>> 20)
/-- `imm_s` (281). -/
def immS : Word :=
  extend inst 0xfffff000 (((inst &&& 0xf80) >>> 7) ||| ((inst &&& 0xfe000000) >>> 20))
/-- `imm_sb`, the distance of a branch (282). -/
def immSb : Word :=
  extend inst 0xffffe000 (((inst &&& 0xf00) >>> 7) ||| ((inst &&& 0x7e000000) >>> 20) |||
    ((inst &&& 0x80) <<< 4) ||| ((inst &&& 0x80000000) >>> 19))
/-- `imm_u`, which needs no sign (283). -/
def immU : Word := inst &&& 0xfffff000
/-- `imm_uj`, the distance of a `JAL` (284). -/
def immUj : Word :=
  extend inst 0xffe00000 (((inst &&& 0x7fe00000) >>> 20) ||| ((inst &&& 0x100000) >>> 9) |||
    (inst &&& 0xff000) ||| ((inst &&& 0x80000000) >>> 11))

/-- A register number as an index of `r`. -/
def index (k : Word) : BitVec 5 := k.setWidth 5

end Fields

/-! ## Operands -/

/-- What `cycle` reads from `r`. -/
structure Operands where
  /-- `r[rs1]` in `ptr_l` and `ptr_s`, before `r[0] = 0`. -/
  base : Word
  /-- `r[rs1]`, after `r[0] = 0`. -/
  x : Word
  /-- `r[rs2]`, after `r[0] = 0`. -/
  y : Word
  /-- `r[rs1]` in the `JALR` row, after `r[rd] = s->pc_next`. -/
  jump : Word
deriving DecidableEq, Repr

/-- The operands of `inst`. -/
def Base.operands (s : Base) (inst : Word) : Operands where
  base := s.r (index (rs1 inst))
  x := (s.setReg 0 0).r (index (rs1 inst))
  y := (s.setReg 0 0).r (index (rs2 inst))
  jump := ((s.setReg 0 0).setReg (index (rd inst)) s.pcNext).r (index (rs1 inst))

/-! ## Actions -/

/-- The type a loaded value is converted to. -/
inductive CType
  | int8 | int16 | int32 | uint8 | uint16
deriving DecidableEq, Repr

/-- The conversion, and back to a register. -/
def CType.cast (v : Word) : CType → Word
  | .int8 => (v.setWidth 8).signExtend 32
  | .int16 => (v.setWidth 16).signExtend 32
  | .int32 => v
  | .uint8 => (v.setWidth 8).setWidth 32
  | .uint16 => (v.setWidth 16).setWidth 32

/-- What a row of the switch does. -/
inductive Action
  /-- `r[rd] = v` -/
  | write (v : Word)
  /-- `r[rd] = s->pc_next; s->pc_next = target` -/
  | link (target : Word)
  /-- `if (taken) s->pc_next = target` -/
  | branch (taken : Bool) (target : Word)
  /-- `r[rd] = (type)mem_read(s, size, address)` -/
  | load (type : CType) (size : Size) (address : Word)
  /-- `mem_write(s, size, address, v)` -/
  | store (size : Size) (address v : Word)
  /-- the `SYSTEM` row, where the simulators differ -/
  | system
  /-- `goto fail` -/
  | fail
  /-- C gives the row no meaning -/
  | undefined
deriving DecidableEq, Repr

/-- A C comparison. -/
def truth (b : Bool) : Word := if b then 1 else 0

section Rows

variable (funct3 funct7 : Word) (o : Operands)

/-- The branches. -/
def actionBranch (target : Word) : Action :=
  if funct3 = 0x0 then .branch (o.x == o.y) target                        -- BEQ
  else if funct3 = 0x1 then .branch (o.x != o.y) target                   -- BNE
  else if funct3 = 0x4 then .branch (o.x.slt o.y) target                  -- BLT
  else if funct3 = 0x5 then .branch (!o.x.slt o.y) target                 -- BGE
  else if funct3 = 0x6 then .branch (o.x.ult o.y) target                  -- BLTU
  else if funct3 = 0x7 then .branch (!o.x.ult o.y) target                 -- BGEU
  else .fail

/-- The loads, from `ptr_l`. -/
def actionLoad (ptr : Word) : Action :=
  if funct3 = 0x0 then .load .int8 .byte ptr                              -- LB
  else if funct3 = 0x1 then .load .int16 .half ptr                        -- LH
  else if funct3 = 0x2 then .load .int32 .word ptr                        -- LW
  else if funct3 = 0x4 then .load .uint8 .byte ptr                        -- LBU
  else if funct3 = 0x5 then .load .uint16 .half ptr                       -- LHU
  else .fail

/-- The stores, to `ptr_s`. -/
def actionStore (ptr : Word) : Action :=
  if funct3 = 0x0 then .store .byte ptr o.y                               -- SB
  else if funct3 = 0x1 then .store .half ptr o.y                          -- SH
  else if funct3 = 0x2 then .store .word ptr o.y                          -- SW
  else .fail

/-- The computations with an immediate; `rs2` is the shift amount. -/
def actionOpImm (imm rs2 : Word) : Action :=
  if funct3 = 0x0 then .write (o.x + imm)                                 -- ADDI
  else if funct3 = 0x2 then .write (truth (o.x.slt imm))                  -- SLTI
  else if funct3 = 0x3 then .write (truth (o.x.ult imm))                  -- SLTIU
  else if funct3 = 0x4 then .write (o.x ^^^ imm)                          -- XORI
  else if funct3 = 0x6 then .write (o.x ||| imm)                          -- ORI
  else if funct3 = 0x7 then .write (o.x &&& imm)                          -- ANDI
  else if funct3 = 0x1 then .write (o.x <<< ((rs2 &&& 0x3f).toNat % 32))  -- SLLI
  else if funct3 = 0x5 then
    if funct7 = 0x0 then .write (o.x >>> ((rs2 &&& 0x3f).toNat % 32))     -- SRLI
    else if funct7 = 0x20 then
      .write (o.x.sshiftRight ((rs2 &&& 0x3f).toNat % 32))                -- SRAI
    else .fail
  else .fail

/-- `r[rs1] / r[rs2]` or `r[rs1] % r[rs2]` on signed operands, where the quotient
may be out of range. -/
def signedDivision (q x y : Word) : Action :=
  if x = BitVec.intMin 32 ∧ y = -1 then .undefined else .write q

/-- RV32M (`hf_riscv_sim.c` 349-361): the products from 64 bits, and quotients and remainders
that are 0 where the divisor is, unlike those of the instruction set. -/
def actionMulDiv : Action :=
  if funct3 = 0 then                                                      -- MUL
    .write ((o.x.signExtend 64 * o.y.signExtend 64).setWidth 32)
  else if funct3 = 1 then                                                 -- MULH
    .write (((o.x.signExtend 64 * o.y.signExtend 64).sshiftRight 32).setWidth 32)
  else if funct3 = 2 then                                                 -- MULHSU
    .write (((o.x.signExtend 64 * o.y.setWidth 64) >>> 32).setWidth 32)
  else if funct3 = 3 then                                                 -- MULHU
    .write (((o.x.setWidth 64 * o.y.setWidth 64) >>> 32).setWidth 32)
  else if funct3 = 4 then                                                 -- DIV
    if o.y ≠ 0 then signedDivision (o.x.sdiv o.y) o.x o.y else .write 0
  else if funct3 = 5 then                                                 -- DIVU
    if o.y ≠ 0 then .write (o.x / o.y) else .write 0
  else if funct3 = 6 then                                                 -- REM
    if o.y ≠ 0 then signedDivision (o.x.srem o.y) o.x o.y else .write 0
  else if funct3 = 7 then                                                 -- REMU
    if o.y ≠ 0 then .write (o.x % o.y) else .write 0
  else .fail

/-- The computations on two registers. -/
def actionOp : Action :=
  if funct7 = 0x1 then actionMulDiv funct3 o
  else if funct3 = 0x0 then
    if funct7 = 0x0 then .write (o.x + o.y)                               -- ADD
    else if funct7 = 0x20 then .write (o.x - o.y)                         -- SUB
    else .fail
  else if funct3 = 0x1 then .write (o.x <<< (o.y.toNat % 32))             -- SLL
  else if funct3 = 0x2 then .write (truth (o.x.slt o.y))                  -- SLT
  else if funct3 = 0x3 then .write (truth (o.x.ult o.y))                  -- SLTU
  else if funct3 = 0x4 then .write (o.x ^^^ o.y)                          -- XOR
  else if funct3 = 0x5 then
    if funct7 = 0x0 then .write (o.x >>> (o.y.toNat % 32))                -- SRL
    else if funct7 = 0x20 then .write (o.x.sshiftRight (o.y.toNat % 32))  -- SRA
    else .fail
  else if funct3 = 0x6 then .write (o.x ||| o.y)                          -- OR
  else if funct3 = 0x7 then .write (o.x &&& o.y)                          -- AND
  else .fail

end Rows

/-- The switch over `opcode`, at program counter `pc` (`hf_riscv_sim.c` 295-405): a row for each
opcode, and `fail` for the others, which ends the simulation. -/
def action (inst pc : Word) (o : Operands) : Action :=
  if opcode inst = 0x37 then .write (immU inst)                           -- LUI
  else if opcode inst = 0x17 then .write (pc + immU inst)                 -- AUIPC
  else if opcode inst = 0x6f then .link (pc + immUj inst)                 -- JAL
  else if opcode inst = 0x67 then                                         -- JALR
    .link ((o.jump + immI inst) &&& 0xfffffffe)
  else if opcode inst = 0x63 then actionBranch (funct3 inst) o (pc + immSb inst)
  else if opcode inst = 0x3 then actionLoad (funct3 inst) (o.base + immI inst)
  else if opcode inst = 0x23 then actionStore (funct3 inst) o (o.base + immS inst)
  else if opcode inst = 0x13 then
    actionOpImm (funct3 inst) (funct7 inst) o (immI inst) (rs2 inst)
  else if opcode inst = 0x33 then actionOp (funct3 inst) (funct7 inst) o
  else if opcode inst = 0x73 then .system
  else .fail

end HfRisc.Sim
