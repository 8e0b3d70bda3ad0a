import HfRisc.Isa.Spec

/-!
# The MIPS-I instructions of the core

The instructions that the MIPS core decodes, over the registers and the big endian
memory of the instruction set, in the shape in which the circuit and the simulator
are compared: the register an instruction writes and the value, where it leads
behind its delay slot, and the bytes it stores. A write of register 0 is none.
-/

namespace HfRisc.Mips

open HfRisc.Isa (LoadOp StoreOp Aligned)

/-! ## Instructions -/

/-- The shifts, by an immediate or by a register. -/
inductive ShiftOp
  | sll | srl | sra
deriving DecidableEq, Repr

/-- The computations on two registers. -/
inductive RegOp
  | addu | subu | and | or | xor | nor | slt | sltu
deriving DecidableEq, Repr

/-- The computations with an immediate. -/
inductive ImmOp
  | addiu | slti | sltiu | andi | ori | xori | lui
deriving DecidableEq, Repr

/-- The branches that compare two registers. -/
inductive PairOp
  | beq | bne
deriving DecidableEq, Repr

/-- The branches that compare a register with zero. -/
inductive ZeroOp
  | ltz | gez | lez | gtz
deriving DecidableEq, Repr

/-- An instruction with its fields. -/
inductive Instr
  | shift (op : ShiftOp) (rd rt shamt : BitVec 5)
  | shiftV (op : ShiftOp) (rd rt rs : BitVec 5)
  | reg (op : RegOp) (rd rs rt : BitVec 5)
  | imm (op : ImmOp) (rt rs : BitVec 5) (imm : BitVec 16)
  | jr (rs : BitVec 5)
  | jalr (rd rs : BitVec 5)
  | j (index : BitVec 26)
  | jal (index : BitVec 26)
  | branch (op : PairOp) (rs rt : BitVec 5) (imm : BitVec 16)
  | branchZero (op : ZeroOp) (rs : BitVec 5) (imm : BitVec 16)
  | branchLink (op : ZeroOp) (rs : BitVec 5) (imm : BitVec 16)
  | load (op : LoadOp) (rt rs : BitVec 5) (imm : BitVec 16)
  | store (op : StoreOp) (rt rs : BitVec 5) (imm : BitVec 16)
deriving DecidableEq, Repr

/-! ## Decoding -/

section Fields

variable (w : Word)

def opcode : BitVec 6 := w.extractLsb' 26 6
def rs : BitVec 5 := w.extractLsb' 21 5
def rt : BitVec 5 := w.extractLsb' 16 5
def rd : BitVec 5 := w.extractLsb' 11 5
def shamt : BitVec 5 := w.extractLsb' 6 5
def funct : BitVec 6 := w.extractLsb' 0 6
def imm : BitVec 16 := w.extractLsb' 0 16
def jumpIndex : BitVec 26 := w.extractLsb' 0 26

end Fields

/-- `SLL`, `SRL`, `SRA`. -/
def decodeShift (f : BitVec 6) : Option ShiftOp :=
  if f = 0b000000 then some .sll
  else if f = 0b000010 then some .srl
  else if f = 0b000011 then some .sra
  else none

/-- `SLLV`, `SRLV`, `SRAV`. -/
def decodeShiftV (f : BitVec 6) : Option ShiftOp :=
  if f = 0b000100 then some .sll
  else if f = 0b000110 then some .srl
  else if f = 0b000111 then some .sra
  else none

def decodeReg (f : BitVec 6) : Option RegOp :=
  if f = 0b100001 then some .addu
  else if f = 0b100011 then some .subu
  else if f = 0b100100 then some .and
  else if f = 0b100101 then some .or
  else if f = 0b100110 then some .xor
  else if f = 0b100111 then some .nor
  else if f = 0b101010 then some .slt
  else if f = 0b101011 then some .sltu
  else none

def decodeImm (o : BitVec 6) : Option ImmOp :=
  if o = 0b001001 then some .addiu
  else if o = 0b001010 then some .slti
  else if o = 0b001011 then some .sltiu
  else if o = 0b001100 then some .andi
  else if o = 0b001101 then some .ori
  else if o = 0b001110 then some .xori
  else if o = 0b001111 then some .lui
  else none

def decodePair (o : BitVec 6) : Option PairOp :=
  if o = 0b000100 then some .beq
  else if o = 0b000101 then some .bne
  else none

/-- `BLEZ`, `BGTZ`. -/
def decodeZero (o : BitVec 6) : Option ZeroOp :=
  if o = 0b000110 then some .lez
  else if o = 0b000111 then some .gtz
  else none

/-- `BLTZ`, `BGEZ`, which have the `rt` field for a code. -/
def decodeSign (r : BitVec 5) : Option ZeroOp :=
  if r = 0b00000 then some .ltz
  else if r = 0b00001 then some .gez
  else none

/-- `BLTZAL`, `BGEZAL`. -/
def decodeLink (r : BitVec 5) : Option ZeroOp :=
  if r = 0b10000 then some .ltz
  else if r = 0b10001 then some .gez
  else none

def decodeLoad (o : BitVec 6) : Option LoadOp :=
  if o = 0b100000 then some .lb
  else if o = 0b100001 then some .lh
  else if o = 0b100011 then some .lw
  else if o = 0b100100 then some .lbu
  else if o = 0b100101 then some .lhu
  else none

def decodeStore (o : BitVec 6) : Option StoreOp :=
  if o = 0b101000 then some .sb
  else if o = 0b101001 then some .sh
  else if o = 0b101011 then some .sw
  else none

/-! ## Codes -/

/-- The code of an operation in the instruction word. -/
def ShiftOp.funct : ShiftOp → BitVec 6
  | .sll => 0b000000
  | .srl => 0b000010
  | .sra => 0b000011

@[inherit_doc ShiftOp.funct]
def ShiftOp.functV : ShiftOp → BitVec 6
  | .sll => 0b000100
  | .srl => 0b000110
  | .sra => 0b000111

@[inherit_doc ShiftOp.funct]
def RegOp.funct : RegOp → BitVec 6
  | .addu => 0b100001
  | .subu => 0b100011
  | .and => 0b100100
  | .or => 0b100101
  | .xor => 0b100110
  | .nor => 0b100111
  | .slt => 0b101010
  | .sltu => 0b101011

@[inherit_doc ShiftOp.funct]
def ImmOp.opcode : ImmOp → BitVec 6
  | .addiu => 0b001001
  | .slti => 0b001010
  | .sltiu => 0b001011
  | .andi => 0b001100
  | .ori => 0b001101
  | .xori => 0b001110
  | .lui => 0b001111

@[inherit_doc ShiftOp.funct]
def PairOp.opcode : PairOp → BitVec 6
  | .beq => 0b000100
  | .bne => 0b000101

@[inherit_doc ShiftOp.funct]
def loadOpcode : LoadOp → BitVec 6
  | .lb => 0b100000
  | .lh => 0b100001
  | .lw => 0b100011
  | .lbu => 0b100100
  | .lhu => 0b100101

@[inherit_doc ShiftOp.funct]
def storeOpcode : StoreOp → BitVec 6
  | .sb => 0b101000
  | .sh => 0b101001
  | .sw => 0b101011

section Codes

variable {o f : BitVec 6} {r : BitVec 5}

theorem eq_of_decodeShift {op : ShiftOp} (h : decodeShift f = some op) : f = op.funct := by
  revert h
  cases op <;> revert f <;> decide

theorem eq_of_decodeShiftV {op : ShiftOp} (h : decodeShiftV f = some op) : f = op.functV := by
  revert h
  cases op <;> revert f <;> decide

theorem eq_of_decodeReg {op : RegOp} (h : decodeReg f = some op) : f = op.funct := by
  revert h
  cases op <;> revert f <;> decide

theorem eq_of_decodeImm {op : ImmOp} (h : decodeImm o = some op) : o = op.opcode := by
  revert h
  cases op <;> revert o <;> decide

theorem eq_of_decodePair {op : PairOp} (h : decodePair o = some op) : o = op.opcode := by
  revert h
  cases op <;> revert o <;> decide

theorem eq_of_decodeLoad {op : LoadOp} (h : decodeLoad o = some op) : o = loadOpcode op := by
  revert h
  cases op <;> revert o <;> decide

theorem eq_of_decodeStore {op : StoreOp} (h : decodeStore o = some op) : o = storeOpcode op := by
  revert h
  cases op <;> revert o <;> decide

theorem of_decodeZero {op : ZeroOp} (h : decodeZero o = some op) :
    op = .lez ∧ o = 0b000110 ∨ op = .gtz ∧ o = 0b000111 := by
  revert h
  cases op <;> revert o <;> decide

theorem of_decodeSign {op : ZeroOp} (h : decodeSign r = some op) :
    op = .ltz ∧ r = 0b00000 ∨ op = .gez ∧ r = 0b00001 := by
  revert h
  cases op <;> revert r <;> decide

theorem of_decodeLink {op : ZeroOp} (h : decodeLink r = some op) :
    op = .ltz ∧ r = 0b10000 ∨ op = .gez ∧ r = 0b10001 := by
  revert h
  cases op <;> revert r <;> decide

end Codes

/-! ## Instruction words -/

/-- The R type instructions. -/
def decodeSpecial (w : Word) : Option Instr :=
  if funct w = 0b001000 then some (.jr (rs w))
  else if funct w = 0b001001 then some (.jalr (rd w) (rs w))
  else
    ((decodeShift (funct w)).map fun op => Instr.shift op (rd w) (rt w) (shamt w)) <|>
    ((decodeShiftV (funct w)).map fun op => Instr.shiftV op (rd w) (rt w) (rs w)) <|>
    ((decodeReg (funct w)).map fun op => Instr.reg op (rd w) (rs w) (rt w))

/-- The instruction of a word. -/
def decodeInstr (w : Word) : Option Instr :=
  if opcode w = 0b000000 then decodeSpecial w
  else if opcode w = 0b000001 then
    ((decodeSign (rt w)).map fun op => Instr.branchZero op (rs w) (imm w)) <|>
    ((decodeLink (rt w)).map fun op => Instr.branchLink op (rs w) (imm w))
  else if opcode w = 0b000010 then some (.j (jumpIndex w))
  else if opcode w = 0b000011 then some (.jal (jumpIndex w))
  else
    ((decodePair (opcode w)).map fun op => Instr.branch op (rs w) (rt w) (imm w)) <|>
    ((decodeZero (opcode w)).map fun op => Instr.branchZero op (rs w) (imm w)) <|>
    ((decodeImm (opcode w)).map fun op => Instr.imm op (rt w) (rs w) (imm w)) <|>
    ((decodeLoad (opcode w)).map fun op => Instr.load op (rt w) (rs w) (imm w)) <|>
    ((decodeStore (opcode w)).map fun op => Instr.store op (rt w) (rs w) (imm w))

/-- The shapes of an instruction word. -/
inductive Decodes (w : Word) : Instr → Prop
  | jr (ho : opcode w = 0b000000) (hf : funct w = 0b001000) : Decodes w (.jr (rs w))
  | jalr (ho : opcode w = 0b000000) (hf : funct w = 0b001001) : Decodes w (.jalr (rd w) (rs w))
  | shift {op} (ho : opcode w = 0b000000) (hf : decodeShift (funct w) = some op) :
    Decodes w (.shift op (rd w) (rt w) (shamt w))
  | shiftV {op} (ho : opcode w = 0b000000) (hf : decodeShiftV (funct w) = some op) :
    Decodes w (.shiftV op (rd w) (rt w) (rs w))
  | reg {op} (ho : opcode w = 0b000000) (hf : decodeReg (funct w) = some op) :
    Decodes w (.reg op (rd w) (rs w) (rt w))
  | sign {op} (ho : opcode w = 0b000001) (hf : decodeSign (rt w) = some op) :
    Decodes w (.branchZero op (rs w) (imm w))
  | link {op} (ho : opcode w = 0b000001) (hf : decodeLink (rt w) = some op) :
    Decodes w (.branchLink op (rs w) (imm w))
  | j (ho : opcode w = 0b000010) : Decodes w (.j (jumpIndex w))
  | jal (ho : opcode w = 0b000011) : Decodes w (.jal (jumpIndex w))
  | pair {op} (ho : decodePair (opcode w) = some op) : Decodes w (.branch op (rs w) (rt w) (imm w))
  | zero {op} (ho : decodeZero (opcode w) = some op) : Decodes w (.branchZero op (rs w) (imm w))
  | imm {op} (ho : decodeImm (opcode w) = some op) : Decodes w (.imm op (rt w) (rs w) (imm w))
  | load {op} (ho : decodeLoad (opcode w) = some op) : Decodes w (.load op (rt w) (rs w) (imm w))
  | store {op} (ho : decodeStore (opcode w) = some op) :
    Decodes w (.store op (rt w) (rs w) (imm w))

theorem decodes_of_decodeInstr {w : Word} {i : Instr} (h : decodeInstr w = some i) :
    Decodes w i := by
  unfold decodeInstr at h
  split at h
  · rename_i ho
    unfold decodeSpecial at h
    split at h
    · cases h
      exact .jr ho ‹_›
    split at h
    · cases h
      exact .jalr ho ‹_›
    simp only [Option.orElse_eq_orElse, Option.orElse_eq_or, Option.or_eq_some_iff,
      Option.map_eq_some_iff] at h
    rcases h with ⟨op, hf, rfl⟩ | ⟨-, ⟨op, hf, rfl⟩ | ⟨-, op, hf, rfl⟩⟩
    · exact .shift ho hf
    · exact .shiftV ho hf
    · exact .reg ho hf
  split at h
  · rename_i ho
    simp only [Option.orElse_eq_orElse, Option.orElse_eq_or, Option.or_eq_some_iff,
      Option.map_eq_some_iff] at h
    rcases h with ⟨op, hf, rfl⟩ | ⟨-, op, hf, rfl⟩
    · exact .sign ho hf
    · exact .link ho hf
  split at h
  · cases h
    exact .j ‹_›
  split at h
  · cases h
    exact .jal ‹_›
  simp only [Option.orElse_eq_orElse, Option.orElse_eq_or, Option.or_eq_some_iff,
    Option.map_eq_some_iff] at h
  rcases h with ⟨op, hf, rfl⟩ | ⟨-, ⟨op, hf, rfl⟩ | ⟨-, ⟨op, hf, rfl⟩ | ⟨-, ⟨op, hf, rfl⟩ |
    ⟨-, op, hf, rfl⟩⟩⟩⟩
  · exact .pair hf
  · exact .zero hf
  · exact .imm hf
  · exact .load hf
  · exact .store hf

/-! ## Meaning -/

/-- A shift by a number below 32. -/
def ShiftOp.eval (k : ℕ) (x : Word) : ShiftOp → Word
  | .sll => x <<< k
  | .srl => x >>> k
  | .sra => x.sshiftRight k

def RegOp.eval (x y : Word) : RegOp → Word
  | .addu => x + y
  | .subu => x - y
  | .and => x &&& y
  | .or => x ||| y
  | .xor => x ^^^ y
  | .nor => ~~~(x ||| y)
  | .slt => if x.slt y then 1 else 0
  | .sltu => if x.ult y then 1 else 0

/-- The logical operations extend their immediate with zeros, the others with its
sign. -/
def ImmOp.eval (x : Word) (imm : BitVec 16) : ImmOp → Word
  | .addiu => x + imm.signExtend 32
  | .slti => if x.slt (imm.signExtend 32) then 1 else 0
  | .sltiu => if x.ult (imm.signExtend 32) then 1 else 0
  | .andi => x &&& imm.setWidth 32
  | .ori => x ||| imm.setWidth 32
  | .xori => x ^^^ imm.setWidth 32
  | .lui => imm ++ 0#16

def PairOp.holds (x y : Word) : PairOp → Bool
  | .beq => x == y
  | .bne => x != y

/-- The sign bit decides, and whether the word is zero. -/
def ZeroOp.holds (x : Word) : ZeroOp → Bool
  | .ltz => x.msb
  | .gez => !x.msb
  | .lez => x.msb || x == 0
  | .gtz => !x.msb && x != 0

/-- The value loaded from address `a`, its first byte highest. -/
def loadValue (byte : Word → BitVec 8) (a : Word) : LoadOp → Word
  | .lb => (byte a).signExtend 32
  | .lh => (byte a ++ byte (a + 1)).signExtend 32
  | .lw => byte a ++ byte (a + 1) ++ byte (a + 2) ++ byte (a + 3)
  | .lbu => (byte a).setWidth 32
  | .lhu => (byte a ++ byte (a + 1)).setWidth 32

/-- The bytes stored at address `a`, the highest first. -/
def storeBytes (a v : Word) : StoreOp → List (Word × BitVec 8)
  | .sb => [(a, v.extractLsb' 0 8)]
  | .sh => [(a, v.extractLsb' 8 8), (a + 1, v.extractLsb' 0 8)]
  | .sw => [(a, v.extractLsb' 24 8), (a + 1, v.extractLsb' 16 8), (a + 2, v.extractLsb' 8 8),
      (a + 3, v.extractLsb' 0 8)]

/-- What an instruction does: the register it writes with the value, where it leads
behind its delay slot, and the bytes it stores. -/
structure Outcome where
  write : Option (BitVec 5 × Word)
  target : Option Word
  bytes : List (Word × BitVec 8)
deriving DecidableEq, Repr

/-- A write to register `k`; register 0 is never written. -/
def written (k : BitVec 5) (v : Word) : Option (BitVec 5 × Word) :=
  if k = 0 then none else some (k, v)

/-- The registers after a write. -/
def Outcome.regs (o : Outcome) (regs : BitVec 5 → Word) : BitVec 5 → Word :=
  match o.write with
  | some (k, v) => fun r => if r = k then v else regs r
  | none => regs

/-- The target of a branch at `pc`, relative to its delay slot. -/
def branchTarget (pc : Word) (imm : BitVec 16) : Word := pc + 4 + imm.signExtend 32 <<< (2 : ℕ)

/-- The target of a jump at `pc`, in the segment of its delay slot. -/
def jumpTarget (pc : Word) (index : BitVec 26) : Word := (pc + 4).extractLsb' 28 4 ++ index ++ 0#2

section Outcomes

variable {n : ℕ} (a : Isa.State n)

/-- What instruction `i` does: a link is the address behind the delay slot, and the
registers are read before it is written. -/
def outcome : Instr → Outcome
  | .shift op rd rt shamt => ⟨written rd (op.eval shamt.toNat (a.get rt)), none, []⟩
  | .shiftV op rd rt rs => ⟨written rd (op.eval ((a.get rs).toNat % 32) (a.get rt)), none, []⟩
  | .reg op rd rs rt => ⟨written rd (op.eval (a.get rs) (a.get rt)), none, []⟩
  | .imm op rt rs imm => ⟨written rt (op.eval (a.get rs) imm), none, []⟩
  | .jr rs => ⟨none, some (a.get rs), []⟩
  | .jalr rd rs => ⟨written rd (a.pc + 8), some (a.get rs), []⟩
  | .j index => ⟨none, some (jumpTarget a.pc index), []⟩
  | .jal index => ⟨written 31 (a.pc + 8), some (jumpTarget a.pc index), []⟩
  | .branch op rs rt imm =>
    ⟨none, if op.holds (a.get rs) (a.get rt) then some (branchTarget a.pc imm) else none, []⟩
  | .branchZero op rs imm =>
    ⟨none, if op.holds (a.get rs) then some (branchTarget a.pc imm) else none, []⟩
  | .branchLink op rs imm =>
    ⟨written 31 (a.pc + 8), if op.holds (a.get rs) then some (branchTarget a.pc imm) else none, []⟩
  | .load op rt rs imm =>
    ⟨written rt (loadValue a.byte (a.get rs + imm.signExtend 32) op), none, []⟩
  | .store op rt rs imm =>
    ⟨none, none, storeBytes (a.get rs + imm.signExtend 32) (a.get rt) op⟩

/-- The data access of an instruction is an aligned RAM access. -/
def AccessOk : Instr → Prop
  | .load op _ rs imm =>
    ramSel (a.get rs + imm.signExtend 32) = true ∧ Aligned op.size (a.get rs + imm.signExtend 32)
  | .store op _ rs imm =>
    ramSel (a.get rs + imm.signExtend 32) = true ∧ Aligned op.size (a.get rs + imm.signExtend 32)
  | _ => True

end Outcomes

/-- The instructions that look at or change the program counter: the branches and
jumps. -/
def Instr.Transfers : Instr → Prop
  | .jr _ | .jalr _ _ | .j _ | .jal _ | .branch .. | .branchZero .. | .branchLink .. => True
  | _ => False

end HfRisc.Mips
