import HfRisc.Arch
import HfRisc.Lib.Mealy

/-!
# The instruction set

RV32I without the `SYSTEM` instructions, and the three multiplies of the rv32im
core, over a byte memory: `decode` reads an instruction word, `outcome` says what
the instruction does to the registers, the program counter and the memory, and
`machine` executes one instruction after another. This is the specification that
the circuits and the simulator are compared with; it shares nothing with them but
the effects of `Commit`.

## What the instructions mean here

1. An instruction is decoded from all of its fields, `funct7` of the shifts and of
   `OP` included; any other word is illegal, and `step` leaves the state as it is.
2. The target of a `JALR` has bit 0 cleared. The circuits keep it, so the theorems
   about them ask for `EvenTarget`.
3. Loads and stores go byte by byte, so they need no alignment; the circuits do, and
   so does `Instr.AccessOk`.
4. `FENCE` does nothing, and `MULHSU` is left out: the rv32im core has no row that
   multiplies a signed number by an unsigned one.

The memory has `2 ^ (n + 2)` bytes, mirrored over the address space of the RAM.
-/

namespace HfRisc.Isa

open HfRisc.Lib

/-! ## Instructions -/

/-- The conditional branches. -/
inductive BranchOp
  | beq | bne | blt | bge | bltu | bgeu
deriving DecidableEq, Repr

/-- The loads. -/
inductive LoadOp
  | lb | lh | lw | lbu | lhu
deriving DecidableEq, Repr

/-- The stores. -/
inductive StoreOp
  | sb | sh | sw
deriving DecidableEq, Repr

/-- The computations on two operands. -/
inductive AluOp
  | add | sub | sll | slt | sltu | xor | srl | sra | or | and
deriving DecidableEq, Repr

/-- The multiplies. -/
inductive MulOp
  | mul | mulh | mulhu
deriving DecidableEq, Repr

/-- An instruction with its operands; immediates are already extended. -/
inductive Instr
  | lui (rd : BitVec 5) (imm : Word)
  | auipc (rd : BitVec 5) (imm : Word)
  | jal (rd : BitVec 5) (imm : Word)
  | jalr (rd rs1 : BitVec 5) (imm : Word)
  | branch (op : BranchOp) (rs1 rs2 : BitVec 5) (imm : Word)
  | load (op : LoadOp) (rd rs1 : BitVec 5) (imm : Word)
  | store (op : StoreOp) (rs1 rs2 : BitVec 5) (imm : Word)
  | opImm (op : AluOp) (rd rs1 : BitVec 5) (imm : Word)
  | op (op : AluOp) (rd rs1 rs2 : BitVec 5)
  | mul (op : MulOp) (rd rs1 rs2 : BitVec 5)
  | fence
deriving DecidableEq, Repr

/-! ## Decoding -/

section Fields

variable (w : Word)

/-- The fields of an instruction word. -/
def opcode : BitVec 7 := w.extractLsb' 0 7
def rd : BitVec 5 := w.extractLsb' 7 5
def funct3 : BitVec 3 := w.extractLsb' 12 3
def rs1 : BitVec 5 := w.extractLsb' 15 5
def rs2 : BitVec 5 := w.extractLsb' 20 5
def funct7 : BitVec 7 := w.extractLsb' 25 7

/-- The immediate of the format I, from one field. -/
def immI : Word := (w.extractLsb' 20 12).signExtend 32
/-- That of the stores, cut around `rs1` and `rs2`. -/
def immS : Word := (w.extractLsb' 25 7 ++ w.extractLsb' 7 5).signExtend 32
/-- That of the branches, a multiple of 2. -/
def immB : Word :=
  (w.extractLsb' 31 1 ++ w.extractLsb' 7 1 ++ w.extractLsb' 25 6 ++ w.extractLsb' 8 4 ++
    0#1).signExtend 32
/-- That of `LUI` and `AUIPC`, the upper 20 bits. -/
def immU : Word := w.extractLsb' 12 20 ++ 0#12
/-- That of `JAL`, a multiple of 2. -/
def immJ : Word :=
  (w.extractLsb' 31 1 ++ w.extractLsb' 12 8 ++ w.extractLsb' 20 1 ++ w.extractLsb' 21 10 ++
    0#1).signExtend 32

end Fields

/-- `BRANCH`. -/
def decodeBranch (f₃ : BitVec 3) : Option BranchOp :=
  if f₃ = 0b000 then some .beq
  else if f₃ = 0b001 then some .bne
  else if f₃ = 0b100 then some .blt
  else if f₃ = 0b101 then some .bge
  else if f₃ = 0b110 then some .bltu
  else if f₃ = 0b111 then some .bgeu
  else none

/-- `LOAD`. -/
def decodeLoad (f₃ : BitVec 3) : Option LoadOp :=
  if f₃ = 0b000 then some .lb
  else if f₃ = 0b001 then some .lh
  else if f₃ = 0b010 then some .lw
  else if f₃ = 0b100 then some .lbu
  else if f₃ = 0b101 then some .lhu
  else none

/-- `STORE`. -/
def decodeStore (f₃ : BitVec 3) : Option StoreOp :=
  if f₃ = 0b000 then some .sb
  else if f₃ = 0b001 then some .sh
  else if f₃ = 0b010 then some .sw
  else none

/-- `OP-IMM`; only the shifts have a `funct7`. -/
def decodeOpImm (f₃ : BitVec 3) (f₇ : BitVec 7) : Option AluOp :=
  if f₃ = 0b000 then some .add
  else if f₃ = 0b010 then some .slt
  else if f₃ = 0b011 then some .sltu
  else if f₃ = 0b100 then some .xor
  else if f₃ = 0b110 then some .or
  else if f₃ = 0b111 then some .and
  else if f₃ = 0b001 then if f₇ = 0b0000000 then some .sll else none
  else if f₇ = 0b0000000 then some .srl
  else if f₇ = 0b0100000 then some .sra
  else none

/-- `OP`. -/
def decodeOp (f₃ : BitVec 3) (f₇ : BitVec 7) : Option AluOp :=
  if f₇ = 0b0000000 then
    if f₃ = 0b000 then some .add
    else if f₃ = 0b001 then some .sll
    else if f₃ = 0b010 then some .slt
    else if f₃ = 0b011 then some .sltu
    else if f₃ = 0b100 then some .xor
    else if f₃ = 0b101 then some .srl
    else if f₃ = 0b110 then some .or
    else some .and
  else if f₇ = 0b0100000 then
    if f₃ = 0b000 then some .sub
    else if f₃ = 0b101 then some .sra
    else none
  else none

/-- The multiplies, `OP` with `funct7` equal to one. -/
def decodeMul (f₃ : BitVec 3) (f₇ : BitVec 7) : Option MulOp :=
  if f₇ = 0b0000001 then
    if f₃ = 0b000 then some .mul
    else if f₃ = 0b001 then some .mulh
    else if f₃ = 0b011 then some .mulhu
    else none
  else none

/-- Decode an instruction word; `m` enables the multiplies. -/
def decode (m : Bool) (w : Word) : Option Instr :=
  if opcode w = 0b0110111 then some (.lui (rd w) (immU w))
  else if opcode w = 0b0010111 then some (.auipc (rd w) (immU w))
  else if opcode w = 0b1101111 then some (.jal (rd w) (immJ w))
  else if opcode w = 0b1100111 then
    if funct3 w = 0b000 then some (.jalr (rd w) (rs1 w) (immI w)) else none
  else if opcode w = 0b1100011 then
    (decodeBranch (funct3 w)).map fun op => .branch op (rs1 w) (rs2 w) (immB w)
  else if opcode w = 0b0000011 then
    (decodeLoad (funct3 w)).map fun op => .load op (rd w) (rs1 w) (immI w)
  else if opcode w = 0b0100011 then
    (decodeStore (funct3 w)).map fun op => .store op (rs1 w) (rs2 w) (immS w)
  else if opcode w = 0b0010011 then
    (decodeOpImm (funct3 w) (funct7 w)).map fun op => .opImm op (rd w) (rs1 w) (immI w)
  else if opcode w = 0b0110011 then
    ((decodeOp (funct3 w) (funct7 w)).map fun op => .op op (rd w) (rs1 w) (rs2 w)) <|>
    if m then (decodeMul (funct3 w) (funct7 w)).map fun op => .mul op (rd w) (rs1 w) (rs2 w)
    else none
  else if opcode w = 0b0001111 then
    if funct3 w = 0b000 then some .fence else none
  else none

/-! ## Meaning -/

/-- Whether the branch is taken; the last two compare without a sign. -/
def BranchOp.holds : BranchOp → Word → Word → Bool
  | .beq, x, y => x == y
  | .bne, x, y => x != y
  | .blt, x, y => x.slt y
  | .bge, x, y => !x.slt y
  | .bltu, x, y => x.ult y
  | .bgeu, x, y => !x.ult y

/-- Shifts look at the low five bits of the second operand. -/
def AluOp.eval : AluOp → Word → Word → Word
  | .add, x, y => x + y
  | .sub, x, y => x - y
  | .sll, x, y => x <<< (y.toNat % 32)
  | .slt, x, y => if x.slt y then 1 else 0
  | .sltu, x, y => if x.ult y then 1 else 0
  | .xor, x, y => x ^^^ y
  | .srl, x, y => x >>> (y.toNat % 32)
  | .sra, x, y => x.sshiftRight (y.toNat % 32)
  | .or, x, y => x ||| y
  | .and, x, y => x &&& y

/-- The low word of the product, and the high word of the signed and of the unsigned one. -/
def MulOp.eval : MulOp → Word → Word → Word
  | .mul, x, y => x * y
  | .mulh, x, y => (x.signExtend 64 * y.signExtend 64).extractLsb' 32 32
  | .mulhu, x, y => (x.setWidth 64 * y.setWidth 64).extractLsb' 32 32

/-- The number of bytes of an access. -/
def LoadOp.size : LoadOp → ℕ
  | .lb | .lbu => 1
  | .lh | .lhu => 2
  | .lw => 4

@[inherit_doc LoadOp.size]
def StoreOp.size : StoreOp → ℕ
  | .sb => 1
  | .sh => 2
  | .sw => 4

/-- The value loaded from address `a`. -/
def LoadOp.value (byte : Word → BitVec 8) (a : Word) : LoadOp → Word
  | .lb => (byte a).signExtend 32
  | .lh => (byte (a + 1) ++ byte a).signExtend 32
  | .lw => byte (a + 3) ++ byte (a + 2) ++ byte (a + 1) ++ byte a
  | .lbu => (byte a).setWidth 32
  | .lhu => (byte (a + 1) ++ byte a).setWidth 32

/-- The bytes stored at address `a`. -/
def StoreOp.bytes (a v : Word) : StoreOp → List (Word × BitVec 8)
  | .sb => [(a, v.extractLsb' 0 8)]
  | .sh => [(a, v.extractLsb' 0 8), (a + 1, v.extractLsb' 8 8)]
  | .sw => [(a, v.extractLsb' 0 8), (a + 1, v.extractLsb' 8 8), (a + 2, v.extractLsb' 16 8),
      (a + 3, v.extractLsb' 24 8)]

/-- The architectural state. -/
@[ext] structure State (n : ℕ) where
  regs : BitVec 5 → Word
  pc : Word
  mem : BitVec (n + 2) → BitVec 8

/-- What an instruction does. -/
structure Outcome where
  write : Option (BitVec 5 × Word)
  pc : Word
  bytes : List (Word × BitVec 8)
deriving DecidableEq, Repr

/-- Its effects. -/
def Outcome.commits (o : Outcome) : List Commit :=
  (match o.write with
    | some (rd, v) => commitReg rd v
    | none => []) ++
  if o.bytes = [] then [] else [.mem o.bytes]

namespace State

variable {n : ℕ} (s : State n)

/-- Register 0 reads as zero. -/
def get (r : BitVec 5) : Word := if r = 0 then 0 else s.regs r

/-- The byte at an address. -/
def byte (a : Word) : BitVec 8 := s.mem (a.setWidth (n + 2))

/-- The instruction word at the program counter, little endian. -/
def fetch : Word := LoadOp.lw.value s.byte s.pc

/-- What instruction `i` does. -/
def outcome : Instr → Outcome
  | .lui rd imm => ⟨some (rd, imm), s.pc + 4, []⟩
  | .auipc rd imm => ⟨some (rd, s.pc + imm), s.pc + 4, []⟩
  | .jal rd imm => ⟨some (rd, s.pc + 4), s.pc + imm, []⟩
  | .jalr rd rs1 imm => ⟨some (rd, s.pc + 4), (s.get rs1 + imm) &&& ~~~1#32, []⟩
  | .branch op rs1 rs2 imm =>
    ⟨none, if op.holds (s.get rs1) (s.get rs2) then s.pc + imm else s.pc + 4, []⟩
  | .load op rd rs1 imm => ⟨some (rd, op.value s.byte (s.get rs1 + imm)), s.pc + 4, []⟩
  | .store op rs1 rs2 imm => ⟨none, s.pc + 4, op.bytes (s.get rs1 + imm) (s.get rs2)⟩
  | .opImm op rd rs1 imm => ⟨some (rd, op.eval (s.get rs1) imm), s.pc + 4, []⟩
  | .op op rd rs1 rs2 => ⟨some (rd, op.eval (s.get rs1) (s.get rs2)), s.pc + 4, []⟩
  | .mul op rd rs1 rs2 => ⟨some (rd, op.eval (s.get rs1) (s.get rs2)), s.pc + 4, []⟩
  | .fence => ⟨none, s.pc + 4, []⟩

/-- Write one byte of the memory. -/
def poke (mem : BitVec (n + 2) → BitVec 8) (p : Word × BitVec 8) : BitVec (n + 2) → BitVec 8 :=
  fun k => if k = p.1.setWidth (n + 2) then p.2 else mem k

/-- The state after an instruction: register 0 is never written. -/
def apply (o : Outcome) : State n where
  regs :=
    match o.write with
    | some (rd, v) => fun r => if rd ≠ 0 ∧ r = rd then v else s.regs r
    | none => s.regs
  pc := o.pc
  mem := o.bytes.foldl poke s.mem

/-- Execute the instruction at the program counter; an illegal word does nothing. -/
def step (m : Bool) : State n :=
  match decode m s.fetch with
  | some i => s.apply (s.outcome i)
  | none => s

/-- Its effects. -/
def effects (m : Bool) : List Commit :=
  match decode m s.fetch with
  | some i => (s.outcome i).commits
  | none => []

variable {s} {m : Bool} {i : Instr}

theorem step_of_decode (h : decode m s.fetch = some i) : s.step m = s.apply (s.outcome i) := by
  rw [step, h]

theorem effects_of_decode (h : decode m s.fetch = some i) :
    s.effects m = (s.outcome i).commits := by
  rw [effects, h]

end State

/-- The instruction set as a machine. -/
def machine (n : ℕ) (m : Bool) : Mealy (State n) Unit Commit where
  step s _ := s.step m
  out s _ := s.effects m

/-- The state after `k` instructions. -/
def run {n : ℕ} (m : Bool) (s : State n) (k : ℕ) : State n :=
  (machine n m).run s (List.replicate k ())

/-- The effects of the first `k` instructions. -/
def trace {n : ℕ} (m : Bool) (s : State n) (k : ℕ) : List Commit :=
  (machine n m).trace s (List.replicate k ())

/-- What every instruction preserves holds along the run. -/
theorem run_invariant {n : ℕ} {m : Bool} {Inv : State n → Prop}
    (hstep : ∀ s, Inv s → Inv (s.step m)) {s : State n} (h : Inv s) (k : ℕ) :
    Inv (run m s k) := by
  induction k generalizing s with
  | zero => exact h
  | succ k ih => exact ih (hstep s h)

/-! ## Well-behaved programs -/

/-- An address is a multiple of `k`. -/
def Aligned (k : ℕ) (a : Word) : Prop := a.toNat % k = 0

instance (k : ℕ) (a : Word) : Decidable (Aligned k a) := inferInstanceAs (Decidable (_ = _))

/-- The data access of an instruction is an aligned RAM access. -/
def Instr.AccessOk {n : ℕ} (s : State n) : Instr → Prop
  | .load width _ rs1 imm =>
    ramSel (s.get rs1 + imm) = true ∧ Aligned width.size (s.get rs1 + imm)
  | .store width rs1 _ imm =>
    ramSel (s.get rs1 + imm) = true ∧ Aligned width.size (s.get rs1 + imm)
  | _ => True

/-- The instruction at the program counter is legal, lies in RAM, goes on at a
multiple of four, and its data access is an aligned RAM access. -/
structure State.Ok {n : ℕ} (m : Bool) (s : State n) : Prop where
  ram : ramSel s.pc = true
  aligned : Aligned 4 s.pc
  legal : ∃ i, decode m s.fetch = some i ∧ i.AccessOk s ∧ Aligned 4 (s.outcome i).pc

/-- The instruction is not a `JALR` whose target sum is odd. -/
def State.EvenTarget {n : ℕ} (m : Bool) (s : State n) : Prop :=
  ∀ rd rs1 imm, decode m s.fetch = some (.jalr rd rs1 imm) →
    (s.get rs1 + imm).getLsbD 0 = false

end HfRisc.Isa
