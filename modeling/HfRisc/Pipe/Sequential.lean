import HfRisc.Lib.Mealy
import HfRisc.Rtl.System

/-!
# One instruction at a time

The reference the pipeline is compared with: the decode and execute logic of
the datapath applied to one instruction after another, with no stages. `Seq`
has only the architectural state: registers, program counter and RAM.

A step of the sequential machine is one instruction. Its input is the word that
the bus returns for a load outside RAM, where the answer is the peripheral's.

`Contract` is what the pipeline proof needs to know about a core's ALU: what it
computes, which codes keep the instruction in execute for more than one cycle,
and the life cycle of such an instruction.
-/

namespace HfRisc.Pipe

open HfRisc.Rtl HfRisc.Lib

/-- What a core promises to the pipeline. An ALU is `Idle`, or `Busy` with
operands it has captured and a number of cycles to go, or just `Released` from
them, or `Cooling` for one more cycle in which decode is held. -/
structure Contract {α : Type} (c : Core α) where
  exclusive : ∀ o f₃ f₇, (c.control o f₃ f₇).Exclusive
  bubble : c.control 0 0 0 = .others
  nop : c.control 0b0010011 0 0 = .compute 0b001 0b0100
  final : Word → Word → BitVec 4 → AluOut
  slow : BitVec 4 → Bool
  latency : ℕ
  Idle : α → Prop
  Busy : α → Word → Word → BitVec 4 → ℕ → Prop
  Released : α → Prop
  Cooling : α → Prop
  slow_le : ∀ {op}, slow op = true → 0b1100 ≤ op
  idle_wait : ∀ {a op}, Idle a → c.aluWait a op = slow op
  idle_kill : ∀ {a}, Idle a → c.aluWait3 a = false
  fast_alu : ∀ {a x y op}, slow op = false → op ≠ 0b0011 → c.alu a x y op = final x y op
  idle_step : ∀ {a x y op}, Idle a → slow op = false → Idle (c.aluStep a x y op)
  start : ∀ {a x y op}, Idle a → slow op = true →
    ∃ k ≤ latency, Busy (c.aluStep a x y op) x y op k
  busy_wait : ∀ {a x y op k}, Busy a x y op k → c.aluWait a op = true
  busy_step : ∀ {a x y op k x' y'}, Busy a x y op (k + 1) →
    Busy (c.aluStep a x' y' op) x y op k
  busy_alu : ∀ {a x y op x' y'}, Busy a x y op 0 →
    (c.alu a x' y' op).result = (final x y op).result
  busy_done : ∀ {a x y op x' y'}, Busy a x y op 0 → Released (c.aluStep a x' y' op)
  released_wait : ∀ {a op}, Released a → c.aluWait a op = false
  released_step : ∀ {a x y op}, Released a → Cooling (c.aluStep a x y op)
  cooling_wait : ∀ {a op}, Cooling a → slow op = false → c.aluWait a op = false
  cooling_kill : ∀ {a}, Cooling a → c.aluWait3 a = true
  cooling_step : ∀ {a x y op}, Cooling a → slow op = false → Idle (c.aluStep a x y op)

/-- The architectural state. -/
@[ext] structure Seq (n : ℕ) where
  regs : BitVec 5 → Word
  pc : Word
  ram : BitVec n → Word

namespace Seq

variable {n : ℕ} {α : Type} (c : Core α) (L : Contract c) (σ : Seq n)

/-- The instruction word at the program counter. -/
def fetch : Word := swapBytes (σ.ram (wordIndex n σ.pc))

/-- The decoded instruction at the program counter. -/
def ex : Execute := decode c.control σ.fetch

/-- The first operand. -/
def op1 : Word := (σ.ex c).aluSrc1 σ.regs σ.pc

/-- The second operand. -/
def op2 : Word := (σ.ex c).aluSrc2 σ.regs (σ.pc + 8)

/-- What the ALU computes for the instruction. -/
def out : AluOut := L.final (σ.op1 c) (σ.op2 c) (σ.ex c).ctl.aluOp

/-- Whether the instruction leaves the straight line. -/
def taken : Bool := (σ.ex c).branchTaken (σ.out c L) || (σ.ex c).jumpTaken

/-- The bus word a load reads. -/
def loadWord (io : Word) : Word :=
  if ramSel (σ.out c L).result then σ.ram (wordIndex n (σ.out c L).result) else io

/-- Whether the instruction writes its destination register. -/
def writes : Bool := (σ.ex c).ctl.regWrite || (σ.ex c).memToReg

/-- What it writes there. -/
def value (io : Word) : Word :=
  (σ.ex c).writeData (σ.out c L).result (σ.loadWord c L io) (σ.pc + 4)

/-- The byte lanes and the data of a store. -/
def lanes : BitVec 4 := (σ.ex c).dataW (σ.out c L).result

@[inherit_doc lanes]
def data : Word := (σ.ex c).dataOut (readReg σ.regs (σ.ex c).rs2)

/-- Execute one instruction. -/
def next (io : Word) : Seq n where
  regs := if σ.writes c then writeReg σ.regs (σ.ex c).rd (σ.value c L io) else σ.regs
  pc := if σ.taken c L then (σ.ex c).branch σ.regs σ.pc else σ.pc + 4
  ram :=
    if (σ.ex c).regToMem = true ∧ ramSel (σ.out c L).result = true then
      writeRam σ.ram (σ.out c L).result (σ.lanes c L) (σ.data c)
    else σ.ram

/-- The register file write of one instruction. -/
def effectReg (io : Word) : List Commit :=
  if σ.writes c then commitReg (σ.ex c).rd (σ.value c L io) else []

/-- The bus write of one instruction. -/
def effectMem : List Commit :=
  if (σ.ex c).regToMem then commitMem (σ.out c L).result (σ.lanes c L) (σ.data c) else []

/-- The effects of one instruction. -/
def effects (io : Word) : List Commit := σ.effectReg c L io ++ σ.effectMem c L

/-- The sequential machine. -/
def machine : Mealy (Seq n) Word Commit where
  step := Seq.next c L
  out := Seq.effects c L

end Seq

end HfRisc.Pipe
