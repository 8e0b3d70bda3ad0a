import HfRisc.Pipe.Sequential
import HfRisc.Rtl.Step

/-!
# The phases of the pipeline

Where the instruction at the sequential program counter is: about to be fetched
(`AtFetch`), in decode (`AtDecode`), in execute (`AtExecute`), waiting for its
data (`AtLoad`, `AtAccess`), multiplying (`AtMul`, `AtRelease`), or preempted by
an interrupt that has just been accepted (`AtAck`). Each phase relates a state of
the system to a state of the sequential machine in which everything before that
instruction has committed.

An instruction is `Harmless` in execute when it changes nothing there; bubbles
and the NOP of the interrupt vector are.
-/

namespace HfRisc.Pipe

open HfRisc.Rtl HfRisc.Lib

variable {n : ℕ} {α : Type} {c : Core α} (L : Contract c)

/-- In execute with these registers, `e` writes nothing and stays on the
straight line. -/
structure Harmless (e : Execute) (regs : BitVec 5 → Word) : Prop where
  jump : e.ctl.jump = 0
  system : e.except = false
  untaken : ∀ p q,
    e.branchTaken (L.final (e.aluSrc1 regs p) (e.aluSrc2 regs q) e.ctl.aluOp) = false
  store : e.regToMem = false
  fast : L.slow e.ctl.aluOp = false
  code : e.ctl.aluOp ≠ 0b0011
  discard : e.ctl.regWrite = true ∨ e.memToReg = true → e.rd = 0

/-- What is in execute changes nothing: registers and RAM are the sequential
machine's, and stay so while the fetch and decode stages move. -/
structure Calm (s : System n α) (σ : Seq n) : Prop where
  ram : s.ram = σ.ram
  regs : s.core.regs = σ.regs
  stall : s.core.stallReg = false
  harmless : Harmless L s.core.ex σ.regs
  late : s.core.memToRegDly = true → s.core.ex.rd = 0
  unit : L.Idle s.core.alu ∨ L.Cooling s.core.alu

/-- The instruction about to be fetched. -/
structure AtFetch (s : System n α) (σ : Seq n) : Prop extends Calm L s σ where
  pc : s.core.pc = σ.pc
  noLoad : s.core.ex.memToReg = false

/-- The instruction in decode. A harmless load may still be in execute. -/
structure AtDecode (s : System n α) (σ : Seq n) : Prop extends Calm L s σ where
  settled : s.intc.Settled
  ack : s.core.irqAckDly = false
  pc : s.core.pc = σ.pc + 4
  pcLast : s.core.pcLast = σ.pc
  bds : s.core.bds = false
  decoded : ∃ w, s.core.ex = decode c.control w
  stray : s.core.ex.memToReg = true → s.core.dataAccessDly = false
  idle : L.Idle s.core.alu
  fetched : s.Fetched σ.pc

/-- The program counters while the instruction is in execute. -/
structure ExecutePcs (s : System n α) (σ : Seq n) : Prop where
  pc : s.core.pc = σ.pc + 8
  pcLast : s.core.pcLast = σ.pc + 4
  pcLast2 : s.core.pcLast2 = σ.pc

/-- The instruction in execute, its successor fetched. -/
structure AtExecute (s : System n α) (σ : Seq n) : Prop where
  ram : s.ram = σ.ram
  regs : s.core.regs = σ.regs
  settled : s.intc.Settled
  ack : s.core.irqAckDly = false
  ex : s.core.ex = σ.ex c
  pcs : ExecutePcs s σ
  bds : s.core.bds = false
  stall : s.core.stallReg = false
  late : s.core.memToRegDly = false
  access : s.core.dataAccessDly = false
  unit : L.Idle s.core.alu
  fetched : s.Fetched (σ.pc + 4)
  inRam : ramSel σ.pc = true

/-- A load whose data has arrived. -/
structure AtLoad (s : System n α) (σ : Seq n) : Prop where
  ram : s.ram = σ.ram
  regs : s.core.regs = σ.regs
  settled : s.intc.Settled
  ack : s.core.irqAckDly = false
  ex : s.core.ex = σ.ex c
  load : (σ.ex c).memToReg = true
  pc : s.core.pc = σ.pc + 4
  pcLast : s.core.pcLast = σ.pc + 4
  pcLast2 : s.core.pcLast2 = σ.pc
  bds : s.core.bds = false
  stall : s.core.stallReg = false
  late : s.core.memToRegDly = true
  access : s.core.dataAccessDly = true
  unit : L.Idle s.core.alu
  data : ∀ i, ramSel (σ.out c L).result = true →
    s.dataIn c i = σ.ram (wordIndex n (σ.out c L).result)

/-- The second cycle of an access with nothing left to write: a store that has
committed, or a load into register 0. -/
structure AtAccess (s : System n α) (σ : Seq n) : Prop where
  ram : s.ram = σ.ram
  regs : s.core.regs = σ.regs
  settled : s.intc.Settled
  ack : s.core.irqAckDly = false
  pc : s.core.pc = σ.pc
  pcLast : s.core.pcLast = σ.pc
  bds : s.core.bds = false
  stall : s.core.stallReg = false
  isAccess : s.core.ex.dataAccess = true
  access : s.core.dataAccessDly = true
  jump : s.core.ex.ctl.jump = 0
  branch : s.core.ex.ctl.branch = 0
  fast : L.slow s.core.ex.ctl.aluOp = false
  discard : s.core.ex.ctl.regWrite = true ∨ s.core.memToRegDly = true → s.core.ex.rd = 0
  unit : L.Idle s.core.alu

/-- A slow computation with `k` more cycles to wait. Its destination register
holds transient values, and nothing reads it. -/
structure AtMul (k : ℕ) (s : System n α) (σ : Seq n) : Prop where
  ram : s.ram = σ.ram
  regs : ∀ r, r ≠ (σ.ex c).rd ∨ r = 0 → s.core.regs r = σ.regs r
  settled : s.intc.Settled
  ack : s.core.irqAckDly = false
  ex : s.core.ex = σ.ex c
  slow : L.slow (σ.ex c).ctl.aluOp = true
  pcs : ExecutePcs s σ
  bds : s.core.bds = false
  late : s.core.memToRegDly = false
  access : s.core.dataAccessDly = false
  unit : L.Busy s.core.alu (σ.op1 c) (σ.op2 c) (σ.ex c).ctl.aluOp k

/-- A slow computation that has just committed; the fetch will be replayed. -/
structure AtRelease (s : System n α) (σ : Seq n) : Prop where
  ram : s.ram = σ.ram
  regs : s.core.regs = σ.regs
  settled : s.intc.Settled
  ack : s.core.irqAckDly = false
  pc : s.core.pc = σ.pc + 4
  pcLast : s.core.pcLast = σ.pc
  bds : s.core.bds = false
  stall : s.core.stallReg = true
  slow : L.slow s.core.ex.ctl.aluOp = true
  exclusive : s.core.ex.ctl.Exclusive
  noStore : s.core.ex.regToMem = false
  noLoad : s.core.ex.memToReg = false
  unit : L.Released s.core.alu

/-- An interrupt was accepted in the previous cycle: the sequential machine is
at the vector, the request is still up and will be accepted a second time. -/
structure AtAck (s : System n α) (σ : Seq n) : Prop extends AtFetch L s σ where
  req : s.intc.pulseState = .req ∧ s.intc.pulseNextState = .req ∧ s.intc.irq = true
  ack : s.core.irqAckDly = true
  vector : s.intc.irqVector = σ.pc
  bds : s.core.bds = false

/-- The cycle after `AtAck`: the request is down and the first word of the
handler is in decode while it is fetched once more. -/
structure AtVector (s : System n α) (σ : Seq n) : Prop extends AtFetch L s σ where
  req : s.intc.pulseState = .req ∧ s.intc.pulseNextState = .ackn ∧ s.intc.irq = false
  ack : s.core.irqAckDly = true
  bds : s.core.bds = false
  fetched : s.Fetched σ.pc

end HfRisc.Pipe
