import HfRisc.Pipe.CoreIm
import HfRisc.Results.Rv32iInterrupts

/-!
# Interrupts of the rv32im core

The acknowledge does not look at the wait for the multiplier. A request that is up when
a multiply is released is acknowledged in the cycle that sends the fetch back, so the
word behind the multiply enters execute before the handler does, and again when the
handler returns; one that comes up a cycle later saves the address of the multiply
itself. Interrupts are precise when no request comes in these cycles.
-/

namespace HfRisc.Results

open HfRisc.Rtl HfRisc.Lib HfRisc.Pipe

variable {n : ℕ}

/-- The cycles a run may consist of: nothing but the program and the handler
constrains them, except that no request comes while a multiply holds the pipeline. -/
def ServiceableIm (s : System n MulAlu) (i : Input) : Prop :=
  Serviceable rv32im s i ∧ Prompt rv32im s

instance (s : System n MulAlu) (i : Input) : Decidable (ServiceableIm s i) :=
  inferInstanceAs (Decidable (_ ∧ (_ → _)))

theorem precise_serviceableIm : Precise (n := n) contractRv32im ServiceableIm :=
  fun _ hi => hi

/-- In every run in which no request comes while a multiply holds the pipeline,
interrupts are precise: the instructions finished up to the handler are a prefix of the
uninterrupted execution, the saved address less four is that of the first instruction
not in it, and a program started there finishes the rest. -/
theorem rv32im_interrupt_precise {s : System n MulAlu}
    (h : Reachable contractRv32im ServiceableIm s) {x : ℕ → Input} {T : ℕ}
    (hx : ∀ N ≤ T + 2, ServiceableIm ((System.machine rv32im).run s (Mealy.inputs x N)) (x N))
    (hfirst : ∀ N < T, accepts rv32im ((System.machine rv32im).run s (Mealy.inputs x N)) = false)
    (hacc : accepts rv32im ((System.machine rv32im).run s (Mealy.inputs x T)) = true) :
    ∃ σ ios, Executes contractRv32im ServiceableIm (withdraw s) σ ∧
      (System.machine rv32im).trace s (Mealy.inputs x (T + 3)) =
        (Seq.machine rv32im contractRv32im).trace σ ios ∧
      ((System.machine rv32im).run s (Mealy.inputs x (T + 3))).intc.irqEpc - 4 =
        ((Seq.machine rv32im contractRv32im).run σ ios).pc ∧
      Executes contractRv32im ServiceableIm
        ((System.machine rv32im).run s (Mealy.inputs x (T + 3)))
        { (Seq.machine rv32im contractRv32im).run σ ios with
          pc := ((System.machine rv32im).run s (Mealy.inputs x T)).intc.irqVector } ∧
      ∀ s' τ, Start contractRv32im s' τ →
        τ.regs = ((Seq.machine rv32im contractRv32im).run σ ios).regs →
        τ.ram = ((Seq.machine rv32im contractRv32im).run σ ios).ram →
        τ.pc = ((System.machine rv32im).run s (Mealy.inputs x (T + 3))).intc.irqEpc - 4 →
        Executes contractRv32im ServiceableIm s'
          ((Seq.machine rv32im contractRv32im).run σ ios) :=
  precise_of_accept precise_serviceableIm h hx hfirst hacc

/-! ## A tick behind a multiply, and one in it -/

/-- `mul x1, x2, x3` and `addi x4, x4, 1`; at the vector a handler that jumps to the
saved address less four. -/
def multiplyThenAdd : Seq 14 where
  regs := fun k => if k = 2 then 2 else if k = 3 then 3 else 0
  pc := base
  ram := fun k => swapBytes (
    if k = 0 then 0x023100b3                -- mul x1, x2, x3
    else if k = 1 then 0x00120213           -- addi x4, x4, 1
    else if k = 17 then 0xf00002b7          -- lui x5, 0xf0000
    else if k = 18 then 0x0402a303          -- lw x6, 64(x5)
    else if k = 19 then 0xffc30313          -- addi x6, x6, -4
    else if k = 20 then 0x00030067          -- jalr x0, 0(x6)
    else nop)

/-- The state in which it starts. -/
def tickedMultiply : System 14 MulAlu := boot rv32im MulAlu.idle armedIntc multiplyThenAdd

theorem start_tickedMultiply : Start contractRv32im tickedMultiply multiplyThenAdd :=
  start_boot MulAlu.idle_idle List.mem_cons_self multiplyThenAdd

/-- Line 0 is high in one cycle, so late that no request comes while the multiply holds the
pipeline. -/
def tickAtLast (k : ℕ) : Input := if k = 25 then tickInput else calmInput

/-- The tick is accepted in cycle 28, with the multiply and the addition done. -/
theorem rv32im_interrupt_precise_tick :
    ∃ σ ios, Executes contractRv32im ServiceableIm (withdraw tickedMultiply) σ ∧
      (System.machine rv32im).trace tickedMultiply (Mealy.inputs tickAtLast 31) =
        (Seq.machine rv32im contractRv32im).trace σ ios ∧
      ((System.machine rv32im).run tickedMultiply
        (Mealy.inputs tickAtLast 31)).intc.irqEpc - 4 =
        ((Seq.machine rv32im contractRv32im).run σ ios).pc ∧
      Executes contractRv32im ServiceableIm
        ((System.machine rv32im).run tickedMultiply (Mealy.inputs tickAtLast 31))
        { (Seq.machine rv32im contractRv32im).run σ ios with
          pc := ((System.machine rv32im).run tickedMultiply
            (Mealy.inputs tickAtLast 28)).intc.irqVector } ∧
      ∀ s' τ, Start contractRv32im s' τ →
        τ.regs = ((Seq.machine rv32im contractRv32im).run σ ios).regs →
        τ.ram = ((Seq.machine rv32im contractRv32im).run σ ios).ram →
        τ.pc = ((System.machine rv32im).run tickedMultiply
          (Mealy.inputs tickAtLast 31)).intc.irqEpc - 4 →
        Executes contractRv32im ServiceableIm s'
          ((Seq.machine rv32im contractRv32im).run σ ios) :=
  rv32im_interrupt_precise (T := 28) (.start start_tickedMultiply) (by decide +kernel)
    (by decide +kernel) (by decide +kernel)

/-- Line 0 is high in one cycle of the multiply. -/
def tickAtFive (k : ℕ) : Input := if k = 5 then tickInput else calmInput

/-- The addition behind the multiply is executed twice. -/
theorem rv32im_interrupt_twice :
    Start contractRv32im tickedMultiply multiplyThenAdd ∧
      (∀ N ≤ 39, Serviceable rv32im
        ((System.machine rv32im).run tickedMultiply (Mealy.inputs tickAtFive N)) (tickAtFive N)) ∧
      (System.machine rv32im).trace tickedMultiply (Mealy.inputs (fun _ => calmInput) 30) =
        [.reg 1 6, .reg 4 1] ∧
      (System.machine rv32im).trace tickedMultiply (Mealy.inputs tickAtFive 40) =
        [.reg 1 6, .reg 4 1, .reg 5 0xf0000000, .reg 6 (base + 8), .reg 6 (base + 4),
          .reg 4 2] := by
  refine ⟨start_tickedMultiply, ?_⟩
  decide +kernel

end HfRisc.Results
