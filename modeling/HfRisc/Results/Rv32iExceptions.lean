import HfRisc.Pipe.CoreI
import HfRisc.Pipe.Traps
import HfRisc.Results.Programs
import HfRisc.Results.Rv32iInterrupts

/-!
# Exceptions and illegal instructions of the rv32i core

Exceptions are precise when the word two behind the `ECALL` is harmless. Any
other word there commits before the handler does.

The decoder has a row for `SYSTEM`, which raises the exception, and a `when others`
that makes a bubble. So an illegal word traps exactly when its opcode is `SYSTEM`.
Under the other opcodes it is skipped, or it executes as the instruction next to it
in the table, since `funct3` of `JALR` and `funct7` of `SLLI` and of six rows of `OP`
are not looked at.
-/

namespace HfRisc.Results

open HfRisc.Rtl HfRisc.Lib HfRisc.Pipe

variable {n : ℕ}

/-- With a harmless word two behind, an exception is precise: nothing commits
before the handler, the saved address less four is that of the word behind the
exception, and execution resumes there. -/
theorem rv32i_exception_precise {s₀ s : System n Unit} {σ₀ : Seq n}
    (hstart : Start contractRv32i s₀ σ₀) (hrest : s₀.intc.Resting) {x : ℕ → Input} {T : ℕ}
    (hx : ∀ N ≤ T + 2, Trappable contractRv32i
      ((System.rawMachine rv32i).run s₀ (Mealy.inputs x N)) (x N))
    (hs : s = (System.rawMachine rv32i).run s₀ (Mealy.inputs x T))
    (hexc : s.core.ex.except = true) :
    s.core.ex = decode rv32i.control (swapBytes (s.ram (wordIndex n s.core.pcLast2))) ∧
      (System.rawMachine rv32i).trace s₀ (Mealy.inputs x (T + 3)) =
        (System.rawMachine rv32i).trace s₀ (Mealy.inputs x T) ∧
      ((System.rawMachine rv32i).run s₀ (Mealy.inputs x (T + 3))).intc.irqEpc - 4 =
        s.core.pcLast2 + 4 ∧
      Executes contractRv32i (Serviceable rv32i)
        ((System.rawMachine rv32i).run s₀ (Mealy.inputs x (T + 3)))
        ⟨s.core.regs, s.intc.irqVector, s.ram⟩ ∧
      ∀ s', Start contractRv32i s' ⟨s.core.regs,
          ((System.rawMachine rv32i).run s₀ (Mealy.inputs x (T + 3))).intc.irqEpc - 4, s.ram⟩ →
        Executes contractRv32i (Serviceable rv32i) s' ⟨s.core.regs, s.core.pcLast2 + 4, s.ram⟩ := by
  rw [← System.machine_rv32i] at hx hs ⊢
  exact precise_of_trap precise_serviceable hstart hrest hx hs hexc

/-! ## A call at the start of the RAM -/

/-- `ECALL` at the start of the RAM, `w` two words behind, NOPs elsewhere. -/
def calling (w : Word) : Seq 14 where
  regs := fun _ => 0
  pc := base
  ram := fun k => swapBytes (if k = 0 then 0x00000073 else if k = 2 then w else nop)

/-- The state in which `calling` starts, with the handler 64 bytes behind. -/
def callState (w : Word) : System 14 Unit :=
  boot rv32i () { idleIntc with irqVector := base + 64 } (calling w)

theorem start_callState (w : Word) : Start contractRv32i (callState w) (calling w) :=
  start_boot trivial List.mem_cons_self _

theorem resting_callState (w : Word) : (callState w).intc.Resting :=
  ⟨rfl, nofun, nofun⟩

/-- `addi x3, x0, 7`. -/
def addiThree : Word := 0x00700193

theorem trappable_nop : ∀ N ≤ 4, Trappable contractRv32i
    ((System.rawMachine rv32i).run (callState nop) (Mealy.inputs (fun _ => calmInput) N))
    calmInput := by
  intro N hN
  set s := (System.rawMachine rv32i).run (callState nop) (Mealy.inputs (fun _ => calmInput) N)
    with hs
  have hcode : (s.core.bubble rv32i s.intc.irq = false → ramSel s.core.pcLast = true) ∧
      (s.core.ex.except = true → ramSel s.intc.irqVector = true ∧ ramSel s.core.pc = true ∧
        swapBytes (s.ram (wordIndex 14 s.core.pc)) = nop) := by
    rw [hs]
    revert hN
    clear hs
    revert N
    decide +kernel
  obtain ⟨hcode, hexc⟩ := hcode
  exact
    { toUndisturbed := undisturbed_calmInput s
      code := hcode
      vector := fun h => (hexc h).1
      behind := fun h => ⟨(hexc h).2.1, by
        rw [(hexc h).2.2]
        exact harmless_nop contractRv32i _⟩ }

/-- The run of `calling w` without interrupts. -/
def callRun (w : Word) (N : ℕ) : System 14 Unit :=
  (System.rawMachine rv32i).run (callState w) (Mealy.inputs (fun _ => calmInput) N)

/-- What `calling w` has committed after `N` cycles. -/
def callTrace (w : Word) (N : ℕ) : List Commit :=
  (System.rawMachine rv32i).trace (callState w) (Mealy.inputs (fun _ => calmInput) N)

/-- With a NOP two behind. -/
theorem rv32i_exception_precise_nop :
    (callRun nop 2).core.ex =
        decode rv32i.control (swapBytes ((callRun nop 2).ram
          (wordIndex 14 (callRun nop 2).core.pcLast2))) ∧
      callTrace nop 5 = callTrace nop 2 ∧
      (callRun nop 5).intc.irqEpc - 4 = (callRun nop 2).core.pcLast2 + 4 ∧
      Executes contractRv32i (Serviceable rv32i) (callRun nop 5)
        ⟨(callRun nop 2).core.regs, (callRun nop 2).intc.irqVector, (callRun nop 2).ram⟩ ∧
      ∀ s', Start contractRv32i s' ⟨(callRun nop 2).core.regs, (callRun nop 5).intc.irqEpc - 4,
          (callRun nop 2).ram⟩ →
        Executes contractRv32i (Serviceable rv32i) s'
          ⟨(callRun nop 2).core.regs, (callRun nop 2).core.pcLast2 + 4, (callRun nop 2).ram⟩ :=
  rv32i_exception_precise (T := 2) (start_callState nop) (resting_callState nop) trappable_nop rfl
    (by decide +kernel)

/-- `addi x3, x0, 7` two behind the `ECALL` commits, and only then does the
handler execute. -/
theorem rv32i_exception_imprecise :
    Start contractRv32i (callState addiThree) (calling addiThree) ∧
      (callState addiThree).intc.Resting ∧
      (∀ N, Undisturbed (callRun addiThree N) calmInput) ∧
      (callRun addiThree 2).core.ex.except = true ∧ (callRun addiThree 2).core.pcLast2 = base ∧
      callTrace addiThree 2 = [] ∧ callTrace addiThree 5 = [.reg 3 7] ∧
      (callRun addiThree 5).core.pcLast2 = base + 64 ∧
      (callRun addiThree 5).intc.irqEpc - 4 = base + 4 := by
  refine ⟨start_callState _, resting_callState _, fun _ => undisturbed_calmInput _, ?_⟩
  decide +kernel

end HfRisc.Results

/-! ## Illegal instructions of the rv32i core -/

namespace HfRisc.Results

open HfRisc.Rtl HfRisc.Lib HfRisc.Pipe

variable {n : ℕ} {s : System n Unit} {σ : Seq n} {i : Input}

/-- Neither `FENCE` nor another instruction of RV32I; the last two are `ECALL` and
`EBREAK`. -/
def Illegal (w : Word) : Prop :=
  Isa.decode false w = none ∧ w ≠ 0x00000073 ∧ w ≠ 0x00100073

instance (w : Word) : Decidable (Illegal w) := inferInstanceAs (Decidable (_ ∧ _))

/-- The instruction in execute, at the address of `σ`, raises the exception: the next
fetch is from the vector, the address two words further on is saved, and registers
and memory stay as they are. -/
structure RaisesException (s : System n Unit) (i : Input) (σ : Seq n) : Prop where
  raised : s.core.ex.except = true
  vector : (s.step rv32i i).core.pc = s.intc.irqVector
  epc : (s.step rv32i i).intc.irqEpc = σ.pc + 8
  regs : (s.step rv32i i).core.regs = s.core.regs
  ram : (s.step rv32i i).ram = s.ram

/-- What both branches do not ask for, the conditional does not. -/
theorem ite_branch_ne {p : Prop} [Decidable p] {c d : Control} (hc : p → c.branch ≠ 0b111)
    (hd : ¬ p → d.branch ≠ 0b111) : (if p then c else d).branch ≠ 0b111 := by
  split
  · exact hc ‹_›
  · exact hd ‹_›

/-- Only the row of `SYSTEM` asks for the exception. -/
theorem except_iff_opcode : (σ.ex rv32i).except = true ↔ Isa.opcode σ.fetch = 0b1110011 := by
  rw [Execute.except, beq_iff_eq, Isa.ctl_eq]
  constructor
  · intro h
    by_contra hne
    revert h
    show (controlRv32i _ _ _).branch ≠ 0b111
    generalize Isa.opcode σ.fetch = o at hne
    unfold controlRv32i controlRows controlOpImm controlOpI
    repeat' refine ite_branch_ne (fun _ => ?_) (fun _ => ?_)
    all_goals first | decide | exact absurd ‹_› hne
  · intro h
    rw [h]
    rfl

/-- In every state with an instruction in execute, without a stall: the word raises the
exception exactly when its opcode is `SYSTEM`, whether it is illegal or not. -/
theorem rv32i_illegal_traps (h : AtExecute contractRv32i s σ) (hstall : i.stall = false) :
    RaisesException s i σ ↔ Isa.opcode σ.fetch = 0b1110011 := by
  rw [← except_iff_opcode]
  refine ⟨fun hr => ?_, fun hexc => ?_⟩
  · rw [← h.ex]
    exact hr.raised
  have hbranch : (σ.ex rv32i).ctl.branch ≠ 0 := by
    rw [Execute.except, beq_iff_eq] at hexc
    rw [hexc]
    decide
  have hshape := (σ.exclusive contractRv32i).ofBranch hbranch
  have hplain : (σ.ex rv32i).dataAccess = false := by
    by_contra hacc
    rw [Bool.not_eq_false, Execute.dataAccess, Bool.or_eq_true] at hacc
    rcases hacc with hst | hld
    · exact hbranch ((σ.exclusive contractRv32i).ofStore (Seq.regToMem_iff.mp hst)).2.1
    · exact hbranch ((σ.exclusive contractRv32i).ofLoad (Seq.memToReg_iff.mp hld)).2.2.1
  have hwrites : σ.writes rv32i = false := by
    rw [Seq.writes_of_plain hplain]
    exact hshape.1
  obtain ⟨hfetch, hepc⟩ := h.step_except hstall rfl hplain 0 hexc
  rw [Seq.next_of_idle hwrites (Seq.noStore hplain)] at hfetch
  exact
    { raised := by rw [h.ex, hexc]
      vector := hfetch.pc
      epc := hepc
      regs := by rw [hfetch.regs, h.regs]
      ram := by rw [hfetch.ram, h.ram] }

/-! ## Two illegal words -/

/-- One word of program, with operands in `x2` and `x3`. -/
def lone (w : Word) : Seq 14 where
  regs := fun k => if k = 2 then 3 else if k = 3 then 4 else 0
  pc := base
  ram := fun k => if k = 0 then swapBytes w else swapBytes nop

/-- The word has entered execute. -/
def entered (w : Word) : System 14 Unit :=
  ((boot rv32i () idleIntc (lone w)).step rv32i calmInput).step rv32i calmInput

theorem atExecute_entered (w : Word) : AtExecute contractRv32i (entered w) (lone w) :=
  atExecute_boot trivial (show ramSel base = true by decide) rfl rfl

/-- `mret` traps. -/
theorem rv32i_illegal_traps_mret :
    Illegal 0x30200073 ∧ RaisesException (entered 0x30200073) calmInput (lone 0x30200073) :=
  ⟨by decide, (rv32i_illegal_traps (atExecute_entered _) rfl).mpr (by decide +kernel)⟩

/-- `mulh x1, x2, x3` does not: it executes as `sll x1, x2, x3`. -/
theorem rv32i_illegal_executes :
    Illegal 0x023110b3 ∧ (lone 0x023110b3).fetch = 0x023110b3 ∧
      AtExecute contractRv32i (entered 0x023110b3) (lone 0x023110b3) ∧
      ¬ RaisesException (entered 0x023110b3) calmInput (lone 0x023110b3) ∧
      (entered 0x023110b3).core.regs 1 = 0 ∧
      ((entered 0x023110b3).step rv32i calmInput).core.regs 1 = 48 := by
  refine ⟨by decide, by decide +kernel, atExecute_entered _, fun h => ?_, by decide +kernel,
    by decide +kernel⟩
  have hexc : (entered 0x023110b3).core.ex.except = false := by decide +kernel
  rw [h.raised] at hexc
  cases hexc

end HfRisc.Results
