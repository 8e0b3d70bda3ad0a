import HfRisc.Lib.Bits
import HfRisc.Rtl.System

/-!
# What one clock edge can do

The clock edge of the datapath is a product of conditionals. Only four of their
combinations occur in a running pipeline, and each has an equation here:

- `step_advance`: all stages move;
- `step_port`: a load or store takes the memory port and the fetch is replayed;
- `step_wait`: the ALU holds the instruction in execute;
- `step_release`: the cycle after a wait, in which the fetch is replayed.

For the memory side, `Fetched` says that the word at an address has arrived, and
`Settled` that the interrupt state machine is between two acknowledges.
-/

namespace HfRisc.Rtl

variable {n : ℕ} {α : Type} {c : Core α}

/-! ## Control words without a branch, a load or a store -/

namespace Execute

variable {e : Execute}

theorem branchTaken_of_branch_zero (h : e.ctl.branch = 0) (out : AluOut) :
    e.branchTaken out = false := by simp [branchTaken, h]

theorem except_of_branch_zero (h : e.ctl.branch = 0) : e.except = false := by
  simp [except, h]

end Execute

/-! ## The datapath -/

namespace Datapath

variable {s : Datapath α} {i : DatapathIn}

theorem step_advance (hstall : i.stall = false) (hwait : s.aluWait c = false)
    (hmwait : s.mwait = false) (hreg : s.stallReg = false) :
    s.step c i =
      { pc := s.pcNext c i.irq i.irqVector
        pcLast := s.pc
        pcLast2 := s.pcLast
        irqAckDly := s.irqAck c i.irq
        bds := s.branchTaken c || s.ex.jumpTaken
        memToRegDly := s.ex.memToReg
        dataAccessDly := s.ex.dataAccess
        stallReg := false
        ex := decode c.control (s.instIn c i.irq i.dataIn)
        regs :=
          if s.ex.ctl.regWrite || s.memToRegDly then
            writeReg s.regs s.ex.rd (s.writeData c i.dataIn)
          else s.regs
        alu := c.aluStep s.alu (s.ex.aluSrc1 s.regs s.pcLast2) (s.ex.aluSrc2 s.regs s.pc)
          s.ex.ctl.aluOp } := by
  simp [step, pcStep, stallSig, wreg, hstall, hwait, hmwait, hreg]

theorem step_port (hstall : i.stall = false) (hwait : s.aluWait c = false)
    (hmwait : s.mwait = true) (hbds : s.bds = false) :
    s.step c i =
      { s with
        pc := s.pcLast
        memToRegDly := s.ex.memToReg
        dataAccessDly := true
        stallReg := false
        alu := c.aluStep s.alu (s.ex.aluSrc1 s.regs s.pcLast2) (s.ex.aluSrc2 s.regs s.pc)
          s.ex.ctl.aluOp } := by
  have hacc : s.ex.dataAccess = true := by
    rw [mwait, Bool.and_eq_true] at hmwait
    exact hmwait.1
  have hcond : (s.ex.regToMem || s.ex.memToReg || s.ex.except) = true := by
    rw [Execute.dataAccess] at hacc
    rw [hacc, Bool.true_or]
  simp [step, pcStep, stallSig, wreg, hstall, hwait, hmwait, hbds, hacc, hcond]

theorem step_wait (hwait : s.aluWait c = true) :
    s.step c i =
      { s with
        stallReg := true
        regs := writeReg s.regs s.ex.rd (s.writeData c i.dataIn)
        alu := c.aluStep s.alu (s.ex.aluSrc1 s.regs s.pcLast2) (s.ex.aluSrc2 s.regs s.pc)
          s.ex.ctl.aluOp } := by
  simp [step, pcStep, stallSig, wreg, hwait]

theorem step_release (hstall : i.stall = false) (hwait : s.aluWait c = false)
    (hmwait : s.mwait = false) (hreg : s.stallReg = true) :
    s.step c i =
      { pc := s.pcLast
        pcLast := s.pc
        pcLast2 := s.pcLast
        irqAckDly := s.irqAck c i.irq
        bds := s.branchTaken c || s.ex.jumpTaken
        memToRegDly := s.ex.memToReg
        dataAccessDly := s.ex.dataAccess
        stallReg := false
        ex := decode c.control 0
        regs := s.regs
        alu := c.aluStep s.alu (s.ex.aluSrc1 s.regs s.pcLast2) (s.ex.aluSrc2 s.regs s.pc)
          s.ex.ctl.aluOp } := by
  simp [step, pcStep, stallSig, wreg, instIn, bubble, hstall, hwait, hmwait, hreg]

/-- Decode sees a bubble. -/
theorem instIn_bubble {irq : Bool} {w : Word} (h : s.bubble c irq = true) :
    s.instIn c irq w = 0 := by simp [instIn, h]

/-- Decode sees the fetched word. -/
theorem instIn_open {irq : Bool} {w : Word} (h : s.bubble c irq = false) :
    s.instIn c irq w = swapBytes w := by simp [instIn, h]

/-- Without an access in execute the program counter is on the bus. -/
theorem address_eq_pc (h : s.mwait = false) : s.address c = s.pc := by
  simp [address, h]

theorem address_eq_result (h : s.mwait = true) : s.address c = (s.aluOut c).result := by
  have hacc : s.ex.dataAccess = true := by
    rw [mwait, Bool.and_eq_true] at h
    exact h.1
  simp [address, h, hacc]

theorem irqAck_of_irq_false : s.irqAck c false = false := by simp [irqAck]

end Datapath

/-! ## The controller -/

namespace IntControl

variable {r : IntControl} {b : CpuBus} {w : Word} {x : BitVec 8}

/-- The pulse states between two acknowledges: the request line is up exactly
while the machine is about to be, or is, in `req`. -/
def Settled (r : IntControl) : Prop :=
  (r.pulseState, r.pulseNextState, r.irq) ∈
    [(PulseState.idle, PulseState.idle, false), (.idle, .int, false), (.int, .int, false),
     (.int, .req, true), (.req, .req, true), (.ackn, .ackn, false), (.ackn, .done, false),
     (.done, .done, false), (.done, .idle, false)]

theorem settled_cases (h : r.Settled) :
    (r.pulseState = .idle ∧ r.pulseNextState = .idle ∧ r.irq = false) ∨
    (r.pulseState = .idle ∧ r.pulseNextState = .int ∧ r.irq = false) ∨
    (r.pulseState = .int ∧ r.pulseNextState = .int ∧ r.irq = false) ∨
    (r.pulseState = .int ∧ r.pulseNextState = .req ∧ r.irq = true) ∨
    (r.pulseState = .req ∧ r.pulseNextState = .req ∧ r.irq = true) ∨
    (r.pulseState = .ackn ∧ r.pulseNextState = .ackn ∧ r.irq = false) ∨
    (r.pulseState = .ackn ∧ r.pulseNextState = .done ∧ r.irq = false) ∨
    (r.pulseState = .done ∧ r.pulseNextState = .done ∧ r.irq = false) ∨
    (r.pulseState = .done ∧ r.pulseNextState = .idle ∧ r.irq = false) := by
  simpa [Settled] using h

/-- While the core does not acknowledge, the state machine stays settled. -/
theorem settled_step (h : r.Settled) (hack : b.irqAck = false) :
    (r.step false b w x).Settled := by
  rcases settled_cases h with h | h | h | h | h | h | h | h | h <;>
    obtain ⟨h₁, h₂, h₃⟩ := h <;>
    simp only [Settled, step, pulseStep, h₁, h₂, h₃, hack] <;>
    split_ifs <;> simp_all

/-- A raised request that is not yet acknowledged is in `req` one cycle later,
and still raised. -/
theorem request_step (h : r.Settled) (hirq : r.irq = true) (hack : b.irqAck = false) :
    (r.step false b w x).pulseState = .req ∧ (r.step false b w x).pulseNextState = .req ∧
      (r.step false b w x).irq = true := by
  rcases settled_cases h with h | h | h | h | h | h | h | h | h <;>
    obtain ⟨h₁, h₂, h₃⟩ := h <;> simp_all [step, pulseStep]

/-- Without a data access no register of the controller is written. -/
theorem step_irqVector (h : b.dataAccess = false) (stall : Bool) :
    (r.step stall b w x).irqVector = r.irqVector := by
  simp [step, writes, CpuBus.periphAccess, h]

theorem step_periphAccessDly (h : b.dataAccess = false) :
    (r.step false b w x).periphAccessDly = false := by
  simp [step, CpuBus.periphAccess, h]

end IntControl

/-! ## The memory side -/

/-- An address next to a RAM address is not a peripheral's. -/
theorem periphSel_add_four {a : Word} (h : ramSel a = true) : periphSel (a + 4) = false := by
  simp only [ramSel, periphSel, beq_iff_eq, beq_eq_false_iff_ne, ne_eq] at h ⊢
  intro h'
  have h₁ := congrArg BitVec.toNat h
  have h₂ := congrArg BitVec.toNat h'
  simp [BitVec.extractLsb'_toNat, Nat.shiftRight_eq_div_pow] at h₁ h₂
  omega

theorem periphSel_of_ramSel {a : Word} (h : ramSel a = true) : periphSel a = false := by
  simp only [ramSel, periphSel, beq_iff_eq] at h ⊢
  rw [h]
  decide

/-- A RAM address is not a controller address. -/
theorem periphAccess_of_ramSel {b : CpuBus} (h : ramSel b.address = true) :
    b.periphAccess = false := by
  simp only [ramSel, CpuBus.periphAccess, beq_iff_eq] at h ⊢
  have hne : (b.address.extractLsb' 27 5 == 0b11110) = false := by
    rw [beq_eq_false_iff_ne, ne_eq]
    intro h'
    have h₁ := congrArg BitVec.toNat h
    have h₂ := congrArg BitVec.toNat h'
    simp [BitVec.extractLsb'_toNat, Nat.shiftRight_eq_div_pow] at h₁ h₂
    omega
  rw [hne, Bool.false_and]

@[simp] theorem swapBytes_swapBytes (w : Word) : swapBytes (swapBytes w) = w := by
  rw [swapBytes, swapBytes, Lib.byte0, Lib.byte1, Lib.byte2, Lib.byte3, Lib.append_bytes]

/-- Writing no lane keeps the word. -/
@[simp] theorem mergeLanes_zero (data old : Word) : mergeLanes 0#4 data old = old := by
  simp only [mergeLanes, BitVec.getLsbD_zero, Bool.false_eq_true, if_false]
  exact Lib.append_bytes old

/-- Writing no lane keeps the RAM. -/
@[simp] theorem writeRam_zero (ram : BitVec n → Word) (address data : Word) :
    writeRam ram address 0#4 data = ram := by
  funext k
  simp [writeRam]

namespace System

variable {s : System n α} {i : Input}

/-- The word at `a` has been read, and waits for the core. -/
structure Fetched (s : System n α) (a : Word) : Prop where
  direct : s.intc.periphAccessDly = false
  word : ramSel a = true → s.periphDly = false ∧ s.dataReadRam = s.ram (wordIndex n a)

/-- A fetched RAM word reaches the core while its successor is addressed. -/
theorem dataIn_fetched {a : Word} (h : s.Fetched a) (ha : ramSel a = true)
    (hper : periphSel (s.core.address c) = false) :
    s.dataIn c i = s.ram (wordIndex n a) := by
  obtain ⟨hdly, hword⟩ := h.word ha
  simp [dataIn, dataRead, IntControl.dataInCpu, h.direct, hper, hdly, hword]

/-- Without a data access no lane is written. -/
theorem dataWeMem_zero (h : s.core.mwait = false) : (s.bus c).dataWeMem = 0#4 := by
  simp [bus, CpuBus.dataWeMem, h]

/-- Without a data access the RAM is unchanged. -/
theorem step_ram (h : s.core.mwait = false) : (s.step c i).ram = s.ram := by
  simp only [step, dataWeMem_zero h, writeRam_zero, ite_self]

/-- Without a data access the word at the program counter is read. -/
theorem step_fetched (h : s.core.mwait = false) (hstall : i.stall = false) :
    (s.step c i).Fetched s.core.pc where
  direct := by
    have hbus : (s.bus c).dataAccess = false := h
    simp only [step, hstall]
    exact IntControl.step_periphAccessDly hbus
  word := by
    intro hsel
    have haddr : s.core.address c = s.core.pc := Datapath.address_eq_pc h
    have hen : s.ramEnable c i = true := by simp [ramEnable, haddr, hsel, hstall]
    refine ⟨?_, ?_⟩
    · show periphSel (s.core.address c) = false
      rw [haddr]
      exact periphSel_of_ramSel hsel
    · rw [step_ram h]
      simp only [step, dataWeMem_zero h, mergeLanes_zero, hen, if_true, haddr]

/-- The interrupt vector only changes in a memory cycle. -/
theorem step_irqVector (h : s.core.mwait = false) :
    (s.step c i).intc.irqVector = s.intc.irqVector :=
  IntControl.step_irqVector (b := s.bus c) h i.stall

theorem step_settled (hstall : i.stall = false) (h : s.intc.Settled)
    (hack : s.core.irqAckDly = false) : (s.step c i).intc.Settled := by
  have hset := IntControl.settled_step (b := s.bus c) (w := s.dataRead c i) (x := i.extioIn) h hack
  simp only [step, hstall]
  exact hset

/-- A request that the core has not acknowledged yet, or an exception, captures
the address on the bus. -/
theorem step_irqEpc_capture
    (h : s.intc.irq = true ∧ s.core.irqAckDly = false ∨ s.core.ex.except = true) :
    (s.step c i).intc.irqEpc = s.core.address c := by
  have h' : (s.intc.irq = true ∧ (s.bus c).irqAck = false) ∨ (s.bus c).exception = true := h
  simp only [step, IntControl.step, if_pos h']
  rfl

/-- Otherwise the saved address is kept. -/
theorem step_irqEpc_hold (h : s.intc.irq = false ∨ s.core.irqAckDly = true)
    (hex : s.core.ex.except = false) : (s.step c i).intc.irqEpc = s.intc.irqEpc := by
  have h' : ¬ ((s.intc.irq = true ∧ (s.bus c).irqAck = false) ∨ (s.bus c).exception = true) := by
    rintro (⟨hirq, hack⟩ | hexc)
    · have hack' : s.core.irqAckDly = false := hack
      rcases h with h | h
      · rw [h] at hirq
        cases hirq
      · rw [h] at hack'
        cases hack'
    · have hexc' : s.core.ex.except = true := hexc
      rw [hex] at hexc'
      cases hexc'
  simp only [step, IntControl.step, if_neg h']

/-- Without a data access no store commits. -/
theorem commitsMem_nil (h : s.core.mwait = false) : s.commitsMem c i = [] := by
  simp [commitsMem, h]

/-- In the memory cycle, and while a wait is being released, no register is
written. -/
theorem commitsReg_nil (h : s.core.wreg c = false) : s.commitsReg c i = [] := by
  simp [commitsReg, h]

/-- In a memory cycle only the store commits. -/
theorem commits_port (h : s.core.mwait = true) (hwait : s.core.aluWait c = false)
    (hstall : i.stall = false) :
    s.commits c i = commitMem (s.core.aluOut c).result (s.core.dataW c) s.core.dataOut := by
  have hw : s.core.wreg c = false := by simp [Datapath.wreg, h, hwait]
  rw [commits, commitsReg_nil hw, commitsMem, if_pos ⟨h, hstall⟩, Datapath.address_eq_result h,
    List.nil_append]

/-- While the ALU does not wait, every commit is final. -/
theorem finals_eq (hwait : s.core.aluWait c = false) : s.finals c i = s.commits c i := by
  simp [finals, isTransient, hwait]

/-- The rv32i core has no transient writes. -/
theorem machine_rv32i :
    (machine rv32i : Lib.Mealy (System n Unit) Input Commit) = rawMachine rv32i := by
  have hout : (System.finals rv32i : System n Unit → Input → List Commit) =
      System.commits rv32i := by
    funext s i
    exact System.finals_eq rfl
  rw [System.machine, hout, System.rawMachine]

end System

end HfRisc.Rtl
