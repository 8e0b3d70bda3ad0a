import HfRisc.Pipe.Phase

/-!
# Fetch and decode while execute is calm

The phases in which nothing commits: the instruction is fetched, decoded, or
preempted by an interrupt. All of them rest on `Calm.step`, the clock edge of a
pipeline whose execute stage holds a harmless instruction.
-/

namespace HfRisc.Pipe

open HfRisc.Rtl HfRisc.Lib

variable {n : ℕ} {α : Type} {c : Core α} {L : Contract c} {s : System n α} {σ : Seq n} {i : Input}

/-! ## Harmless instructions -/

namespace Contract

/-- The codes below the multiplies are fast. -/
theorem fast_of_lt (L : Contract c) {op : BitVec 4} (h : op < 0b1100) : L.slow op = false := by
  by_contra hslow
  have hle := L.slow_le (Bool.eq_true_of_not_eq_false hslow)
  exact absurd h (BitVec.not_lt.mpr hle)

end Contract

/-- An instruction that neither branches nor touches memory, and writes at most
register 0, is harmless. -/
theorem harmless_of_plain {e : Execute} {regs : BitVec 5 → Word} (hjump : e.ctl.jump = 0)
    (hbranch : e.ctl.branch = 0) (hstore : e.regToMem = false)
    (hop : e.ctl.aluOp < 0b1100 ∧ e.ctl.aluOp ≠ 0b0011)
    (hrd : e.ctl.regWrite = true ∨ e.memToReg = true → e.rd = 0) : Harmless L e regs where
  jump := hjump
  system := Execute.except_of_branch_zero hbranch
  untaken _ _ := Execute.branchTaken_of_branch_zero hbranch _
  store := hstore
  fast := L.fast_of_lt hop.1
  code := hop.2
  discard := hrd

theorem decode_regToMem (control : BitVec 7 → BitVec 3 → BitVec 7 → Control) (w : Word) :
    (decode control w).regToMem = ((decode control w).ctl.memWrite != 0b00) := rfl

theorem decode_memToReg (control : BitVec 7 → BitVec 3 → BitVec 7 → Control) (w : Word) :
    (decode control w).memToReg = ((decode control w).ctl.memRead != 0b00) := rfl

theorem bubble_ctl (L : Contract c) : (decode c.control 0).ctl = .others := L.bubble

theorem bubble_noLoad (L : Contract c) : (decode c.control 0).memToReg = false := by
  rw [decode_memToReg, bubble_ctl L]
  rfl

/-- A bubble is harmless. -/
theorem harmless_bubble (L : Contract c) (regs : BitVec 5 → Word) :
    Harmless L (decode c.control 0) regs := by
  refine harmless_of_plain ?_ ?_ ?_ ?_ fun _ => rfl
  · rw [bubble_ctl L]
    rfl
  · rw [bubble_ctl L]
    rfl
  · rw [decode_regToMem, bubble_ctl L]
    rfl
  · rw [bubble_ctl L]
    decide

/-- The word of `addi x0, x0, 0`. -/
def nop : Word := 0x00000013

theorem nop_ctl (L : Contract c) : (decode c.control nop).ctl = .compute 0b001 0b0100 := L.nop

/-- A NOP is harmless: it writes register 0. -/
theorem harmless_nop (L : Contract c) (regs : BitVec 5 → Word) :
    Harmless L (decode c.control nop) regs := by
  refine harmless_of_plain ?_ ?_ ?_ ?_ fun _ => rfl
  · rw [nop_ctl L]
    rfl
  · rw [nop_ctl L]
    rfl
  · rw [decode_regToMem, nop_ctl L]
    rfl
  · rw [nop_ctl L]
    decide

/-! ## The clock edge of a calm pipeline -/

namespace Calm

variable (h : Calm L s σ)
include h

theorem jumpTaken : s.core.ex.jumpTaken = false := by
  simp [Execute.jumpTaken, h.harmless.jump]

theorem branchTaken : s.core.branchTaken c = false := by
  have hun := h.harmless.untaken s.core.pcLast2 s.core.pc
  rw [← h.regs] at hun
  rw [Datapath.branchTaken, Datapath.aluOut, L.fast_alu h.harmless.fast h.harmless.code]
  exact hun

theorem aluWait : s.core.aluWait c = false := by
  rcases h.unit with hidle | hcool
  · rw [Datapath.aluWait, L.idle_wait hidle, h.harmless.fast]
  · exact L.cooling_wait hcool h.harmless.fast

theorem aluStep (x y : Word) : L.Idle (c.aluStep s.core.alu x y s.core.ex.ctl.aluOp) := by
  rcases h.unit with hidle | hcool
  · exact L.idle_step hidle h.harmless.fast
  · exact L.cooling_step hcool h.harmless.fast

/-- No memory cycle, unless a harmless load has just entered execute. -/
theorem mwait_of_noLoad (hload : s.core.ex.memToReg = false) : s.core.mwait = false := by
  simp [Datapath.mwait, Execute.dataAccess, h.harmless.store, hload]

/-- The register file write, if any, is to register 0. -/
theorem discard (hw : s.core.wreg c = true) : s.core.ex.rd = 0 := by
  rw [Datapath.wreg, h.aluWait, Bool.or_false, Bool.and_eq_true, Bool.and_eq_true] at hw
  rcases (Bool.or_eq_true _ _).mp hw.1.1 with hreg | hlate
  · exact h.harmless.discard (.inl hreg)
  · exact h.late hlate

/-- Nothing commits. -/
theorem commits (hmwait : s.core.mwait = false) : s.commits c i = [] := by
  rw [System.commits, System.commitsMem_nil hmwait, List.append_nil, System.commitsReg]
  split
  · rename_i hw
    rw [h.discard hw]
    rfl
  · rfl

theorem irqAck : s.irqAck c = (s.intc.irq && !s.core.bds && !s.core.ex.memToReg) := by
  simp [System.irqAck, Datapath.irqAck, h.branchTaken, h.jumpTaken, h.harmless.store]

/-- The clock edge of the core. -/
theorem step (hstall : i.stall = false) (hmwait : s.core.mwait = false) :
    (s.step c i).core =
      { pc := if s.irqAck c then s.intc.irqVector else s.core.pc + 4
        pcLast := s.core.pc
        pcLast2 := s.core.pcLast
        irqAckDly := s.irqAck c
        bds := false
        memToRegDly := s.core.ex.memToReg
        dataAccessDly := s.core.ex.memToReg
        stallReg := false
        ex := decode c.control (s.core.instIn c s.intc.irq (s.dataIn c i))
        regs := σ.regs
        alu := c.aluStep s.core.alu (s.core.ex.aluSrc1 s.core.regs s.core.pcLast2)
          (s.core.ex.aluSrc2 s.core.regs s.core.pc) s.core.ex.ctl.aluOp } := by
  have hregs : (if s.core.ex.ctl.regWrite || s.core.memToRegDly then
      writeReg s.core.regs s.core.ex.rd (s.core.writeData c (s.dataIn c i))
      else s.core.regs) = σ.regs := by
    split
    · rename_i hw
      have hrd : s.core.ex.rd = 0 := by
        rcases (Bool.or_eq_true _ _).mp hw with hreg | hlate
        · exact h.harmless.discard (.inl hreg)
        · exact h.late hlate
      funext r
      simp [writeReg, hrd, h.regs]
    · exact h.regs
  have hpc : s.core.pcNext c s.intc.irq s.intc.irqVector =
      if s.irqAck c then s.intc.irqVector else s.core.pc + 4 := by
    rw [Datapath.pcNext, h.harmless.system, h.branchTaken, h.jumpTaken]
    cases hack : s.irqAck c with
    | true =>
      have hirq : s.intc.irq = true := by
        rw [h.irqAck] at hack
        exact ((Bool.and_eq_true _ _).mp ((Bool.and_eq_true _ _).mp hack).1).1
      have hack' : s.core.irqAck c s.intc.irq = true := hack
      simp [hirq, hirq ▸ hack']
    | false =>
      have hack' : s.core.irqAck c s.intc.irq = false := hack
      simp [hack']
  have hstep :=
    Datapath.step_advance (c := c) (i := s.datapathIn c i) hstall h.aluWait hmwait h.stall
  show s.core.step c (s.datapathIn c i) = _
  rw [hstep]
  simp only [System.datapathIn, hpc, hregs, h.branchTaken, h.jumpTaken, Bool.or_self,
    Execute.dataAccess, h.harmless.store, Bool.false_or, System.irqAck]

/-- When decode is killed, a bubble follows. -/
theorem step_ex_bubble (hstall : i.stall = false) (hmwait : s.core.mwait = false)
    (hb : s.core.bubble c s.intc.irq = true) :
    (s.step c i).core.ex = decode c.control 0 := by
  rw [h.step hstall hmwait]
  show decode c.control (s.core.instIn c s.intc.irq (s.dataIn c i)) = _
  rw [Datapath.instIn_bubble hb]

/-- Calmness is kept when the next word in decode is harmless. -/
theorem next (hstall : i.stall = false) (hmwait : s.core.mwait = false)
    (hload : s.core.ex.memToReg = false) {σ' : Seq n} (hregs : σ'.regs = σ.regs)
    (hram : σ'.ram = σ.ram)
    (hex : Harmless L (decode c.control (s.core.instIn c s.intc.irq (s.dataIn c i))) σ.regs) :
    Calm L (s.step c i) σ' where
  ram := by rw [System.step_ram hmwait, h.ram, hram]
  regs := by rw [h.step hstall hmwait, hregs]
  stall := by rw [h.step hstall hmwait]
  harmless := by
    rw [h.step hstall hmwait, hregs]
    exact hex
  late := by
    rw [h.step hstall hmwait]
    intro hlate
    rw [hload] at hlate
    cases hlate
  unit := by
    rw [h.step hstall hmwait]
    exact .inl (h.aluStep _ _)

/-- An open decode stage: nothing in execute kills the word, no interrupt is accepted. -/
theorem bubble_eq (hload : s.core.ex.memToReg = false) :
    s.core.bubble c s.intc.irq = (c.aluWait3 s.core.alu || s.core.bds || s.irqAck c) := by
  simp [Datapath.bubble, h.harmless.store, hload, h.harmless.system, h.stall, h.branchTaken,
    h.jumpTaken, System.irqAck]

end Calm

/-! ## Fetch -/

/-- The fetch completes: the instruction enters decode. -/
theorem AtFetch.step_decode (h : AtFetch L s σ) (hset : s.intc.Settled)
    (hdly : s.core.irqAckDly = false) (hstall : i.stall = false) (hack : s.irqAck c = false)
    (hex : Harmless L (decode c.control (s.core.instIn c s.intc.irq (s.dataIn c i))) σ.regs) :
    AtDecode L (s.step c i) σ := by
  have hmwait := h.mwait_of_noLoad h.noLoad
  have hcore := h.step hstall hmwait
  exact
    { h.toCalm.next hstall hmwait h.noLoad rfl rfl hex with
      settled := System.step_settled hstall hset hdly
      ack := by rw [hcore, hack]
      pc := by
        rw [hcore, hack, ← h.pc]
        rfl
      pcLast := by rw [hcore, h.pc]
      bds := by rw [hcore]
      decoded := by
        rw [hcore]
        exact ⟨_, rfl⟩
      stray := fun _ => by rw [hcore, h.noLoad]
      idle := by
        rw [hcore]
        exact h.aluStep _ _
      fetched := h.pc ▸ System.step_fetched hmwait hstall }

/-! ## Decode -/

namespace AtDecode

variable (h : AtDecode L s σ)
include h

theorem bubble_eq_irqAck (hload : s.core.ex.memToReg = false) :
    s.core.bubble c s.intc.irq = s.irqAck c := by
  rw [h.toCalm.bubble_eq hload, L.idle_kill h.idle, h.bds, Bool.false_or, Bool.false_or]

/-- The instruction enters execute. -/
theorem step_execute (hstall : i.stall = false) (hload : s.core.ex.memToReg = false)
    (hack : s.irqAck c = false) (hram : ramSel σ.pc = true) : AtExecute L (s.step c i) σ := by
  have hmwait := h.mwait_of_noLoad hload
  have hcore := h.step hstall hmwait
  have haddr : s.core.address c = σ.pc + 4 := by rw [Datapath.address_eq_pc hmwait, h.pc]
  have hper : periphSel (s.core.address c) = false := by
    rw [haddr]
    exact periphSel_add_four hram
  have hopen : s.core.bubble c s.intc.irq = false := by rw [h.bubble_eq_irqAck hload, hack]
  have hword : s.core.instIn c s.intc.irq (s.dataIn c i) = σ.fetch := by
    rw [Datapath.instIn_open hopen, System.dataIn_fetched h.fetched hram hper, h.ram]
    rfl
  exact
    { ram := by rw [System.step_ram hmwait, h.ram]
      regs := by rw [hcore]
      settled := System.step_settled hstall h.settled h.ack
      ack := by rw [hcore, hack]
      ex := by
        rw [hcore, hword]
        rfl
      pcs :=
        { pc := by
            rw [hcore, hack, h.pc]
            exact BitVec.add_assoc σ.pc 4 4
          pcLast := by rw [hcore, h.pc]
          pcLast2 := by rw [hcore, h.pcLast] }
      bds := by rw [hcore]
      stall := by rw [hcore]
      late := by rw [hcore, hload]
      access := by rw [hcore, hload]
      unit := by
        rw [hcore]
        exact h.aluStep _ _
      fetched := h.pc ▸ System.step_fetched hmwait hstall
      inRam := hram }

end AtDecode

/-! ## Interrupt entry -/

/-- The state in which an accepted interrupt leaves a calm pipeline. -/
theorem atAck_of_accept {σ' : Seq n} (hstall : i.stall = false) (hmwait : s.core.mwait = false)
    (hset : s.intc.Settled) (hdly : s.core.irqAckDly = false) (hack : s.irqAck c = true)
    (hcalm : AtFetch L (s.step c i) { σ' with pc := s.intc.irqVector })
    (hdly' : (s.step c i).core.irqAckDly = true) (hbds' : (s.step c i).core.bds = false) :
    AtAck L (s.step c i) { σ' with pc := s.intc.irqVector } := by
  have hirq : s.intc.irq = true := by
    by_contra hno
    rw [Bool.not_eq_true] at hno
    rw [System.irqAck, hno, Datapath.irqAck_of_irq_false] at hack
    cases hack
  have hreq := IntControl.request_step (b := s.bus c) (w := s.dataRead c i) (x := i.extioIn)
    hset hirq hdly
  exact
    { hcalm with
      req := by
        simp only [System.step, hstall]
        exact hreq
      ack := hdly'
      vector := System.step_irqVector hmwait
      bds := hbds' }

/-- An interrupt is accepted while the instruction is in decode. -/
theorem AtDecode.step_ack (h : AtDecode L s σ) (hstall : i.stall = false)
    (hack : s.irqAck c = true) :
    AtAck L (s.step c i) { σ with pc := s.intc.irqVector } ∧
      (s.step c i).intc.irqEpc = σ.pc + 4 := by
  have hacc := hack
  rw [h.irqAck, Bool.and_eq_true, Bool.and_eq_true] at hacc
  have hload : s.core.ex.memToReg = false := (Bool.not_eq_true' _).mp hacc.2
  have hmwait := h.mwait_of_noLoad hload
  have hcore := h.step hstall hmwait
  have hb : s.core.bubble c s.intc.irq = true := by rw [h.bubble_eq_irqAck hload, hack]
  have hcalm : AtFetch L (s.step c i) { σ with pc := s.intc.irqVector } :=
    { h.toCalm.next hstall hmwait hload rfl rfl
        (by rw [Datapath.instIn_bubble hb]; exact harmless_bubble L _) with
      pc := by rw [hcore, hack]; rfl
      noLoad := by
        rw [h.step_ex_bubble hstall hmwait hb]
        exact bubble_noLoad L }
  refine ⟨atAck_of_accept hstall hmwait h.settled h.ack hack hcalm ?_ ?_, ?_⟩
  · rw [hcore, hack]
  · rw [hcore]
  · rw [System.step_irqEpc_capture (.inl ⟨hacc.1.1, h.ack⟩), Datapath.address_eq_pc hmwait, h.pc]

namespace AtAck

variable (h : AtAck L s σ)
include h

theorem accepts : s.irqAck c = true := by
  rw [h.irqAck, h.req.2.2, h.bds, h.noLoad]
  rfl

/-- The request is still up and is accepted again: the vector is fetched twice. -/
theorem step (hstall : i.stall = false) : AtVector L (s.step c i) σ := by
  have hmwait := h.mwait_of_noLoad h.noLoad
  have hcore := h.toCalm.step hstall hmwait
  have hb : s.core.bubble c s.intc.irq = true := by
    rw [h.toCalm.bubble_eq h.noLoad, h.accepts, Bool.or_true]
  exact
    { h.toCalm.next hstall hmwait h.noLoad rfl rfl
        (by rw [Datapath.instIn_bubble hb]; exact harmless_bubble L _) with
      pc := by
        rw [hcore, h.accepts]
        exact h.vector
      noLoad := by
        rw [h.step_ex_bubble hstall hmwait hb]
        exact bubble_noLoad L
      req := by
        have hack : (s.bus c).irqAck = true := h.ack
        simp only [System.step, hstall, IntControl.step, IntControl.pulseStep, h.req.1, h.req.2.1,
          hack, if_true, and_self]
      ack := by rw [hcore, h.accepts]
      bds := by rw [hcore]
      fetched := h.toAtFetch.pc ▸ System.step_fetched hmwait hstall }

theorem step_irqEpc : (s.step c i).intc.irqEpc = s.intc.irqEpc :=
  System.step_irqEpc_hold (.inr h.ack) h.harmless.system

end AtAck

namespace AtVector

variable (h : AtVector L s σ)
include h

theorem irqAck_eq_false : s.irqAck c = false := by
  rw [h.irqAck, h.req.2.2]
  rfl

/-- The NOP at the vector enters execute from its first fetch and decode from its
second. -/
theorem step (hstall : i.stall = false) (hram : ramSel σ.pc = true) (hnop : σ.fetch = nop) :
    AtDecode L (s.step c i) σ := by
  have hmwait := h.mwait_of_noLoad h.noLoad
  have hcore := h.toCalm.step hstall hmwait
  have hper : periphSel (s.core.address c) = false := by
    rw [Datapath.address_eq_pc hmwait, h.pc]
    exact periphSel_of_ramSel hram
  have hword : swapBytes (s.dataIn c i) = nop := by
    rw [System.dataIn_fetched h.fetched hram hper, h.ram]
    exact hnop
  have hex : Harmless L (decode c.control (s.core.instIn c s.intc.irq (s.dataIn c i))) σ.regs := by
    rw [Datapath.instIn]
    split
    · exact harmless_bubble L _
    · rw [hword]
      exact harmless_nop L _
  exact
    { h.toCalm.next hstall hmwait h.noLoad rfl rfl hex with
      settled := by
        have hack : (s.bus c).irqAck = true := h.ack
        simp [IntControl.Settled, System.step, hstall, IntControl.step, IntControl.pulseStep,
          h.req.1, h.req.2.1, hack]
      ack := by rw [hcore, h.irqAck_eq_false]
      pc := by
        rw [hcore, h.irqAck_eq_false, ← h.pc]
        rfl
      pcLast := by rw [hcore, h.pc]
      bds := by rw [hcore]
      decoded := by
        rw [hcore]
        exact ⟨_, rfl⟩
      stray := fun _ => by rw [hcore, h.noLoad]
      idle := by
        rw [hcore]
        exact h.aluStep _ _
      fetched := h.toAtFetch.pc ▸ System.step_fetched hmwait hstall }

theorem step_irqEpc : (s.step c i).intc.irqEpc = s.intc.irqEpc :=
  System.step_irqEpc_hold (.inr h.ack) h.harmless.system

end AtVector

end HfRisc.Pipe
