import HfRisc.Pipe.Flow

/-!
# The instruction in execute

One lemma for each way out of the execute stage: the instruction commits and its
successor follows (`step_next`), an interrupt is accepted behind it (`step_ack`),
it leaves the straight line (`step_taken`) or raises the exception
(`step_except`), or it takes the memory port (`step_load`, `step_store`).
-/

namespace HfRisc.Pipe

open HfRisc.Rtl HfRisc.Lib

variable {n : ℕ} {α : Type} {c : Core α} {L : Contract c} {s : System n α} {σ : Seq n} {i : Input}

/-! ## What kind of instruction -/

namespace Seq

theorem exclusive (L : Contract c) (σ : Seq n) : (σ.ex c).ctl.Exclusive := L.exclusive _ _ _

theorem memToReg_iff : (σ.ex c).memToReg = true ↔ (σ.ex c).ctl.memRead ≠ 0 := bne_iff_ne

theorem memToReg_eq_false : (σ.ex c).memToReg = false ↔ (σ.ex c).ctl.memRead = 0 :=
  bne_eq_false_iff_eq

theorem regToMem_iff : (σ.ex c).regToMem = true ↔ (σ.ex c).ctl.memWrite ≠ 0 := bne_iff_ne

theorem regToMem_eq_false : (σ.ex c).regToMem = false ↔ (σ.ex c).ctl.memWrite = 0 :=
  bne_eq_false_iff_eq

theorem noLoad (h : (σ.ex c).dataAccess = false) : (σ.ex c).memToReg = false :=
  (Bool.or_eq_false_iff.mp h).2

theorem noStore (h : (σ.ex c).dataAccess = false) : (σ.ex c).regToMem = false :=
  (Bool.or_eq_false_iff.mp h).1

theorem writes_of_plain (h : (σ.ex c).dataAccess = false) :
    σ.writes c = (σ.ex c).ctl.regWrite := by
  rw [Seq.writes, noLoad h, Bool.or_false]

/-- Neither jumps nor branches: the shape of loads, stores and slow codes. -/
theorem taken_of_straight (hjump : (σ.ex c).ctl.jump = 0) (hbranch : (σ.ex c).ctl.branch = 0) :
    σ.taken c L = false := by
  simp [taken, Execute.branchTaken_of_branch_zero hbranch, Execute.jumpTaken, hjump]

/-- A slow code is neither a load nor a store, and does not branch. -/
theorem fast_of_not_slowShape
    (h : (σ.ex c).memToReg = true ∨ (σ.ex c).regToMem = true ∨ (σ.ex c).ctl.jump ≠ 0 ∨
      (σ.ex c).ctl.branch ≠ 0) : L.slow (σ.ex c).ctl.aluOp = false := by
  refine L.fast_of_lt (BitVec.not_le.mp fun hle => ?_)
  obtain ⟨hr, hw, hj, hb, -⟩ := (σ.exclusive L).ofSlow hle
  rcases h with h | h | h | h
  · exact memToReg_iff.mp h hr
  · exact regToMem_iff.mp h hw
  · exact h hj
  · exact h hb

/-- A taken jump or branch writes no memory, reads no memory and is no exception. -/
theorem not_except_of_taken (L : Contract c) (h : σ.taken c L = true) :
    (σ.ex c).except = false := by
  by_contra hexc
  rw [Bool.not_eq_false, Execute.except, beq_iff_eq] at hexc
  have hjump : (σ.ex c).jumpTaken = false := by
    rw [Execute.jumpTaken, bne_eq_false_iff_eq]
    by_contra hj
    have hb := (σ.exclusive L).ofJump hj
    rw [hexc] at hb
    cases hb
  simp [taken, hjump, Execute.branchTaken, hexc] at h

/-- A `SYSTEM` instruction is fast, accesses no memory and writes nothing. -/
theorem shape_of_except (L : Contract c) (h : (σ.ex c).except = true) :
    L.slow (σ.ex c).ctl.aluOp = false ∧ (σ.ex c).dataAccess = false ∧ σ.writes c = false ∧
      (σ.ex c).regToMem = false := by
  have hbr : (σ.ex c).ctl.branch ≠ 0 := by
    rw [Execute.except, beq_iff_eq] at h
    rw [h]
    decide
  have hplain : (σ.ex c).dataAccess = false := by
    by_contra hacc
    rw [Bool.not_eq_false, Execute.dataAccess, Bool.or_eq_true] at hacc
    rcases hacc with h' | h'
    · exact hbr ((σ.exclusive L).ofStore (regToMem_iff.mp h')).2.1
    · exact hbr ((σ.exclusive L).ofLoad (memToReg_iff.mp h')).2.2.1
  refine ⟨fast_of_not_slowShape (.inr (.inr (.inr hbr))), hplain, ?_, noStore hplain⟩
  rw [writes_of_plain hplain, ((σ.exclusive L).ofBranch hbr).1]

/-- An instruction that writes nothing only moves the program counter. -/
theorem next_of_idle (hw : σ.writes c = false) (hs : (σ.ex c).regToMem = false) (io v : Word) :
    { σ.next c L io with pc := v } = { σ with pc := v } := by simp [next, hw, hs]

theorem effects_of_idle (hw : σ.writes c = false) (hs : (σ.ex c).regToMem = false) (io : Word) :
    σ.effects c L io = [] := by simp [effects, effectReg, effectMem, hw, hs]

end Seq

namespace AtExecute

variable (h : AtExecute L s σ)
include h

theorem src1 : s.core.ex.aluSrc1 s.core.regs s.core.pcLast2 = σ.op1 c := by
  rw [h.ex, h.regs, h.pcs.pcLast2]
  rfl

theorem src2 : s.core.ex.aluSrc2 s.core.regs s.core.pc = σ.op2 c := by
  rw [h.ex, h.regs, h.pcs.pc]
  rfl

theorem aluOut (hfast : L.slow (σ.ex c).ctl.aluOp = false) : s.core.aluOut c = σ.out c L := by
  rw [Datapath.aluOut, h.src1, h.src2, h.ex, L.fast_alu hfast (σ.exclusive L).code]
  rfl

theorem aluWait : s.core.aluWait c = L.slow (σ.ex c).ctl.aluOp := by
  rw [Datapath.aluWait, L.idle_wait h.unit, h.ex]

theorem mwait : s.core.mwait = (σ.ex c).dataAccess := by
  rw [Datapath.mwait, h.access, h.ex, Bool.not_false, Bool.and_true]

theorem taken (hfast : L.slow (σ.ex c).ctl.aluOp = false) :
    (s.core.branchTaken c || s.core.ex.jumpTaken) = σ.taken c L := by
  rw [Datapath.branchTaken, h.aluOut hfast, h.ex]
  rfl

theorem idle_step (hfast : L.slow (σ.ex c).ctl.aluOp = false) (x y : Word) :
    L.Idle (c.aluStep s.core.alu x y s.core.ex.ctl.aluOp) := by
  rw [h.ex]
  exact L.idle_step h.unit hfast

end AtExecute

/-! ## Instructions that finish in one cycle -/

/-- Without a load the bus word does not matter. -/
theorem writeData_of_noLoad {e : Execute} (h : e.ctl.memRead = 0) (result d d' pcLast : Word) :
    e.writeData result d pcLast = e.writeData result d' pcLast := by
  simp [Execute.writeData, h]

namespace AtExecute

section Plain

variable (h : AtExecute L s σ) (hstall : i.stall = false)
  (hfast : L.slow (σ.ex c).ctl.aluOp = false) (hplain : (σ.ex c).dataAccess = false)
include h hfast hplain

theorem wreg : s.core.wreg c = (σ.ex c).ctl.regWrite := by
  rw [Datapath.wreg, h.late, h.stall, h.mwait, hplain, h.aluWait, hfast, h.ex]
  simp

theorem writeData (io : Word) : s.core.writeData c (s.dataIn c i) = σ.value c L io := by
  rw [Datapath.writeData, h.aluOut hfast, h.ex, h.pcs.pcLast]
  exact writeData_of_noLoad (Seq.memToReg_eq_false.mp (Seq.noLoad hplain)) _ _ _ _

theorem commits (io : Word) : s.commits c i = σ.effects c L io := by
  have hmwait : s.core.mwait = false := by rw [h.mwait, hplain]
  have hmem : σ.effectMem c L = [] := by simp [Seq.effectMem, Seq.noStore hplain]
  rw [System.commits, System.commitsMem_nil hmwait, System.commitsReg, h.wreg hfast hplain,
    h.writeData hfast hplain io, h.ex]
  simp only [Seq.effects, hmem, Seq.effectReg, Seq.writes_of_plain hplain]

omit hfast in
theorem ram_next (io : Word) : (s.step c i).ram = (σ.next c L io).ram := by
  rw [System.step_ram (by rw [h.mwait, hplain]), h.ram]
  simp [Seq.next, Seq.noStore hplain]

/-- `irq_ack_s` behind a plain instruction. -/
theorem irqAck : s.irqAck c = (s.intc.irq && !σ.taken c L) := by
  rw [← h.taken hfast, System.irqAck, Datapath.irqAck, h.bds, h.ex, Seq.noLoad hplain,
    Seq.noStore hplain]
  simp [Bool.and_assoc]

include hstall in
/-- The clock edge of the core. -/
theorem step (io : Word) :
    (s.step c i).core =
      { pc := s.core.pcNext c s.intc.irq s.intc.irqVector
        pcLast := σ.pc + 8
        pcLast2 := σ.pc + 4
        irqAckDly := s.irqAck c
        bds := σ.taken c L
        memToRegDly := false
        dataAccessDly := false
        stallReg := false
        ex := decode c.control (s.core.instIn c s.intc.irq (s.dataIn c i))
        regs := (σ.next c L io).regs
        alu := c.aluStep s.core.alu (s.core.ex.aluSrc1 s.core.regs s.core.pcLast2)
          (s.core.ex.aluSrc2 s.core.regs s.core.pc) s.core.ex.ctl.aluOp } := by
  have hmwait : s.core.mwait = false := by rw [h.mwait, hplain]
  have hwait : s.core.aluWait c = false := by rw [h.aluWait, hfast]
  have hregs : (if s.core.ex.ctl.regWrite || s.core.memToRegDly then
      writeReg s.core.regs s.core.ex.rd (s.core.writeData c (s.dataIn c i))
      else s.core.regs) = (σ.next c L io).regs := by
    rw [h.late, Bool.or_false, h.writeData hfast hplain io, h.ex, h.regs]
    simp only [Seq.next, Seq.writes_of_plain hplain]
  have hstep := Datapath.step_advance (c := c) (i := s.datapathIn c i) hstall hwait hmwait h.stall
  show s.core.step c (s.datapathIn c i) = _
  have hload : s.core.ex.memToReg = false := by rw [h.ex, Seq.noLoad hplain]
  have hacc : s.core.ex.dataAccess = false := by rw [h.ex, hplain]
  rw [hstep]
  simp only [System.datapathIn, hregs, h.taken hfast, hload, hacc, h.pcs.pc, h.pcs.pcLast,
    System.irqAck]

/-- Decode is open behind a plain instruction that stays on the straight line. -/
theorem bubble_eq (hexc : (σ.ex c).except = false) (htaken : σ.taken c L = false) :
    s.core.bubble c s.intc.irq = s.irqAck c := by
  have htk := h.taken hfast
  rw [htaken, Bool.or_eq_false_iff] at htk
  rw [Datapath.bubble, h.bds, L.idle_kill h.unit, h.stall, htk.1, htk.2, h.ex,
    Seq.noLoad hplain, Seq.noStore hplain, hexc, System.irqAck]
  rfl

include hstall in
/-- The instruction commits and its successor enters execute. -/
theorem step_next (io : Word) (hexc : (σ.ex c).except = false) (htaken : σ.taken c L = false)
    (hack : s.irqAck c = false) (hram : ramSel (σ.pc + 4) = true) :
    AtExecute L (s.step c i) (σ.next c L io) := by
  have hmwait : s.core.mwait = false := by rw [h.mwait, hplain]
  have hcore := h.step hstall hfast hplain io
  have hpc' : (σ.next c L io).pc = σ.pc + 4 := by simp [Seq.next, htaken]
  have hopen : s.core.bubble c s.intc.irq = false := by
    rw [h.bubble_eq hfast hplain hexc htaken, hack]
  have hper : periphSel (s.core.address c) = false := by
    rw [Datapath.address_eq_pc hmwait, h.pcs.pc, show σ.pc + 8 = σ.pc + 4 + 4 by
      rw [BitVec.add_assoc]; rfl]
    exact periphSel_add_four hram
  have hword : s.core.instIn c s.intc.irq (s.dataIn c i) = (σ.next c L io).fetch := by
    rw [Datapath.instIn_open hopen, System.dataIn_fetched h.fetched hram hper, Seq.fetch, hpc',
      ← h.ram_next (i := i) hplain io, System.step_ram hmwait]
  have hnext : s.core.pcNext c s.intc.irq s.intc.irqVector = σ.pc + 4 + 8 := by
    have htk := h.taken hfast
    rw [htaken, Bool.or_eq_false_iff] at htk
    have hack' : s.core.irqAck c s.intc.irq = false := hack
    have hexc' : s.core.ex.except = false := by rw [h.ex, hexc]
    simp only [Datapath.pcNext, hack', hexc', htk.1, htk.2, Bool.false_eq_true, and_false,
      or_self, if_false, h.pcs.pc, BitVec.add_assoc]
    rfl
  exact
    { ram := h.ram_next hplain io
      regs := by rw [hcore]
      settled := System.step_settled hstall h.settled h.ack
      ack := by rw [hcore, hack]
      ex := by
        rw [hcore, hword]
        rfl
      pcs :=
        { pc := by rw [hcore, hpc', hnext]
          pcLast := by
            rw [hcore, hpc', BitVec.add_assoc]
            rfl
          pcLast2 := by rw [hcore, hpc'] }
      bds := by rw [hcore, htaken]
      stall := by rw [hcore]
      late := by rw [hcore]
      access := by rw [hcore]
      unit := by
        rw [hcore]
        exact h.idle_step hfast _ _
      fetched := by
        have hf := System.step_fetched (c := c) (s := s) (i := i) hmwait hstall
        rw [h.pcs.pc] at hf
        rw [hpc', BitVec.add_assoc]
        exact hf
      inRam := by rw [hpc', hram] }

include hstall in
/-- After a killed decode, an instruction that has finished leaves a calm pipeline. -/
theorem step_calm (io : Word) (hb : s.core.bubble c s.intc.irq = true) {σ' : Seq n}
    (hregs : σ'.regs = (σ.next c L io).regs) (hram : σ'.ram = (σ.next c L io).ram)
    (hpc : s.core.pcNext c s.intc.irq s.intc.irqVector = σ'.pc) :
    AtFetch L (s.step c i) σ' := by
  have hcore := h.step hstall hfast hplain io
  have hex : (s.step c i).core.ex = decode c.control 0 := by
    rw [hcore]
    show decode c.control (s.core.instIn c s.intc.irq (s.dataIn c i)) = _
    rw [Datapath.instIn_bubble hb]
  exact
    { ram := by rw [h.ram_next hplain io, hram]
      regs := by rw [hcore, hregs]
      stall := by rw [hcore]
      harmless := by
        rw [hex]
        exact harmless_bubble L _
      late := fun _ => by
        rw [hex]
        rfl
      unit := by
        rw [hcore]
        exact .inl (h.idle_step hfast _ _)
      pc := by rw [hcore, hpc]
      noLoad := by
        rw [hex]
        exact bubble_noLoad L }

include hstall in
/-- The instruction commits, and an interrupt is accepted behind it. -/
theorem step_ack (io : Word) (hexc : (σ.ex c).except = false) (hack : s.irqAck c = true) :
    AtAck L (s.step c i) { σ.next c L io with pc := s.intc.irqVector } ∧
      (s.step c i).intc.irqEpc = (σ.next c L io).pc + 4 := by
  have hmwait : s.core.mwait = false := by rw [h.mwait, hplain]
  have hcore := h.step hstall hfast hplain io
  have hacc := hack
  rw [h.irqAck hfast hplain, Bool.and_eq_true, Bool.not_eq_true'] at hacc
  obtain ⟨hirq, htaken⟩ := hacc
  have hack' : s.core.irqAck c s.intc.irq = true := hack
  have hb : s.core.bubble c s.intc.irq = true := by rw [h.bubble_eq hfast hplain hexc htaken, hack]
  have hpc : s.core.pcNext c s.intc.irq s.intc.irqVector = s.intc.irqVector := by
    rw [Datapath.pcNext, if_pos (.inl ⟨hirq, hack'⟩)]
  have hpc' : (σ.next c L io).pc = σ.pc + 4 := by simp [Seq.next, htaken]
  refine ⟨atAck_of_accept hstall hmwait h.settled h.ack hack ?_ ?_ ?_, ?_⟩
  · exact h.step_calm hstall hfast hplain io hb rfl rfl hpc
  · rw [hcore, hack]
  · rw [hcore, htaken]
  · rw [System.step_irqEpc_capture (.inl ⟨hirq, h.ack⟩), Datapath.address_eq_pc hmwait, h.pcs.pc,
      hpc', BitVec.add_assoc]
    rfl

include hstall in
/-- A jump or a taken branch: the two younger words are killed, by `branch_taken`
or `jump_taken` now and by `bds` in the next cycle. -/
theorem step_taken (io : Word) (htaken : σ.taken c L = true) :
    AtFetch L (s.step c i) (σ.next c L io) ∧ (s.step c i).core.bds = true ∧
      (s.step c i).core.irqAckDly = false := by
  have hcore := h.step hstall hfast hplain io
  have htk := h.taken hfast
  rw [htaken] at htk
  have hack : s.irqAck c = false := by
    rw [h.irqAck hfast hplain, htaken, Bool.not_true, Bool.and_false]
  have hack' : s.core.irqAck c s.intc.irq = false := hack
  have hexc : s.core.ex.except = false := by rw [h.ex, Seq.not_except_of_taken L htaken]
  have hb : s.core.bubble c s.intc.irq = true := by
    rcases (Bool.or_eq_true _ _).mp htk with h' | h' <;> simp [Datapath.bubble, h']
  have hpc : s.core.pcNext c s.intc.irq s.intc.irqVector = (σ.next c L io).pc := by
    have hbr : s.core.ex.branch s.core.regs s.core.pcLast2 = (σ.ex c).branch σ.regs σ.pc := by
      rw [h.ex, h.regs, h.pcs.pcLast2]
    rw [Datapath.pcNext, if_neg (by simp [hack', hexc]), if_pos ((Bool.or_eq_true _ _).mp htk), hbr]
    simp [Seq.next, htaken]
  refine ⟨h.step_calm hstall hfast hplain io hb rfl rfl hpc, ?_, ?_⟩
  · rw [hcore, htaken]
  · rw [hcore, hack]

include hstall in
/-- The exception: its successor is killed and the vector is fetched, with the
address two words further on saved. -/
theorem step_except (io : Word) (hexc : (σ.ex c).except = true) :
    AtFetch L (s.step c i) { σ.next c L io with pc := s.intc.irqVector } ∧
      (s.step c i).intc.irqEpc = σ.pc + 8 := by
  have hmwait : s.core.mwait = false := by rw [h.mwait, hplain]
  have hexc' : s.core.ex.except = true := by rw [h.ex, hexc]
  have hb : s.core.bubble c s.intc.irq = true := by simp [Datapath.bubble, hexc']
  have hpc : s.core.pcNext c s.intc.irq s.intc.irqVector = s.intc.irqVector := by
    rw [Datapath.pcNext, if_pos (.inr hexc')]
  refine ⟨h.step_calm hstall hfast hplain io hb rfl rfl hpc, ?_⟩
  rw [System.step_irqEpc_capture (.inr hexc'), Datapath.address_eq_pc hmwait, h.pcs.pc]

end Plain

end AtExecute

end HfRisc.Pipe
