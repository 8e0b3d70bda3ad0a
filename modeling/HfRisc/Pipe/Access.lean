import HfRisc.Pipe.Execute

/-!
# Instructions that take more than one cycle

A load or store owns the memory port in its first cycle, so that the fetch is
replayed in its second; a load writes its register there. A slow computation
stays in execute while the ALU waits, and its fetch is replayed as well.
-/

namespace HfRisc.Pipe

open HfRisc.Rtl HfRisc.Lib

variable {n : ℕ} {α : Type} {c : Core α} {L : Contract c} {s : System n α} {σ : Seq n} {i : Input}

/-! ## The memory cycle -/

/-- Without a store no byte lane is selected. -/
theorem dataW_of_noStore {e : Execute} (h : e.ctl.memWrite = 0) (result : Word) :
    e.dataW result = 0#4 := by simp [Execute.dataW, h]

theorem commitMem_zero (address data : Word) : commitMem address 0#4 data = [] := rfl

/-- A load takes the memory port: nothing is written, and a RAM word is read. -/
theorem load_port (hstall : i.stall = false) (hmwait : s.core.mwait = true)
    (hstore : s.core.ex.ctl.memWrite = 0) :
    (s.step c i).ram = s.ram ∧
      (ramSel (s.core.aluOut c).result = true →
        (s.step c i).intc.periphAccessDly = false ∧ (s.step c i).periphDly = false ∧
        (s.step c i).dataReadRam = s.ram (wordIndex n (s.core.aluOut c).result)) := by
  have hw : s.core.dataW c = 0#4 := dataW_of_noStore hstore _
  have hwe : (s.bus c).dataWeMem = 0#4 := by simp [CpuBus.dataWeMem, System.bus, hw]
  have haddr := Datapath.address_eq_result (c := c) hmwait
  refine ⟨by simp [System.step, hwe], fun hsel => ⟨?_, ?_, ?_⟩⟩
  · have hper : (s.bus c).periphAccess = false := by
      apply periphAccess_of_ramSel
      rw [← haddr] at hsel
      exact hsel
    simp [System.step, IntControl.step, hstall, hper]
  · show periphSel (s.core.address c) = false
    rw [haddr]
    exact periphSel_of_ramSel hsel
  · simp only [System.step, System.ramEnable, haddr, hsel, hstall, hwe, mergeLanes_zero,
      Bool.not_false, Bool.and_self, if_true]

/-- A load in execute is fast, straight and no store. -/
theorem load_shape {e : Execute} (hexc : e.ctl.Exclusive) (hload : e.ctl.memRead ≠ 0) :
    e.ctl.memWrite = 0 ∧ e.ctl.jump = 0 ∧ e.ctl.branch = 0 :=
  ⟨(hexc.ofLoad hload).1, (hexc.ofLoad hload).2.1, (hexc.ofLoad hload).2.2.1⟩

/-- A harmless load in execute takes the memory port; the fetch is replayed. -/
theorem AtDecode.step_stray (h : AtDecode L s σ) (hstall : i.stall = false)
    (hload : s.core.ex.memToReg = true) :
    AtAccess L (s.step c i) σ ∧ s.commits c i = [] := by
  have hacc : s.core.ex.dataAccess = true := by rw [Execute.dataAccess, hload, Bool.or_true]
  have hmwait : s.core.mwait = true := by rw [Datapath.mwait, hacc, h.stray hload]; rfl
  obtain ⟨w, hw⟩ := h.decoded
  have hread : s.core.ex.ctl.memRead ≠ 0 := by
    rw [hw] at hload ⊢
    exact bne_iff_ne.mp hload
  have hexc : s.core.ex.ctl.Exclusive := by
    rw [hw]
    exact L.exclusive _ _ _
  obtain ⟨hstore, hjump, hbranch⟩ := load_shape hexc hread
  have hcore : (s.step c i).core = _ :=
    Datapath.step_port (c := c) (i := s.datapathIn c i) hstall h.aluWait hmwait h.bds
  constructor
  · exact
      { ram := by rw [(load_port hstall hmwait hstore).1, h.ram]
        regs := by rw [hcore, h.regs]
        settled := System.step_settled hstall h.settled h.ack
        ack := by rw [hcore, h.ack]
        pc := by rw [hcore, h.pcLast]
        pcLast := by rw [hcore, h.pcLast]
        bds := by rw [hcore, h.bds]
        stall := by rw [hcore]
        isAccess := by rw [hcore, hacc]
        access := by rw [hcore]
        jump := by rw [hcore, hjump]
        branch := by rw [hcore, hbranch]
        fast := by
          rw [hcore]
          exact h.harmless.fast
        discard := fun _ => by
          rw [hcore]
          exact h.harmless.discard (.inr hload)
        unit := by
          rw [hcore]
          exact h.aluStep _ _ }
  · rw [System.commits_port hmwait h.aluWait hstall, Datapath.dataW, dataW_of_noStore hstore,
      commitMem_zero]

namespace AtExecute

variable (h : AtExecute L s σ)
include h

/-- A load takes the memory port. -/
theorem step_load (hstall : i.stall = false) (hload : (σ.ex c).memToReg = true) :
    AtLoad L (s.step c i) σ ∧ s.commits c i = [] := by
  have hread := Seq.memToReg_iff.mp hload
  obtain ⟨hstore, hjump, hbranch⟩ := load_shape (σ.exclusive L) hread
  have hfast := Seq.fast_of_not_slowShape (L := L) (.inl hload)
  have hacc : (σ.ex c).dataAccess = true := by rw [Execute.dataAccess, hload, Bool.or_true]
  have hmwait : s.core.mwait = true := by rw [h.mwait, hacc]
  have hwait : s.core.aluWait c = false := by rw [h.aluWait, hfast]
  have hstore' : s.core.ex.ctl.memWrite = 0 := by rw [h.ex, hstore]
  have hcore : (s.step c i).core = _ :=
    Datapath.step_port (c := c) (i := s.datapathIn c i) hstall hwait hmwait h.bds
  have hpc : (s.step c i).core.pc = σ.pc + 4 := by rw [hcore, h.pcs.pcLast]
  have hacc' : (s.step c i).core.dataAccessDly = true := by rw [hcore]
  have hmwait' : (s.step c i).core.mwait = false := by
    rw [Datapath.mwait, hacc', Bool.not_true, Bool.and_false]
  obtain ⟨hram, hread'⟩ := load_port hstall hmwait hstore'
  constructor
  · exact
      { ram := by rw [hram, h.ram]
        regs := by rw [hcore, h.regs]
        settled := System.step_settled hstall h.settled h.ack
        ack := by rw [hcore, h.ack]
        ex := by rw [hcore, h.ex]
        load := hload
        pc := hpc
        pcLast := by rw [hcore, h.pcs.pcLast]
        pcLast2 := by rw [hcore, h.pcs.pcLast2]
        bds := by rw [hcore, h.bds]
        stall := by rw [hcore]
        late := by rw [hcore, h.ex, hload]
        access := hacc'
        unit := by
          rw [hcore]
          exact h.idle_step hfast _ _
        data := fun i' hsel => by
          rw [← h.aluOut hfast] at hsel ⊢
          obtain ⟨hdirect, hdly, hword⟩ := hread' hsel
          have hper : periphSel ((s.step c i).core.address c) = false := by
            rw [Datapath.address_eq_pc hmwait', hpc]
            exact periphSel_add_four h.inRam
          simp [System.dataIn, System.dataRead, IntControl.dataInCpu, hdirect, hper, hdly, hword,
            h.ram] }
  · rw [System.commits_port hmwait hwait hstall, Datapath.dataW, dataW_of_noStore hstore',
      commitMem_zero]

/-- A store takes the memory port and commits. -/
theorem step_store (io : Word) (hstall : i.stall = false) (hstore : (σ.ex c).regToMem = true) :
    AtAccess L (s.step c i) (σ.next c L io) ∧
      s.commits c i = σ.effects c L io := by
  obtain ⟨hjump, hbranch, hreg, -⟩ := (σ.exclusive L).ofStore (Seq.regToMem_iff.mp hstore)
  have hload : (σ.ex c).memToReg = false := by
    rw [Seq.memToReg_eq_false]
    by_contra hr
    exact Seq.regToMem_iff.mp hstore ((σ.exclusive L).ofLoad hr).1
  have hfast := Seq.fast_of_not_slowShape (L := L) (.inr (.inl hstore))
  have hacc : (σ.ex c).dataAccess = true := by rw [Execute.dataAccess, hstore, Bool.true_or]
  have hmwait : s.core.mwait = true := by rw [h.mwait, hacc]
  have hwait : s.core.aluWait c = false := by rw [h.aluWait, hfast]
  have hwrites : σ.writes c = false := by rw [Seq.writes, hreg, hload]; rfl
  have hpc' : (σ.next c L io).pc = σ.pc + 4 := by
    simp [Seq.next, Seq.taken_of_straight hjump hbranch]
  have hcore : (s.step c i).core = _ :=
    Datapath.step_port (c := c) (i := s.datapathIn c i) hstall hwait hmwait h.bds
  have haddr : s.core.address c = (σ.out c L).result := by
    rw [Datapath.address_eq_result hmwait, h.aluOut hfast]
  have hlanes : s.core.dataW c = σ.lanes c L := by
    rw [Datapath.dataW, h.aluOut hfast, h.ex]
    rfl
  have hdata : s.core.dataOut = σ.data c := by
    rw [Datapath.dataOut, h.ex, h.regs]
    rfl
  -- a store to a peripheral leaves the RAM as it is
  have hram : (s.step c i).ram = (σ.next c L io).ram := by
    cases hsel : ramSel (σ.out c L).result with
    | false => simp [System.step, System.ramEnable, haddr, hsel, Seq.next, h.ram]
    | true =>
      have hper : (s.bus c).periphAccess = false := by
        apply periphAccess_of_ramSel
        rw [← haddr] at hsel
        exact hsel
      have hwe : (s.bus c).dataWeMem = σ.lanes c L := by
        rw [CpuBus.dataWeMem, if_pos ⟨hmwait, hper⟩]
        exact hlanes
      simp [System.step, System.ramEnable, haddr, hsel, hstall, hwe, hdata, h.ram, Seq.next, hstore]
  constructor
  · exact
      { ram := hram
        regs := by
          rw [hcore, h.regs]
          simp [Seq.next, hwrites]
        settled := System.step_settled hstall h.settled h.ack
        ack := by rw [hcore, h.ack]
        pc := by rw [hcore, h.pcs.pcLast, hpc']
        pcLast := by rw [hcore, h.pcs.pcLast, hpc']
        bds := by rw [hcore, h.bds]
        stall := by rw [hcore]
        isAccess := by rw [hcore, h.ex, hacc]
        access := by rw [hcore]
        jump := by rw [hcore, h.ex, hjump]
        branch := by rw [hcore, h.ex, hbranch]
        fast := by rw [hcore, h.ex, hfast]
        discard := fun hw => by
          rw [hcore, h.ex, hreg, hload] at hw
          simp at hw
        unit := by
          rw [hcore]
          exact h.idle_step hfast _ _ }
  · rw [System.commits_port hmwait hwait hstall, h.aluOut hfast, hlanes, hdata]
    simp [Seq.effects, Seq.effectReg, hwrites, Seq.effectMem, hstore]

end AtExecute

/-! ## The second cycle -/

/-- What the phases of the second cycle of an access have in common. -/
structure Replays (L : Contract c) (s : System n α) : Prop where
  settled : s.intc.Settled
  ack : s.core.irqAckDly = false
  stall : s.core.stallReg = false
  isAccess : s.core.ex.dataAccess = true
  access : s.core.dataAccessDly = true
  jump : s.core.ex.ctl.jump = 0
  branch : s.core.ex.ctl.branch = 0
  fast : L.slow s.core.ex.ctl.aluOp = false
  unit : L.Idle s.core.alu

namespace Replays

variable (h : Replays L s)
include h

theorem mwait : s.core.mwait = false := by
  rw [Datapath.mwait, h.access, Bool.not_true, Bool.and_false]

theorem aluWait : s.core.aluWait c = false := by
  rw [Datapath.aluWait, L.idle_wait h.unit, h.fast]

theorem irqAck_eq_false : s.irqAck c = false := by
  have hacc := h.isAccess
  rw [Execute.dataAccess] at hacc
  rcases (Bool.or_eq_true _ _).mp hacc with h' | h' <;>
    simp [System.irqAck, Datapath.irqAck, h']

theorem bubble : s.core.bubble c s.intc.irq = true := by
  have hacc := h.isAccess
  rw [Execute.dataAccess] at hacc
  simp [Datapath.bubble, hacc]

theorem branchTaken : s.core.branchTaken c = false := Execute.branchTaken_of_branch_zero h.branch _

theorem jumpTaken : s.core.ex.jumpTaken = false := by simp [Execute.jumpTaken, h.jump]

theorem pcNext : s.core.pcNext c s.intc.irq s.intc.irqVector = s.core.pc + 4 := by
  have hack : s.core.irqAck c s.intc.irq = false := h.irqAck_eq_false
  simp [Datapath.pcNext, hack, Execute.except_of_branch_zero h.branch, h.branchTaken, h.jumpTaken]

/-- Decode is held for one more cycle while the fetch is replayed. -/
theorem step (hstall : i.stall = false) (hpc : s.core.pc = σ.pc) (hram : s.ram = σ.ram)
    (hregs : (if s.core.ex.ctl.regWrite || s.core.memToRegDly then
      writeReg s.core.regs s.core.ex.rd (s.core.writeData c (s.dataIn c i))
      else s.core.regs) = σ.regs) :
    AtDecode L (s.step c i) σ ∧ (s.step c i).core.ex.memToReg = false := by
  have hcore : (s.step c i).core = _ :=
    Datapath.step_advance (c := c) (i := s.datapathIn c i) hstall h.aluWait h.mwait h.stall
  -- the word that was fetched is replaced by a bubble
  have hex : (s.step c i).core.ex = decode c.control 0 := by
    rw [hcore]
    show decode c.control (s.core.instIn c s.intc.irq (s.dataIn c i)) = _
    rw [Datapath.instIn_bubble h.bubble]
  have hidle : L.Idle (s.step c i).core.alu := by
    rw [hcore]
    exact L.idle_step h.unit h.fast
  refine ⟨?_, by rw [hex]; exact bubble_noLoad L⟩
  exact
    { ram := by rw [System.step_ram h.mwait, hram]
      regs := by
        rw [hcore]
        exact hregs
      stall := by rw [hcore]
      harmless := by
        rw [hex]
        exact harmless_bubble L _
      late := fun _ => by
        rw [hex]
        rfl
      unit := .inl hidle
      settled := System.step_settled hstall h.settled h.ack
      ack := by
        rw [hcore]
        exact h.irqAck_eq_false
      pc := by
        rw [hcore, ← hpc]
        exact h.pcNext
      pcLast := by rw [hcore, hpc]
      bds := by
        rw [hcore, h.branchTaken, h.jumpTaken]
        rfl
      decoded := ⟨_, hex⟩
      stray := fun hl => by
        rw [hex, bubble_noLoad L] at hl
        cases hl
      idle := hidle
      fetched := hpc ▸ System.step_fetched h.mwait hstall }

end Replays

namespace AtAccess

variable (h : AtAccess L s σ)
include h

theorem replays : Replays L s :=
  ⟨h.settled, h.ack, h.stall, h.isAccess, h.access, h.jump, h.branch, h.fast, h.unit⟩

theorem mwait : s.core.mwait = false := h.replays.mwait

theorem aluWait : s.core.aluWait c = false := h.replays.aluWait

theorem irqAck_eq_false : s.irqAck c = false := h.replays.irqAck_eq_false

theorem discard' (hw : (s.core.ex.ctl.regWrite || s.core.memToRegDly) = true) :
    s.core.ex.rd = 0 := h.discard ((Bool.or_eq_true _ _).mp hw)

theorem commits : s.commits c i = [] := by
  rw [System.commits, System.commitsMem_nil h.mwait, List.append_nil, System.commitsReg]
  split
  · rename_i hw
    rw [Datapath.wreg, h.aluWait, Bool.or_false, Bool.and_eq_true, Bool.and_eq_true] at hw
    rw [h.discard' hw.1.1]
    rfl
  · rfl

/-- Nothing is left to write. -/
theorem step (hstall : i.stall = false) :
    AtDecode L (s.step c i) σ ∧ (s.step c i).core.ex.memToReg = false := by
  refine h.replays.step hstall h.pc h.ram ?_
  split
  · rename_i hw
    funext r
    simp [writeReg, h.discard' hw, h.regs]
  · exact h.regs

end AtAccess

namespace AtLoad

variable (h : AtLoad L s σ)
include h

theorem fast : L.slow (σ.ex c).ctl.aluOp = false :=
  Seq.fast_of_not_slowShape (.inl h.load)

theorem replays : Replays L s := by
  obtain ⟨-, hjump, hbranch⟩ := load_shape (σ.exclusive L) (Seq.memToReg_iff.mp h.load)
  refine ⟨h.settled, h.ack, h.stall, ?_, h.access, ?_, ?_, ?_, h.unit⟩
  · rw [Execute.dataAccess, h.ex, h.load, Bool.or_true]
  · rw [h.ex, hjump]
  · rw [h.ex, hbranch]
  · rw [h.ex, h.fast]

theorem mwait : s.core.mwait = false := h.replays.mwait

theorem aluWait : s.core.aluWait c = false := h.replays.aluWait

theorem irqAck_eq_false : s.irqAck c = false := h.replays.irqAck_eq_false

/-- The address is still computed: a load does not look at the program counter. -/
theorem aluOut : s.core.aluOut c = σ.out c L := by
  have hsrc : (σ.ex c).ctl.aluSrc2 ≠ 0b011 :=
    ((σ.exclusive L).ofLoad (Seq.memToReg_iff.mp h.load)).2.2.2
  have hsrc1 : s.core.ex.aluSrc1 s.core.regs s.core.pcLast2 = σ.op1 c := by
    rw [h.ex, h.regs, h.pcLast2]
    rfl
  have hsrc2 : s.core.ex.aluSrc2 s.core.regs s.core.pc = σ.op2 c := by
    rw [h.ex, h.regs, Seq.op2, Execute.aluSrc2, Execute.aluSrc2]
    simp only [if_neg hsrc]
  rw [Datapath.aluOut, hsrc1, hsrc2, h.ex, L.fast_alu h.fast (σ.exclusive L).code]
  rfl

theorem writeData : s.core.writeData c (s.dataIn c i) = σ.value c L (s.dataIn c i) := by
  have hword : σ.loadWord c L (s.dataIn c i) = s.dataIn c i := by
    rw [Seq.loadWord]
    split
    · rename_i hsel
      rw [h.data i hsel]
    · rfl
  rw [Datapath.writeData, h.aluOut, h.ex, h.pcLast, Seq.value, hword]

theorem writes : σ.writes c = true := by rw [Seq.writes, h.load, Bool.or_true]

theorem noStore : (σ.ex c).regToMem = false :=
  Seq.regToMem_eq_false.mpr ((σ.exclusive L).ofLoad (Seq.memToReg_iff.mp h.load)).1

theorem commits : s.commits c i = σ.effects c L (s.dataIn c i) := by
  have hw : s.core.wreg c = true := by
    simp [Datapath.wreg, h.late, h.mwait, h.stall]
  rw [System.commits, System.commitsMem_nil h.mwait, System.commitsReg, if_pos hw, h.writeData,
    h.ex]
  simp [Seq.effects, Seq.effectReg, h.writes, Seq.effectMem, h.noStore]

/-- The load writes its register while the fetch is replayed. -/
theorem step (hstall : i.stall = false) :
    AtDecode L (s.step c i) (σ.next c L (s.dataIn c i)) ∧
      (s.step c i).core.ex.memToReg = false := by
  obtain ⟨-, hjump, hbranch⟩ := load_shape (σ.exclusive L) (Seq.memToReg_iff.mp h.load)
  have hpc : (σ.next c L (s.dataIn c i)).pc = σ.pc + 4 := by
    simp [Seq.next, Seq.taken_of_straight hjump hbranch]
  have hram : (σ.next c L (s.dataIn c i)).ram = σ.ram := by simp [Seq.next, h.noStore]
  refine h.replays.step hstall (h.pc.trans hpc.symm) (h.ram.trans hram.symm) ?_
  rw [h.late, Bool.or_true, if_pos rfl, h.writeData, h.ex, h.regs]
  simp [Seq.next, h.writes]

end AtLoad

/-! ## Slow computations -/

/-- A slow code is a plain computation into a register. -/
theorem slow_shape (L : Contract c) {e : Execute} (hexc : e.ctl.Exclusive)
    (hslow : L.slow e.ctl.aluOp = true) :
    e.ctl.memRead = 0 ∧ e.ctl.memWrite = 0 ∧ e.ctl.jump = 0 ∧ e.ctl.branch = 0 ∧
      e.ctl.regWrite = true := hexc.ofSlow (L.slow_le hslow)

/-- The ALU starts, and holds the instruction in execute. -/
theorem AtExecute.step_slow (h : AtExecute L s σ) (hstall : i.stall = false)
    (hslow : L.slow (σ.ex c).ctl.aluOp = true) :
    (∃ k ≤ L.latency, AtMul L k (s.step c i) σ) ∧ s.finals c i = [] := by
  obtain ⟨hread, hwrite, -, -, -⟩ := slow_shape L (σ.exclusive L) hslow
  have hload : (σ.ex c).memToReg = false := Seq.memToReg_eq_false.mpr hread
  have hstore : (σ.ex c).regToMem = false := Seq.regToMem_eq_false.mpr hwrite
  have hmwait : s.core.mwait = false := by
    rw [h.mwait, Execute.dataAccess, hstore, hload]
    rfl
  have hwait : s.core.aluWait c = true := by rw [h.aluWait, hslow]
  have hcore : (s.step c i).core = _ :=
    Datapath.step_wait (c := c) (i := s.datapathIn c i) hwait
  obtain ⟨k, hk, hbusy⟩ := L.start (x := σ.op1 c) (y := σ.op2 c) h.unit hslow
  have hbusy' : L.Busy (s.step c i).core.alu (σ.op1 c) (σ.op2 c) (σ.ex c).ctl.aluOp k := by
    rw [hcore]
    show L.Busy (c.aluStep s.core.alu (s.core.ex.aluSrc1 s.core.regs s.core.pcLast2)
      (s.core.ex.aluSrc2 s.core.regs s.core.pc) s.core.ex.ctl.aluOp) _ _ _ _
    rw [h.src1, h.src2, h.ex]
    exact hbusy
  refine ⟨⟨k, hk, ?_⟩, ?_⟩
  · exact
      { ram := by rw [System.step_ram hmwait, h.ram]
        regs := fun r hr => by
          rw [hcore]
          show writeReg s.core.regs s.core.ex.rd _ r = _
          rw [h.ex, h.regs, writeReg]
          rcases hr with hr | rfl
          · simp [hr]
          · simp only [ne_eq, ite_eq_right_iff, and_imp]
            exact fun hne heq => absurd heq.symm hne
        settled := System.step_settled hstall h.settled h.ack
        ack := by rw [hcore, h.ack]
        ex := by rw [hcore, h.ex]
        slow := hslow
        pcs := ⟨by rw [hcore, h.pcs.pc], by rw [hcore, h.pcs.pcLast], by rw [hcore, h.pcs.pcLast2]⟩
        bds := by rw [hcore, h.bds]
        late := by rw [hcore, h.late]
        access := by rw [hcore, h.access]
        unit := hbusy' }
  · have hwait' : (s.step c i).core.aluWait c = true := by
      have hex : (s.step c i).core.ex = σ.ex c := by rw [hcore, h.ex]
      rw [Datapath.aluWait, hex, L.busy_wait hbusy']
    simp [System.finals, System.isTransient, hwait, hwait']

namespace AtMul

variable {k : ℕ} (h : AtMul L k s σ)
include h

theorem mwait : s.core.mwait = false := by
  obtain ⟨hread, hwrite, -, -, -⟩ := slow_shape L (σ.exclusive L) h.slow
  rw [Datapath.mwait, h.ex, Execute.dataAccess, Seq.memToReg_eq_false.mpr hread,
    Seq.regToMem_eq_false.mpr hwrite]
  rfl

theorem aluWait : s.core.aluWait c = true := by
  rw [Datapath.aluWait, h.ex, L.busy_wait h.unit]

theorem commits : s.commits c i = commitReg (σ.ex c).rd (s.core.writeData c (s.dataIn c i)) := by
  have hw : s.core.wreg c = true := by simp [Datapath.wreg, h.aluWait]
  rw [System.commits, System.commitsMem_nil h.mwait, System.commitsReg, if_pos hw, h.ex,
    List.append_nil]

theorem core_step : (s.step c i).core =
    { s.core with
      stallReg := true
      regs := writeReg s.core.regs (σ.ex c).rd (s.core.writeData c (s.dataIn c i))
      alu := c.aluStep s.core.alu (s.core.ex.aluSrc1 s.core.regs s.core.pcLast2)
        (s.core.ex.aluSrc2 s.core.regs s.core.pc) (σ.ex c).ctl.aluOp } := by
  have hcore : (s.step c i).core = _ :=
    Datapath.step_wait (c := c) (i := s.datapathIn c i) h.aluWait
  rw [hcore, ← h.ex]
  rfl

/-- The register file changes at the destination only. -/
theorem frame (r : BitVec 5) (hr : r ≠ (σ.ex c).rd ∨ r = 0) :
    (s.step c i).core.regs r = σ.regs r := by
  rw [h.core_step, ← h.regs r hr]
  show writeReg s.core.regs (σ.ex c).rd _ r = _
  rw [writeReg, if_neg]
  rintro ⟨hne, heq⟩
  rcases hr with hr | hr
  · exact hr heq
  · rw [hr] at heq
    exact hne heq.symm

end AtMul

/-- The computation goes on. -/
theorem AtMul.step {k : ℕ} (h : AtMul L (k + 1) s σ) (hstall : i.stall = false) :
    AtMul L k (s.step c i) σ ∧ s.finals c i = [] := by
  have hcore := h.core_step (i := i)
  have hbusy : L.Busy (s.step c i).core.alu (σ.op1 c) (σ.op2 c) (σ.ex c).ctl.aluOp k := by
    rw [hcore]
    exact L.busy_step h.unit
  have hex : (s.step c i).core.ex = σ.ex c := by rw [hcore, h.ex]
  constructor
  · exact
      { ram := by rw [System.step_ram h.mwait, h.ram]
        regs := h.frame
        settled := System.step_settled hstall h.settled h.ack
        ack := by rw [hcore, h.ack]
        ex := hex
        slow := h.slow
        pcs := ⟨by rw [hcore, h.pcs.pc], by rw [hcore, h.pcs.pcLast], by rw [hcore, h.pcs.pcLast2]⟩
        bds := by rw [hcore, h.bds]
        late := by rw [hcore, h.late]
        access := by rw [hcore, h.access]
        unit := hbusy }
  · have hwait' : (s.step c i).core.aluWait c = true := by
      rw [Datapath.aluWait, hex, L.busy_wait hbusy]
    simp [System.finals, System.isTransient, h.aluWait, hwait']

/-- The last cycle of the wait: the result is in the destination register. -/
theorem AtMul.step_last (h : AtMul L 0 s σ) (hstall : i.stall = false) (io : Word) :
    AtRelease L (s.step c i) (σ.next c L io) ∧
      s.finals c i = σ.effects c L io := by
  obtain ⟨hread, hwrite, hjump, hbranch, hreg⟩ := slow_shape L (σ.exclusive L) h.slow
  have hload : (σ.ex c).memToReg = false := Seq.memToReg_eq_false.mpr hread
  have hstore : (σ.ex c).regToMem = false := Seq.regToMem_eq_false.mpr hwrite
  have hcore := h.core_step (i := i)
  have hex : (s.step c i).core.ex = σ.ex c := by rw [hcore, h.ex]
  have hrel : L.Released (s.step c i).core.alu := by
    rw [hcore]
    exact L.busy_done h.unit
  have hpc' : (σ.next c L io).pc = σ.pc + 4 := by
    simp [Seq.next, Seq.taken_of_straight hjump hbranch]
  have hwrites : σ.writes c = true := by rw [Seq.writes, hreg, Bool.true_or]
  have hvalue : s.core.writeData c (s.dataIn c i) = σ.value c L io := by
    have hres : (s.core.aluOut c).result = (σ.out c L).result := by
      rw [Datapath.aluOut, h.ex]
      exact L.busy_alu h.unit
    rw [Datapath.writeData, h.ex, hres, h.pcs.pcLast]
    exact writeData_of_noLoad hread _ _ _ _
  constructor
  · exact
      { ram := by
          rw [System.step_ram h.mwait, h.ram]
          simp [Seq.next, hstore]
        -- Only `rd` has been written, and its last write is the result.
        regs := by
          funext r
          by_cases hr : r ≠ (σ.ex c).rd ∨ r = 0
          · rw [h.frame r hr]
            simp only [Seq.next, hwrites, if_true, writeReg]
            rw [if_neg]
            rintro ⟨hne, heq⟩
            rcases hr with hr | hr
            · exact hr heq
            · rw [hr] at heq
              exact hne heq.symm
          · push Not at hr
            rw [hcore]
            show writeReg s.core.regs (σ.ex c).rd _ r = _
            simp only [Seq.next, hwrites, if_true, writeReg, hvalue]
            rw [if_pos ⟨hr.1 ▸ hr.2, hr.1⟩, if_pos ⟨hr.1 ▸ hr.2, hr.1⟩]
        settled := System.step_settled hstall h.settled h.ack
        ack := by rw [hcore, h.ack]
        pc := by
          rw [hcore, h.pcs.pc, hpc', BitVec.add_assoc]
          rfl
        pcLast := by rw [hcore, h.pcs.pcLast, hpc']
        bds := by rw [hcore, h.bds]
        stall := by rw [hcore]
        slow := by rw [hex, h.slow]
        exclusive := by
          rw [hex]
          exact σ.exclusive L
        noStore := by rw [hex, hstore]
        noLoad := by rw [hex, hload]
        unit := hrel }
  · have hwait' : (s.step c i).core.aluWait c = false := by
      rw [Datapath.aluWait, L.released_wait hrel]
    have htr : s.isTransient c i = false := by
      rw [System.isTransient, hwait', Bool.and_false]
    rw [System.finals, htr, if_neg Bool.false_ne_true, h.commits, hvalue]
    simp [Seq.effects, Seq.effectReg, hwrites, Seq.effectMem, hstore]

namespace AtRelease

variable (h : AtRelease L s σ)
include h

theorem mwait : s.core.mwait = false := by
  rw [Datapath.mwait, Execute.dataAccess, h.noStore, h.noLoad]
  rfl

theorem aluWait : s.core.aluWait c = false := by
  rw [Datapath.aluWait, L.released_wait h.unit]

theorem commits : s.commits c i = [] := by
  have hw : s.core.wreg c = false := by simp [Datapath.wreg, h.stall, h.aluWait]
  rw [System.commits, System.commitsMem_nil h.mwait, System.commitsReg_nil hw]
  rfl

/-- The fetch is replayed; without a request, nothing else happens. -/
theorem step (hstall : i.stall = false) (hirq : s.intc.irq = false) :
    AtFetch L (s.step c i) σ ∧ L.Cooling (s.step c i).core.alu ∧
      (s.step c i).core.irqAckDly = false := by
  obtain ⟨-, -, hjump, hbranch, -⟩ := slow_shape L h.exclusive h.slow
  have hcore : (s.step c i).core = _ :=
    Datapath.step_release (c := c) (i := s.datapathIn c i) hstall h.aluWait h.mwait h.stall
  have hack : s.core.irqAck c (s.datapathIn c i).irq = false := by
    show s.core.irqAck c s.intc.irq = false
    rw [hirq, Datapath.irqAck_of_irq_false]
  have hcool : L.Cooling (s.step c i).core.alu := by
    rw [hcore]
    exact L.released_step h.unit
  refine ⟨?_, hcool, by rw [hcore, hack]⟩
  exact
    { ram := by rw [System.step_ram h.mwait, h.ram]
      regs := by rw [hcore, h.regs]
      stall := by rw [hcore]
      harmless := by
        rw [hcore]
        exact harmless_bubble L _
      late := fun _ => by
        rw [hcore]
        rfl
      unit := .inr hcool
      pc := by rw [hcore, h.pcLast]
      noLoad := by
        rw [hcore]
        exact bubble_noLoad L }

end AtRelease

end HfRisc.Pipe
