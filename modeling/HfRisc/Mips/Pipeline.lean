import HfRisc.Mips.Circuit
import HfRisc.Mips.System
import HfRisc.Rtl.Step

/-!
# The MIPS pipeline, one instruction after another

The phases an instruction passes through, from the fetch to its last cycle. A load or store has the
bus in its first cycle, and the word behind it is fetched again. A branch or jump leads to its delay
slot, and the word behind the slot is killed.
-/

namespace HfRisc.Mips

open HfRisc.Rtl (Input wordIndex writeRam mergeLanes commitMem laneBytes periphSel
  periphSel_add_four periphSel_of_ramSel periphAccess_of_ramSel mergeLanes_zero writeRam_zero)

/-! ## Control words -/

/-- A load or store neither branches nor jumps, and a load writes no lanes. -/
structure Control.Separate (c : Control) : Prop where
  straight : c.regToMem = true ∨ c.memToReg = true → c.jump = 0 ∧ c.branch = 0
  ofLoad : c.memToReg = true → c.memWrite = 0

theorem Control.Separate.ite {p : Prop} [Decidable p] {c d : Control} (hc : c.Separate)
    (hd : d.Separate) : (if p then c else d).Separate := by
  split
  · exact hc
  · exact hd

theorem Control.Separate.of_quiet {c : Control} (hload : c.memToReg = false)
    (hstore : c.regToMem = false) : c.Separate where
  straight h := by simp [hload, hstore] at h
  ofLoad h := by simp [hload] at h

theorem separate_control (opcode funct : BitVec 6) (rtx : BitVec 5) :
    (control opcode funct rtx).Separate := by
  unfold control controlSpecial controlRegimm
  repeat' apply Control.Separate.ite
  all_goals first
    | exact .of_quiet rfl rfl
    | exact ⟨fun _ => ⟨rfl, rfl⟩, fun _ => rfl⟩
    | exact ⟨fun _ => ⟨rfl, rfl⟩, fun h => nomatch h⟩

/-- The bubble writes register 0 and does nothing else. -/
def bubble : Execute := decode 0

/-- Nothing leads elsewhere exactly when neither a branch nor a jump is taken. -/
theorem redirect_eq_none {e : Execute} {regs : BitVec 5 → Word} {pc : Word} :
    e.redirect regs pc = none ↔ (e.branchTaken regs || e.jumpTaken) = false := by
  rw [Execute.redirect]
  cases e.branchTaken regs <;> cases e.jumpTaken <;> simp

/-! ## Cycles -/

namespace Datapath

variable {s : Datapath} {i : Rtl.DatapathIn}

/-- A cycle in which nothing waits for the memory. -/
theorem step_quiet (hi : Seq.Quiet i) (hwait : s.mwait = false) :
    s.step i =
      { pc := (s.ex.redirect s.regs s.pcLast).getD (s.pc + 4)
        pcLast := s.pc
        irqAckDly := false
        bds := s.ex.branchTaken s.regs || s.ex.jumpTaken
        memToRegDly := s.ex.ctl.memToReg
        dataAccessDly := s.ex.dataAccess
        stallReg := false
        ex := decode (s.instIn false i.dataIn)
        regs := if s.wreg then Rtl.writeReg s.regs s.ex.writeReg (s.writeData i.dataIn)
          else s.regs } := by
  rw [step, hi.stall, hi.irq, hwait]
  simp [pcNext, irqAck]

/-- The cycle in which a load or store has the bus. -/
theorem step_wait (hi : Seq.Quiet i) (hwait : s.mwait = true) :
    s.step i =
      { s with
        pc := if s.bds = false then s.pcLast else s.pc
        memToRegDly := s.ex.ctl.memToReg
        dataAccessDly := true
        stallReg := false } := by
  have hacc : s.ex.dataAccess = true := (Bool.and_eq_true_iff.mp hwait).1
  have hwreg : s.wreg = false := by rw [wreg, hwait]; simp
  rw [step, hi.stall, hwait, hwreg, hacc]
  simp

theorem address_quiet (hwait : s.mwait = false) : s.address = s.pc := by
  rw [address, hwait]
  simp

theorem address_wait (hwait : s.mwait = true) : s.address = (s.ex.aluOut s.regs).result := by
  rw [address, if_pos ⟨(Bool.and_eq_true_iff.mp hwait).1, hwait⟩]

/-- The word behind a load or store is dropped. -/
theorem instIn_access (h : s.ex.dataAccess = true) (irq : Bool) (w : Word) :
    s.instIn irq w = 0 := by
  rw [Execute.dataAccess] at h
  rw [instIn, h]
  rfl

end Datapath

namespace System

variable {n : ℕ} {s : System n} {i : Input} {a : Word}

/-- The word at `a` has been read, and waits for the core. -/
structure Fetched (s : System n) (a : Word) : Prop where
  periph : ramSel a = true → s.periphDly = false
  word : ramSel a = true → s.dataReadRam = s.ram (wordIndex n a)

/-- A fetched word reaches the core while another address in or behind the RAM is there. -/
theorem dataIn_fetched (h : s.Fetched a) (ha : ramSel a = true)
    (hdly : s.intc.periphAccessDly = false) (hper : periphSel s.core.address = false) :
    s.dataIn i = s.ram (wordIndex n a) := by
  rw [dataIn, Rtl.IntControl.dataInCpu, if_pos hdly, dataRead, hper, h.periph ha, ← h.word ha]
  rfl

theorem quiet_datapathIn (hstall : i.stall = false) (hrest : Resting s.intc) :
    Seq.Quiet (s.datapathIn i) := ⟨hstall, hrest.irq⟩

/-- In a quiet cycle the word at the program counter is read, and the RAM stays. -/
theorem step_memory_quiet (hstall : i.stall = false) (hwait : s.core.mwait = false) :
    (s.step i).ram = s.ram ∧ (s.step i).Fetched s.core.pc := by
  have hlanes : s.bus.dataWeMem = 0#4 := by simp [bus, Rtl.CpuBus.dataWeMem, hwait]
  have hram : (s.step i).ram = s.ram := by
    simp only [step, hlanes, writeRam_zero, ite_self]
  refine ⟨hram, fun ha => ?_, fun ha => ?_⟩
  · show periphSel s.core.address = false
    rw [Datapath.address_quiet hwait]
    exact periphSel_of_ramSel ha
  · rw [hram]
    show (if s.ramEnable i then _ else _) = _
    rw [ramEnable, Datapath.address_quiet hwait, ha, hstall, hlanes, mergeLanes_zero]
    rfl

theorem resting_quiet (hrest : Resting s.intc) (hwait : s.core.mwait = false) :
    Resting (s.step i).intc := by
  refine hrest.step ?_
  show (_ && s.core.mwait) = false
  rw [hwait, Bool.and_false]

/-- A data access in RAM is none to the controller. -/
theorem periphAccess_wait (hwait : s.core.mwait = true)
    (ha : ramSel (s.core.ex.aluOut s.core.regs).result = true) : s.bus.periphAccess = false := by
  refine periphAccess_of_ramSel ?_
  show ramSel s.core.address = true
  rw [Datapath.address_wait hwait]
  exact ha

/-- In the cycle of a data access in RAM the lanes are written, and with none the word is read. -/
theorem step_memory_wait (hstall : i.stall = false) (hwait : s.core.mwait = true)
    (ha : ramSel (s.core.ex.aluOut s.core.regs).result = true) :
    (s.step i).ram =
        writeRam s.ram (s.core.ex.aluOut s.core.regs).result s.bus.dataW s.bus.dataOut ∧
      (s.bus.dataW = 0#4 → (s.step i).Fetched (s.core.ex.aluOut s.core.regs).result) := by
  have hlanes : s.bus.dataWeMem = s.bus.dataW := by
    rw [Rtl.CpuBus.dataWeMem, periphAccess_wait hwait ha]
    exact if_pos ⟨hwait, rfl⟩
  have haddr := Datapath.address_wait hwait
  have hen : s.ramEnable i = true := by rw [ramEnable, haddr, ha, hstall]; rfl
  have hram : (s.step i).ram =
      writeRam s.ram (s.core.ex.aluOut s.core.regs).result s.bus.dataW s.bus.dataOut := by
    simp only [step, hen, hlanes, haddr, if_true]
  refine ⟨hram, fun hzero => ⟨fun _ => ?_, fun _ => ?_⟩⟩
  · show periphSel s.core.address = false
    rw [haddr]
    exact periphSel_of_ramSel ha
  · rw [hram, hzero, writeRam_zero]
    simp only [step, hen, hlanes, hzero, haddr, if_true, mergeLanes_zero]

end System

/-! ## What an instruction does -/

namespace Seq

variable {n : ℕ} (σ : Seq n) (next : Word)

/-- The writes of the instruction. -/
def effects : List Commit :=
  (if σ.writes then commitReg σ.ex.writeReg σ.value else []) ++
    if σ.ex.ctl.regToMem then commitMem σ.result σ.lanes σ.data else []

/-- The state behind the instruction, with the one at `next` to be executed. -/
def behind : Seq n := ⟨σ.nextRegs, next, σ.nextRam⟩

/-- The address behind that. -/
def following : Word := σ.outcome.target.getD (next + 4)

/-- The instruction neither leads elsewhere nor links. -/
structure Plain : Prop where
  jump : σ.ex.ctl.jump = 0
  branch : σ.ex.ctl.branch = 0
  link : σ.ex.ctl.brLink = false

/-- What the pipeline relies on: program and data lie in RAM, and the instruction in the delay slot
of one that leads elsewhere is plain. -/
structure Fits : Prop where
  here : ramSel σ.pc = true
  ahead : ramSel next = true
  access : σ.ex.dataAccess = true → ramSel σ.result = true
  slot : σ.outcome.target ≠ none → (σ.behind next).Plain

variable {σ}

theorem redirect_of_plain (h : σ.Plain) (regs : BitVec 5 → Word) (pc : Word) :
    σ.ex.redirect regs pc = none := redirect_straight h.jump h.branch regs pc

theorem redirect_of_access (h : σ.ex.dataAccess = true) (regs : BitVec 5 → Word) (pc : Word) :
    σ.ex.redirect regs pc = none := by
  obtain ⟨hjump, hbranch⟩ :=
    (separate_control _ _ _ : σ.ex.ctl.Separate).straight (Bool.or_eq_true_iff.mp h)
  exact redirect_straight hjump hbranch regs pc

/-- The link is the only use of the program counter. -/
theorem writeData_of_plain {e : Execute} (h : e.ctl.brLink = false) (a d pc pc' : Word) :
    e.writeData a d pc = e.writeData a d pc' := by
  simp only [Execute.writeData, h]
  rfl

end Seq

/-! ## Phases -/

variable {n : ℕ} {σ : Seq n} {next : Word} {s : System n} {i : Input} {r : ℕ}

/-- What the phases share. -/
structure Calm (σ : Seq n) (s : System n) : Prop where
  regs : s.core.regs = σ.regs
  ram : s.ram = σ.ram
  rest : System.Resting s.intc
  stallReg : s.core.stallReg = false

/-- The instruction is being fetched, and what is in front of it does nothing any more. -/
structure AtFetch (σ : Seq n) (s : System n) : Prop extends Calm σ s where
  pc : s.core.pc = σ.pc
  wait : s.core.mwait = false
  straight : s.core.ex.redirect s.core.regs s.core.pcLast = none
  killed : ∀ w, s.core.instIn false w = 0
  silent : s.core.wreg = true → s.core.ex.writeReg = 0

/-- The instruction is being decoded, behind a bubble. -/
structure AtDecode (σ : Seq n) (s : System n) : Prop extends Calm σ s where
  pc : s.core.pc = σ.pc + 4
  ex : s.core.ex = bubble
  bds : s.core.bds = false
  fetched : s.Fetched σ.pc

/-- The instruction has entered the execute stage, with the one behind it in decode, or in the delay
slot of one that leads elsewhere. -/
structure AtExecute (σ : Seq n) (next : Word) (s : System n) : Prop extends Calm σ s where
  ex : s.core.ex = σ.ex
  pcLast : s.core.pcLast = σ.pc + 4
  access : s.core.dataAccessDly = false
  load : s.core.memToRegDly = false
  place : (s.core.bds = false ∧ next = σ.pc + 4 ∧ s.core.pc = σ.pc + 8 ∧ s.Fetched (σ.pc + 4)) ∨
    (s.core.bds = true ∧ s.core.pc = next ∧ σ.Plain)

/-- The second cycle of a load. -/
structure AtLoad (σ : Seq n) (next : Word) (s : System n) : Prop extends Calm σ s where
  ex : s.core.ex = σ.ex
  memToReg : σ.ex.ctl.memToReg = true
  access : s.core.dataAccessDly = true
  load : s.core.memToRegDly = true
  pc : s.core.pc = next
  fetched : s.Fetched σ.result

/-- The phases, with a bound on the silent cycles to come. -/
inductive Phase : ℕ → Seq n → Word → System n → Prop
  | fetch {σ : Seq n} {s : System n} (h : AtFetch σ s) : Phase 3 σ (σ.pc + 4) s
  | decode {σ : Seq n} {s : System n} (h : AtDecode σ s) : Phase 2 σ (σ.pc + 4) s
  | execute {σ : Seq n} {next : Word} {s : System n} (h : AtExecute σ next s) : Phase 1 σ next s
  | load {σ : Seq n} {next : Word} {s : System n} (h : AtLoad σ next s) : Phase 0 σ next s

theorem writeReg_zero (regs : BitVec 5 → Word) (v : Word) : Rtl.writeReg regs 0 v = regs := by
  funext k
  exact if_neg fun h => h.1 rfl

/-- A bubble commits nothing. -/
theorem commits_silent (hwait : s.core.mwait = false)
    (hsilent : s.core.wreg = true → s.core.ex.writeReg = 0) : s.commits i = [] := by
  have hreg : s.commitsReg i = [] := by
    rw [System.commitsReg]
    split
    · next h => rw [hsilent h]; rfl
    · rfl
  have hmem : s.commitsMem i = [] := by
    rw [System.commitsMem, if_neg fun h => absurd h.1 (by rw [hwait]; decide)]
  rw [System.commits, hreg, hmem]
  rfl

theorem AtFetch.step (h : AtFetch σ s) (hstall : i.stall = false) :
    AtDecode σ (s.step i) ∧ s.commits i = [] := by
  have hcore := Datapath.step_quiet (System.quiet_datapathIn hstall h.rest) h.wait
  obtain ⟨hram, hfetched⟩ := System.step_memory_quiet hstall h.wait
  refine ⟨⟨⟨?_, hram.trans h.ram, System.resting_quiet h.rest h.wait, ?_⟩, ?_, ?_, ?_, ?_⟩,
    commits_silent h.wait h.silent⟩
  · rw [System.step, hcore]
    dsimp only
    split
    · next hw => rw [h.silent hw, writeReg_zero, h.regs]
    · exact h.regs
  · rw [System.step, hcore]
  · rw [System.step, hcore, h.straight, h.pc]
    rfl
  · rw [System.step, hcore]
    dsimp only
    rw [h.killed]
    rfl
  · rw [System.step, hcore]
    exact redirect_eq_none.mp h.straight
  · rw [← h.pc]
    exact hfetched

theorem AtDecode.wait (h : AtDecode σ s) : s.core.mwait = false := by
  rw [Datapath.mwait, h.ex]
  rfl

theorem AtDecode.step (h : AtDecode σ s) (hstall : i.stall = false) (hpc : ramSel σ.pc = true) :
    AtExecute σ (σ.pc + 4) (s.step i) ∧ s.commits i = [] := by
  have hcore := Datapath.step_quiet (System.quiet_datapathIn hstall h.rest) h.wait
  obtain ⟨hram, hfetched⟩ := System.step_memory_quiet hstall h.wait
  have hsilent : s.core.wreg = true → s.core.ex.writeReg = 0 := by
    intro
    rw [h.ex]
    rfl
  have hper : periphSel s.core.address = false := by
    rw [Datapath.address_quiet h.wait, h.pc]
    exact periphSel_add_four hpc
  have hword : s.dataIn i = σ.fetch := by
    rw [System.dataIn_fetched h.fetched hpc h.rest.access hper, h.ram]
    rfl
  have hinst : s.core.instIn false (s.dataIn i) = σ.fetch := by
    rw [Datapath.instIn, h.ex, h.bds, Datapath.irqAck, hword]
    rfl
  have hredirect : s.core.ex.redirect s.core.regs s.core.pcLast = none := by
    rw [h.ex]
    exact redirect_straight rfl rfl _ _
  refine ⟨⟨⟨?_, hram.trans h.ram, System.resting_quiet h.rest h.wait, ?_⟩, ?_, ?_, ?_, ?_,
    .inl ⟨?_, rfl, ?_, ?_⟩⟩, commits_silent h.wait hsilent⟩
  · rw [System.step, hcore]
    dsimp only
    split
    · next hw => rw [hsilent hw, writeReg_zero, h.regs]
    · exact h.regs
  · rw [System.step, hcore]
  · rw [System.step, hcore]
    exact congrArg Mips.decode hinst
  · rw [System.step, hcore]
    exact h.pc
  · rw [System.step, hcore, h.ex]
    rfl
  · rw [System.step, hcore, h.ex]
    rfl
  · rw [System.step, hcore]
    exact redirect_eq_none.mp hredirect
  · rw [System.step, hcore, hredirect, h.pc, Option.getD_none, BitVec.add_assoc]
    rfl
  · rw [← h.pc]
    exact hfetched

/-! ## The execute stage -/

namespace AtExecute

variable (h : AtExecute σ next s)
include h

theorem redirect_eq :
    s.core.ex.redirect s.core.regs s.core.pcLast = σ.outcome.target := by
  rw [h.ex, h.regs, h.pcLast]
  rfl

theorem result_eq : (s.core.ex.aluOut s.core.regs).result = σ.result := by
  rw [h.ex, h.regs]
  rfl

theorem lanes_eq : s.bus.dataW = σ.lanes := by
  show s.core.ex.dataW _ = _
  rw [h.result_eq, h.ex]
  rfl

theorem data_eq : s.bus.dataOut = σ.data := by
  show s.core.ex.dataOut _ = _
  rw [h.ex, h.regs]
  rfl

/-- Where the core goes behind a load or store. -/
theorem pc_wait : (if s.core.bds = false then s.core.pcLast else s.core.pc) = next := by
  rcases h.place with ⟨hbds, hnext, -, -⟩ | ⟨hbds, hpc, -⟩
  · rw [if_pos hbds, h.pcLast, hnext]
  · rw [if_neg (by rw [hbds]; decide), hpc]

section Quiet

variable (hacc : σ.ex.dataAccess = false)
include hacc

theorem wait_quiet : s.core.mwait = false := by
  rw [Datapath.mwait, h.ex, hacc, Bool.false_and]

theorem wreg_quiet : s.core.wreg = σ.writes := by
  have hload : σ.ex.ctl.memToReg = false := (Bool.or_eq_false_iff.mp hacc).2
  rw [Datapath.wreg, h.wait_quiet hacc, h.load, h.stallReg, h.ex, Seq.writes, hload]
  simp

theorem writeData_quiet (w : Word) : s.core.writeData w = σ.value := by
  have hload : σ.ex.ctl.memToReg = false := (Bool.or_eq_false_iff.mp hacc).2
  have hread : σ.ex.ctl.memRead = 0 := by
    by_contra hne
    rw [(Seq.regular_ex σ).ofRead.mp hne] at hload
    cases hload
  rw [Datapath.writeData, h.result_eq, h.ex, Seq.value,
    Seq.writeData_of_memRead hread _ w σ.loadWord]
  -- a link is two words ahead, but for the delay slot, where nothing links
  rcases h.place with ⟨-, -, hpc, -⟩ | ⟨-, -, hplain⟩
  · rw [hpc]
  · exact Seq.writeData_of_plain hplain.link _ _ _ _

theorem commits_quiet : s.commits i = σ.effects := by
  have hstore : σ.ex.ctl.regToMem = false := (Bool.or_eq_false_iff.mp hacc).1
  have hmem : s.commitsMem i = [] := by
    rw [System.commitsMem, if_neg fun hw => absurd hw.1 (by rw [h.wait_quiet hacc]; decide)]
  rw [System.commits, hmem, System.commitsReg, h.wreg_quiet hacc, h.writeData_quiet hacc, h.ex,
    Seq.effects, hstore]
  rfl

/-- The cycle of an instruction without a data access. -/
theorem step_quiet (hstall : i.stall = false) (hfits : σ.Fits next) :
    ∃ r ≤ 3, Phase r (σ.behind next) (σ.following next) (s.step i) := by
  have hwait := h.wait_quiet hacc
  have hcore := Datapath.step_quiet (System.quiet_datapathIn hstall h.rest) hwait
  obtain ⟨hram, hfetched⟩ := System.step_memory_quiet hstall hwait
  have hstore : σ.ex.ctl.regToMem = false := (Bool.or_eq_false_iff.mp hacc).1
  have hload : σ.ex.ctl.memToReg = false := (Bool.or_eq_false_iff.mp hacc).2
  have hregs : (s.step i).core.regs = σ.nextRegs := by
    rw [System.step, hcore]
    dsimp only
    rw [h.wreg_quiet hacc, h.writeData_quiet hacc, h.regs, h.ex]
    rfl
  have hnextRam : σ.nextRam = σ.ram := by rw [Seq.nextRam, hstore]; rfl
  have hcalm : Calm (σ.behind next) (s.step i) := by
    refine ⟨hregs, ?_, System.resting_quiet h.rest hwait, ?_⟩
    · rw [hram, h.ram]
      exact hnextRam.symm
    · rw [System.step, hcore]
  rcases h.place with ⟨hbds, hnext, hpc, hword⟩ | ⟨hbds, hpc, hplain⟩
  · -- the word in decode is the next instruction
    have hper : periphSel s.core.address = false := by
      have height : σ.pc + 8 = σ.pc + 4 + 4 := by rw [BitVec.add_assoc]; rfl
      rw [Datapath.address_quiet hwait, hpc, height, ← hnext]
      exact periphSel_add_four hfits.ahead
    have hfetch : s.dataIn i = (σ.behind next).fetch := by
      rw [hnext] at hfits
      rw [System.dataIn_fetched hword hfits.ahead h.rest.access hper, h.ram, hnext]
      exact congrFun hnextRam.symm _
    have hinst : s.core.instIn false (s.dataIn i) = (σ.behind next).fetch := by
      rw [Datapath.instIn, h.ex, hstore, hload, hbds, Datapath.irqAck, hfetch]
      rfl
    have height : σ.pc + 8 = (σ.behind next).pc + 4 := by
      show σ.pc + 8 = next + 4
      rw [hnext, BitVec.add_assoc]
      rfl
    refine ⟨1, by decide, .execute ⟨hcalm, ?_, ?_, ?_, ?_, ?_⟩⟩
    · rw [System.step, hcore]
      exact congrArg Mips.decode hinst
    · rw [System.step, hcore]
      exact hpc.trans height
    · rw [System.step, hcore, h.ex]
      exact hacc
    · rw [System.step, hcore, h.ex]
      exact hload
    · rw [hpc, height] at hfetched
      cases htarget : σ.outcome.target with
      | none =>
        refine .inl ⟨?_, ?_, ?_, hfetched⟩
        · rw [System.step, hcore]
          exact redirect_eq_none.mp (h.redirect_eq.trans htarget)
        · rw [Seq.following, htarget]
          rfl
        · rw [System.step, hcore, h.redirect_eq, htarget, hpc, height, Option.getD_none,
            BitVec.add_assoc]
          rfl
      | some target =>
        refine .inr ⟨?_, ?_, hfits.slot (by rw [htarget]; exact Option.some_ne_none _)⟩
        · rw [System.step, hcore]
          refine Bool.eq_true_of_not_eq_false fun hfalse => ?_
          have hnone : s.core.ex.redirect s.core.regs s.core.pcLast = none :=
            redirect_eq_none.mpr hfalse
          rw [h.redirect_eq, htarget] at hnone
          cases hnone
        · rw [System.step, hcore, h.redirect_eq, Seq.following, htarget]
          rfl
  · -- the word behind the delay slot is killed
    have hnone : s.core.ex.redirect s.core.regs s.core.pcLast = none := by
      rw [h.ex]
      exact Seq.redirect_of_plain hplain _ _
    have hfollowing : σ.following next = (σ.behind next).pc + 4 := by
      rw [Seq.following, ← h.redirect_eq, hnone]
      rfl
    rw [hfollowing]
    refine ⟨2, by decide, .decode ⟨hcalm, ?_, ?_, ?_, ?_⟩⟩
    · rw [System.step, hcore, hnone, hpc]
      rfl
    · rw [System.step, hcore]
      dsimp only
      rw [Datapath.instIn, hbds]
      simp [bubble]
    · rw [System.step, hcore]
      exact redirect_eq_none.mp hnone
    · rw [hpc] at hfetched
      exact hfetched

end Quiet

section Wait

variable (hacc : σ.ex.dataAccess = true)
include hacc

theorem wait_access : s.core.mwait = true := by
  rw [Datapath.mwait, h.ex, hacc, h.access]
  rfl

theorem core_wait (hstall : i.stall = false) :
    (s.step i).core =
      { s.core with
        pc := next
        memToRegDly := σ.ex.ctl.memToReg
        dataAccessDly := true
        stallReg := false } := by
  have hcore :=
    Datapath.step_wait (System.quiet_datapathIn hstall h.rest) (h.wait_access hacc)
  have hload : s.core.ex.ctl.memToReg = σ.ex.ctl.memToReg := by rw [h.ex]
  rw [h.pc_wait, hload] at hcore
  exact hcore

theorem rest_wait (hram : ramSel σ.result = true) : System.Resting (s.step i).intc := by
  refine h.rest.step (System.periphAccess_wait (h.wait_access hacc) ?_)
  rw [h.result_eq]
  exact hram

theorem commitsReg_wait : s.commitsReg i = [] := by
  rw [System.commitsReg, Datapath.wreg, h.wait_access hacc]
  simp

theorem commitsMem_wait (hstall : i.stall = false) :
    s.commitsMem i = commitMem σ.result σ.lanes σ.data := by
  have hwait := h.wait_access hacc
  rw [System.commitsMem, if_pos ⟨hwait, hstall⟩, Datapath.address_wait hwait, h.result_eq,
    h.lanes_eq, h.data_eq]

theorem memory_wait (hstall : i.stall = false) (hram : ramSel σ.result = true) :
    (s.step i).ram = writeRam σ.ram σ.result σ.lanes σ.data ∧
      (σ.lanes = 0#4 → (s.step i).Fetched σ.result) := by
  have hresult := h.result_eq
  have hmem := System.step_memory_wait hstall (h.wait_access hacc) (by rw [hresult]; exact hram)
  rw [hresult, h.lanes_eq, h.data_eq, h.ram] at hmem
  exact hmem

end Wait

/-- The first cycle of a store: the lanes are written, and the next instruction is fetched. -/
theorem step_store (hstore : σ.ex.ctl.regToMem = true) (hstall : i.stall = false)
    (hram : ramSel σ.result = true) :
    AtFetch (σ.behind next) (s.step i) ∧ s.commits i = σ.effects := by
  have hacc : σ.ex.dataAccess = true := by rw [Execute.dataAccess, hstore]; rfl
  have hload : σ.ex.ctl.memToReg = false := (Seq.regular_ex σ).ofStore hstore
  have hwrite : σ.ex.ctl.regWrite = false := (Seq.regular_ex σ).ofAccess (.inl hstore)
  have hwrites : σ.writes = false := by rw [Seq.writes, hwrite, hload]; rfl
  have hcore := h.core_wait hacc (i := i) hstall
  have hwait := h.wait_access hacc
  have hnextRegs : σ.nextRegs = σ.regs := by rw [Seq.nextRegs, hwrites]; rfl
  refine ⟨⟨⟨?_, ?_, h.rest_wait hacc hram, ?_⟩, ?_, ?_, ?_, ?_, ?_⟩, ?_⟩
  · rw [hcore]
    exact h.regs.trans hnextRegs.symm
  · rw [(h.memory_wait hacc hstall hram).1]
    show _ = σ.nextRam
    rw [Seq.nextRam, if_pos hstore]
  · rw [hcore]
  · rw [hcore]
    rfl
  · rw [hcore, Datapath.mwait]
    simp
  · rw [hcore]
    dsimp only
    rw [h.ex]
    exact Seq.redirect_of_access hacc _ _
  · intro w
    rw [hcore]
    exact Datapath.instIn_access (Bool.and_eq_true_iff.mp hwait).1 _ _
  · intro hw
    rw [hcore, Datapath.wreg] at hw
    dsimp only at hw
    rw [h.ex, hwrite, hload, Bool.or_false, Bool.false_and, Bool.false_and] at hw
    cases hw
  · rw [System.commits, h.commitsReg_wait hacc, h.commitsMem_wait hacc hstall, Seq.effects, hwrites,
      if_pos hstore]
    rfl

/-- The first cycle of a load: the word is read. -/
theorem step_load (hload : σ.ex.ctl.memToReg = true) (hstall : i.stall = false)
    (hram : ramSel σ.result = true) :
    AtLoad σ next (s.step i) ∧ s.commits i = [] := by
  have hacc : σ.ex.dataAccess = true := by rw [Execute.dataAccess, hload, Bool.or_true]
  have hcore := h.core_wait hacc (i := i) hstall
  have hwait := h.wait_access hacc
  have hlanes : σ.lanes = 0#4 := by
    have hwrite : σ.ex.ctl.memWrite = 0 := (separate_control _ _ _).ofLoad hload
    rw [Seq.lanes, Execute.dataW, hwrite]
    rfl
  obtain ⟨hmem, hfetched⟩ := h.memory_wait hacc hstall hram
  rw [hlanes, writeRam_zero] at hmem
  have hcommits : s.commitsMem i = [] := by
    rw [h.commitsMem_wait hacc hstall, hlanes]
    rfl
  refine ⟨⟨⟨?_, hmem, h.rest_wait hacc hram, ?_⟩, ?_, hload, ?_, ?_, ?_, hfetched hlanes⟩, ?_⟩
  · rw [hcore]
    exact h.regs
  · rw [hcore]
  · rw [hcore]
    exact h.ex
  · rw [hcore]
  · rw [hcore]
    exact hload
  · rw [hcore]
  · rw [System.commits, h.commitsReg_wait hacc, hcommits]
    rfl

end AtExecute

/-- The second cycle of a load: the register takes the word, and the next instruction is fetched. -/
theorem AtLoad.step (h : AtLoad σ next s) (hstall : i.stall = false) (hfits : σ.Fits next) :
    AtDecode (σ.behind next) (s.step i) ∧ s.commits i = σ.effects := by
  have hacc : σ.ex.dataAccess = true := by rw [Execute.dataAccess, h.memToReg, Bool.or_true]
  have hstore : σ.ex.ctl.regToMem = false := by
    refine Bool.eq_false_of_not_eq_true fun hst => ?_
    have hload := (Seq.regular_ex σ).ofStore hst
    rw [h.memToReg] at hload
    cases hload
  have hwait : s.core.mwait = false := by
    rw [Datapath.mwait, h.access, Bool.not_true, Bool.and_false]
  have hwrites : σ.writes = true := by rw [Seq.writes, h.memToReg, Bool.or_true]
  have hwreg : s.core.wreg = true := by
    rw [Datapath.wreg, h.load, hwait, h.stallReg, Bool.or_true]
    rfl
  have hper : periphSel s.core.address = false := by
    rw [Datapath.address_quiet hwait, h.pc]
    exact periphSel_of_ramSel hfits.ahead
  have hresult : (s.core.ex.aluOut s.core.regs).result = σ.result := by
    rw [h.ex, h.regs]
    rfl
  have hdata : s.dataIn i = σ.loadWord := by
    rw [System.dataIn_fetched h.fetched (hfits.access hacc) h.rest.access hper, h.ram]
    rfl
  have hvalue : s.core.writeData (s.dataIn i) = σ.value := by
    rw [Datapath.writeData, hresult, h.ex, hdata]
    exact Seq.writeData_of_load ((Seq.regular_ex σ).ofRead.mpr h.memToReg) _ _ _ _
  have hredirect : s.core.ex.redirect s.core.regs s.core.pcLast = none := by
    rw [h.ex]
    exact Seq.redirect_of_access hacc _ _
  have hcore := Datapath.step_quiet (System.quiet_datapathIn hstall h.rest) hwait
  obtain ⟨hram, hfetched⟩ := System.step_memory_quiet hstall hwait
  refine ⟨⟨⟨?_, ?_, System.resting_quiet h.rest hwait, ?_⟩, ?_, ?_, ?_, ?_⟩, ?_⟩
  · rw [System.step, hcore]
    show (if s.core.wreg then Rtl.writeReg s.core.regs s.core.ex.writeReg
      (s.core.writeData (s.dataIn i)) else s.core.regs) = σ.nextRegs
    rw [hwreg, hvalue, h.regs, h.ex, Seq.nextRegs, hwrites]
  · rw [hram, h.ram]
    show _ = σ.nextRam
    rw [Seq.nextRam, hstore]
    rfl
  · rw [System.step, hcore]
  · rw [System.step, hcore, hredirect, h.pc]
    rfl
  · rw [System.step, hcore]
    dsimp only
    rw [Datapath.instIn, h.ex, h.memToReg]
    simp [bubble]
  · rw [System.step, hcore]
    exact redirect_eq_none.mp hredirect
  · rw [h.pc] at hfetched
    exact hfetched
  · have hmem : s.commitsMem i = [] := by
      rw [System.commitsMem, if_neg fun hw => absurd hw.1 (by rw [hwait]; decide)]
    rw [System.commits, hmem, System.commitsReg, hwreg, hvalue, h.ex, Seq.effects, hwrites, hstore]
    rfl

/-- A cycle brings the instruction closer to its end, or ends it. -/
theorem Phase.step (h : Phase r σ next s) (hstall : i.stall = false) (hfits : σ.Fits next) :
    (∃ r' < r, Phase r' σ next (s.step i) ∧ s.commits i = []) ∨
    (∃ r' ≤ 3, Phase r' (σ.behind next) (σ.following next) (s.step i) ∧
      s.commits i = σ.effects) := by
  have hstraight : σ.ex.dataAccess = true → σ.following next = next + 4 := by
    intro hacc
    have htarget : σ.outcome.target = none := Seq.redirect_of_access hacc _ _
    rw [Seq.following, htarget]
    rfl
  cases h with
  | fetch h =>
    -- behind a killed word
    obtain ⟨hdecode, hcommits⟩ := h.step hstall
    exact .inl ⟨2, by decide, .decode hdecode, hcommits⟩
  | decode h =>
    obtain ⟨hexecute, hcommits⟩ := h.step hstall hfits.here
    exact .inl ⟨1, by decide, .execute hexecute, hcommits⟩
  | execute h =>
    -- a load stays for a second cycle, a store leaves after the one in which it has the bus
    cases hload : σ.ex.ctl.memToReg with
    | true =>
      have hacc : σ.ex.dataAccess = true := by rw [Execute.dataAccess, hload, Bool.or_true]
      obtain ⟨hnext, hcommits⟩ := h.step_load hload hstall (hfits.access hacc)
      exact .inl ⟨0, by decide, .load hnext, hcommits⟩
    | false =>
      cases hstore : σ.ex.ctl.regToMem with
      | true =>
        have hacc : σ.ex.dataAccess = true := by rw [Execute.dataAccess, hstore]; rfl
        obtain ⟨hnext, hcommits⟩ := h.step_store hstore hstall (hfits.access hacc)
        rw [hstraight hacc]
        exact .inr ⟨3, le_refl 3, .fetch hnext, hcommits⟩
      | false =>
        have hacc : σ.ex.dataAccess = false := by rw [Execute.dataAccess, hstore, hload]; rfl
        obtain ⟨r', hr', hnext⟩ := h.step_quiet hacc hstall hfits
        exact .inr ⟨r', hr', hnext, h.commits_quiet hacc⟩
  | load h =>
    have hacc : σ.ex.dataAccess = true := by rw [Execute.dataAccess, h.memToReg, Bool.or_true]
    obtain ⟨hnext, hcommits⟩ := h.step hstall hfits
    rw [hstraight hacc]
    exact .inr ⟨2, by decide, .decode hnext, hcommits⟩

end HfRisc.Mips
