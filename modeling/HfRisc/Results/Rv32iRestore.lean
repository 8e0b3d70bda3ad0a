import HfRisc.Crt.Isr
import HfRisc.Pipe.CoreI
import HfRisc.Pipe.Mixed
import HfRisc.Results.Rv32iInterrupts

/-!
# The restore tail of the interrupt service routine (`crt0.s`)

The routine ends with a store that sets `IRQ_STATUS`, a load of the saved program
counter and a jump to it. The comment behind the store says that interrupts are enabled
after a few cycles. They are when the state machine still has to leave `irq_done`, as
after an interrupt. When it is idle, as after an exception, a line that is high is
acknowledged between the load and the jump, and the saved program counter is lost.
-/

namespace HfRisc.Results

open HfRisc.Rtl HfRisc.Lib HfRisc.Isa HfRisc.Pipe HfRisc.Crt

variable {n : ℕ}

/-! ## The controller -/

section Controller

variable {r : IntControl} {b : CpuBus} {w : Word} {x : BitVec 8}

/-- A cycle of the core that leaves the registers of the controller alone: only a data
access with a lane set writes one. -/
structure Silent (b : CpuBus) : Prop where
  ack : b.irqAck = false
  exception : b.exception = false
  access : b.dataAccess = false ∨ b.dataW = 0

theorem Silent.writes (h : Silent b) (k : BitVec 4) : IntControl.writes b k = false := by
  rcases h.access with ha | ha <;>
    simp [IntControl.writes, CpuBus.periphAccess, CpuBus.periphAccessWe, ha]

theorem Silent.irqStatus (h : Silent b) : (r.step false b w x).irqStatus = r.irqStatus := by
  show r.statusStep b = _
  rw [IntControl.statusStep, h.writes, h.ack, h.exception]
  rfl

theorem Silent.irqMask (h : Silent b) : (r.step false b w x).irqMask = r.irqMask := by
  show (if IntControl.writes b 0b0010 then _ else r.irqMask) = _
  rw [h.writes]
  rfl

/-- A store that sets the master bit, and writes no other register. -/
structure Enables (b : CpuBus) : Prop where
  ack : b.irqAck = false
  exception : b.exception = false
  sets : IntControl.SetsMaster b

theorem Enables.master (h : Enables b) : (r.step false b w x).irqStatus.getLsbD 0 = true := by
  show (r.statusStep b).getLsbD 0 = true
  rw [IntControl.statusStep, h.ack, h.exception, if_pos h.sets.1]
  show (b.dataOut.extractLsb' 24 8).getLsbD 0 = true
  rw [BitVec.getLsbD_extractLsb', h.sets.2]
  rfl

theorem Enables.irqMask (h : Enables b) : (r.step false b w x).irqMask = r.irqMask := by
  have hreg : b.periphReg = 0b0011 := by
    have hw := h.sets.1
    rw [IntControl.writes, Bool.and_eq_true, beq_iff_eq] at hw
    exact hw.2
  show (if IntControl.writes b 0b0010 then _ else r.irqMask) = _
  rw [IntControl.writes, hreg]
  simp

end Controller

/-! ## The instructions of the tail -/

/-- The tail is at the program counter, about to set `IRQ_STATUS`, with the stack in RAM. -/
structure RestoreTail (σ : Seq n) : Prop where
  store : σ.fetch = swStatus
  load : Seq.fetch { σ with pc := σ.pc + 4 } = lwSaved
  jump : Seq.fetch { σ with pc := σ.pc + 8 } = jalrSaved
  inRam : ramSel (σ.pc + 4) = true ∧ ramSel (σ.pc + 8) = true
  s10 : σ.regs 26 = 0xf0000030
  s11 : σ.regs 27 = 1
  stack : ramSel (σ.regs 2 - 4) = true

/-- The saved program counter. -/
def savedPc (σ : Seq n) : Word := swapBytes (σ.ram (wordIndex n (σ.regs 2 - 4)))

/-- The interrupted program goes on: `pc` is the saved one, and apart from `s10` the
registers and the RAM are those of the store. -/
structure Resumes (s : System n Unit) (σ : Seq n) : Prop where
  pc : s.core.pc = savedPc σ
  regs : s.core.regs = writeReg σ.regs 26 (savedPc σ)
  ram : s.ram = σ.ram

namespace RestoreTail

variable {σ : Seq n} (h : RestoreTail σ)
include h

theorem ex_store : σ.ex rv32i = decode controlRv32i swStatus := by rw [Seq.ex, h.store]; rfl

theorem store_result : (σ.out rv32i contractRv32i).result = 0xf0000030 := by
  have hctl : (σ.ex rv32i).ctl = .store 0b11 := by rw [h.ex_store]; rfl
  rw [Seq.out, hctl, op1_eq (by rw [hctl]; rfl), op2_immS (by rw [hctl]; rfl), h.store]
  refine (implementsRv32i.add _ _).trans ?_
  show σ.regs 26 + 0 = _
  rw [h.s10]
  rfl

/-- The store changes nothing but the program counter. -/
theorem next_store : σ.next rv32i contractRv32i 0 = { σ with pc := σ.pc + 4 } := by
  have hnoRam : ramSel (σ.out rv32i contractRv32i).result = false := by
    rw [h.store_result]
    decide
  have hwrites : σ.writes rv32i = false := by rw [Seq.writes, h.ex_store]; rfl
  have htaken : σ.taken rv32i contractRv32i = false :=
    Seq.taken_of_straight (by rw [h.ex_store]; rfl) (by rw [h.ex_store]; rfl)
  simp [Seq.next, hnoRam, hwrites, htaken]

/-- The state behind the load. -/
def loaded (σ : Seq n) : Seq n := ⟨writeReg σ.regs 26 (savedPc σ), σ.pc + 8, σ.ram⟩

theorem ex_load : Seq.ex rv32i { σ with pc := σ.pc + 4 } = decode controlRv32i lwSaved := by
  rw [Seq.ex, h.load]
  rfl

theorem next_load (io : Word) :
    Seq.next rv32i contractRv32i { σ with pc := σ.pc + 4 } io = loaded σ := by
  have hctl : (Seq.ex rv32i { σ with pc := σ.pc + 4 }).ctl = .load 0b11 true := by
    rw [h.ex_load]
    rfl
  have hresult : (Seq.out rv32i contractRv32i { σ with pc := σ.pc + 4 }).result =
      σ.regs 2 - 4 := by
    rw [Seq.out, hctl, op1_eq (by rw [hctl]; rfl), op2_immI (by rw [hctl]; rfl), h.load]
    refine (implementsRv32i.add _ _).trans ?_
    show σ.regs 2 + immI lwSaved = _
    rw [show immI lwSaved = -4 by decide]
    exact (BitVec.sub_eq_add_neg _ _).symm
  have hwrites : Seq.writes rv32i { σ with pc := σ.pc + 4 } = true := by
    rw [Seq.writes, h.ex_load]
    rfl
  have hstore : (Seq.ex rv32i { σ with pc := σ.pc + 4 }).regToMem = false := by
    rw [h.ex_load]
    rfl
  have htaken : Seq.taken rv32i contractRv32i { σ with pc := σ.pc + 4 } = false :=
    Seq.taken_of_straight (by rw [hctl]; rfl) (by rw [hctl]; rfl)
  have hvalue : Seq.value rv32i contractRv32i { σ with pc := σ.pc + 4 } io = savedPc σ := by
    have hread : (Seq.ex rv32i { σ with pc := σ.pc + 4 }).ctl.memRead = 0b11 := by rw [hctl]; rfl
    rw [Seq.value, Seq.loadWord, hresult, if_pos h.stack, Execute.writeData, if_pos hread,
      dataInS_word hread]
    rfl
  have hrd : (Seq.ex rv32i { σ with pc := σ.pc + 4 }).rd = 26 := by
    rw [h.ex_load]
    rfl
  simp only [Seq.next, hwrites, hstore, htaken, hvalue, hrd, loaded, if_true, Bool.false_eq_true,
    false_and, if_false]
  rw [BitVec.add_assoc]
  rfl

theorem fetch_jump : (loaded σ).fetch = jalrSaved := h.jump

theorem ex_jump : (loaded σ).ex rv32i = decode controlRv32i jalrSaved := by
  rw [Seq.ex, h.fetch_jump]
  rfl

/-- The jump goes to the saved program counter and writes nothing. -/
theorem next_jump :
    ((loaded σ).next rv32i contractRv32i 0).pc = savedPc σ ∧
      ((loaded σ).next rv32i contractRv32i 0).regs = (loaded σ).regs ∧
      ((loaded σ).next rv32i contractRv32i 0).ram = σ.ram := by
  have hperf := performs_jalr implementsRv32i (σ := loaded σ) (by rw [h.fetch_jump]; rfl) 0
  rw [h.fetch_jump] at hperf
  refine ⟨?_, ?_, ?_⟩
  · refine (congrArg State.pc hperf.1).trans ?_
    show (ofSeq (loaded σ)).get 26 + 0 = _
    rw [get_ofSeq]
    exact BitVec.add_zero _
  · refine (congrArg State.regs hperf.1).trans ?_
    funext k
    rfl
  · have hstore : ((loaded σ).ex rv32i).regToMem = false := by
      rw [h.ex_jump]
      rfl
    refine if_neg ?_
    rintro ⟨hk, -⟩
    rw [hstore] at hk
    cases hk

end RestoreTail

/-! ## The cycles of the tail -/

section Cycles

variable {s : System n Unit} {σ : Seq n} {x : ℕ → Input} {k : ℕ}

/-- The state `k` cycles on. -/
def cycle (s : System n Unit) (x : ℕ → Input) (k : ℕ) : System n Unit :=
  (System.rawMachine rv32i).run s (Mealy.inputs x k)

theorem cycle_succ : cycle s x (k + 1) = (cycle s x k).step rv32i (x k) :=
  (System.rawMachine rv32i).run_inputs_succ s x k

theorem silent_of_port (hack : s.core.irqAckDly = false) (hexc : s.core.ex.except = false)
    (hmwait : s.core.mwait = false) : Silent (s.bus rv32i) := ⟨hack, hexc, .inl hmwait⟩

/-- The store of the tail enables interrupts. -/
theorem RestoreTail.enables (h : RestoreTail σ) (he : AtExecute contractRv32i s σ) :
    Enables (s.bus rv32i) := by
  have hfast : contractRv32i.slow (σ.ex rv32i).ctl.aluOp = false := by rw [h.ex_store]; rfl
  have hmwait : s.core.mwait = true := by rw [he.mwait, h.ex_store]; rfl
  have haddr : s.core.address rv32i = 0xf0000030 := by
    rw [Datapath.address_eq_result hmwait, he.aluOut hfast, h.store_result]
  have hdata : s.core.dataOut = 0x01000000 := by
    rw [Datapath.dataOut, he.ex, h.ex_store, he.regs]
    show swapBytes (σ.regs 27) = _
    rw [h.s11]
    decide
  have hlanes : s.core.dataW rv32i = 0b1111 := by
    rw [Datapath.dataW, he.ex, h.ex_store]
    rfl
  refine ⟨he.ack, ?_, ?_, ?_⟩
  · show s.core.ex.except = false
    rw [he.ex, h.ex_store]
    rfl
  · simp only [IntControl.writes, CpuBus.periphAccess, CpuBus.periphAccessWe, CpuBus.periphReg,
      System.bus, haddr, hmwait, hlanes]
    decide
  · show s.core.dataOut.getLsbD 24 = true
    rw [hdata]
    decide

/-- The tail up to the load in decode: two more cycles behind the store. -/
theorem RestoreTail.cycle_two (h : RestoreTail σ) (he : AtExecute contractRv32i s σ)
    (hstall : ∀ k < 2, (x k).stall = false) :
    AtAccess contractRv32i (cycle s x 1) { σ with pc := σ.pc + 4 } ∧
      AtDecode contractRv32i (cycle s x 2) { σ with pc := σ.pc + 4 } ∧
      (cycle s x 2).core.ex.memToReg = false := by
  have hstore : (σ.ex rv32i).regToMem = true := by rw [h.ex_store]; rfl
  have h₁ := (he.step_store (i := x 0) 0 (hstall 0 (by omega)) hstore).1
  rw [h.next_store] at h₁
  have h₂ := h₁.step (hstall 1 (by omega))
  exact ⟨h₁, h₂⟩

/-- The load, if no interrupt is accepted before it. -/
theorem RestoreTail.cycle_five (h : RestoreTail σ) (he : AtExecute contractRv32i s σ)
    (hstall : ∀ k < 5, (x k).stall = false) (hack : (cycle s x 2).irqAck rv32i = false) :
    AtExecute contractRv32i (cycle s x 3) { σ with pc := σ.pc + 4 } ∧
      AtLoad contractRv32i (cycle s x 4) { σ with pc := σ.pc + 4 } ∧
      AtDecode contractRv32i (cycle s x 5) (RestoreTail.loaded σ) ∧
      (cycle s x 5).core.ex.memToReg = false := by
  obtain ⟨-, h₂, hload₂⟩ := h.cycle_two he fun k hk => hstall k (by omega)
  have h₃ := h₂.step_execute (i := x 2) (hstall 2 (by omega)) hload₂ hack h.inRam.1
  have hload : (Seq.ex rv32i { σ with pc := σ.pc + 4 }).memToReg = true := by
    rw [h.ex_load]
    rfl
  have h₄ := (h₃.step_load (i := x 3) (hstall 3 (by omega)) hload).1
  obtain ⟨h₅, hload₅⟩ := h₄.step (i := x 4) (hstall 4 (by omega))
  rw [h.next_load] at h₅
  exact ⟨h₃, h₄, h₅, hload₅⟩

/-- In decode behind a finished access, a request is accepted at once. -/
theorem irqAck_of_atDecode (h : AtDecode contractRv32i s σ) (hload : s.core.ex.memToReg = false) :
    s.irqAck rv32i = s.intc.irq := by
  rw [h.toCalm.irqAck, h.bds, hload, Bool.not_false, Bool.and_true, Bool.and_true]

/-- A load or a store in execute holds a request back. -/
theorem irqAck_of_dataAccess (h : s.core.ex.dataAccess = true) : s.irqAck rv32i = false := by
  rw [Execute.dataAccess] at h
  rcases (Bool.or_eq_true _ _).mp h with h' | h' <;> simp [System.irqAck, Datapath.irqAck, h']

/-- The controller from an enabling store on, through silent cycles of the core. -/
theorem window_of_silent {N : ℕ} (henable : Enables (s.bus rv32i))
    (hsilent : ∀ k < N, 0 < k → Silent ((cycle s x k).bus rv32i))
    (hstall : ∀ k < N, (x k).stall = false) :
    IntControl.Window (fun k => (cycle s x k).intc) (fun k => (x k).extioIn) N := by
  have hstep : ∀ k < N, (cycle s x (k + 1)).intc = (cycle s x k).intc.step false
      ((cycle s x k).bus rv32i) ((cycle s x k).dataRead rv32i (x k)) (x k).extioIn := by
    intro k hk
    rw [cycle_succ, ← hstall k hk]
    rfl
  -- Both registers are set in the first cycle, and kept in every other.
  have hkept : ∀ k < N, 0 < k → (cycle s x k).intc.irqStatus.getLsbD 0 = true ∧
      (cycle s x k).intc.irqMask = s.intc.irqMask := by
    intro k hk hpos
    induction k with
    | zero => exact absurd hpos (Nat.lt_irrefl 0)
    | succ k ih =>
      rw [hstep k (by omega)]
      rcases Nat.eq_zero_or_pos k with rfl | hk'
      · exact ⟨henable.master, henable.irqMask⟩
      · obtain ⟨hmaster, hmask⟩ := ih (by omega) hk'
        have hs := hsilent k (by omega) hk'
        rw [hs.irqStatus, hs.irqMask]
        exact ⟨hmaster, hmask⟩
  refine ⟨fun k hk => ⟨_, _, hstep k hk, ?_⟩, fun k hk hpos => (hkept k hk hpos).1, fun k hk => ?_⟩
  · rcases Nat.eq_zero_or_pos k with rfl | hpos
    · exact henable.ack
    · exact (hsilent k hk hpos).ack
  · rcases Nat.eq_zero_or_pos k with rfl | hpos
    · rfl
    · exact (hkept k hk hpos).2

variable (h : RestoreTail σ) (he : AtExecute contractRv32i s σ)
include h he

theorem RestoreTail.window_two (hstall : ∀ k < 2, (x k).stall = false) :
    IntControl.Window (fun k => (cycle s x k).intc) (fun k => (x k).extioIn) 2 := by
  refine window_of_silent (h.enables he) (fun k hk hpos => ?_) hstall
  obtain rfl : k = 1 := by omega
  have h₁ := (h.cycle_two he hstall).1
  exact silent_of_port h₁.ack (Execute.except_of_branch_zero h₁.branch) h₁.mwait

theorem RestoreTail.window_five (hstall : ∀ k < 5, (x k).stall = false)
    (hack : (cycle s x 2).irqAck rv32i = false) :
    IntControl.Window (fun k => (cycle s x k).intc) (fun k => (x k).extioIn) 5 := by
  obtain ⟨h₁, h₂, hload₂⟩ := h.cycle_two he (x := x) fun k hk => hstall k (by omega)
  obtain ⟨h₃, h₄, -, -⟩ := h.cycle_five he hstall hack
  have hex₃ : (cycle s x 3).core.ex.except = false := by
    rw [h₃.ex, h.ex_load]
    rfl
  have hex₄ : (cycle s x 4).core.ex.except = false := by
    rw [h₄.ex, h.ex_load]
    rfl
  refine window_of_silent (h.enables he) (fun k hk hpos => ?_) hstall
  obtain rfl | rfl | rfl | rfl : k = 1 ∨ k = 2 ∨ k = 3 ∨ k = 4 := by omega
  · exact silent_of_port h₁.ack (Execute.except_of_branch_zero h₁.branch) h₁.mwait
  · exact silent_of_port h₂.ack h₂.harmless.system (h₂.mwait_of_noLoad hload₂)
  · -- The load has the port, but no lane.
    refine ⟨h₃.ack, hex₃, .inr ?_⟩
    show (cycle s x 3).core.dataW rv32i = 0
    rw [Datapath.dataW, h₃.ex, h.ex_load]
    rfl
  · exact silent_of_port h₄.ack hex₄ h₄.mwait

/-- The jump, if no interrupt is accepted before it. -/
theorem RestoreTail.cycle_seven (hstall : ∀ k < 7, (x k).stall = false)
    (hack₂ : (cycle s x 2).irqAck rv32i = false) (hack₅ : (cycle s x 5).irqAck rv32i = false) :
    (cycle s x 6).irqAck rv32i = false ∧ Resumes (cycle s x 7) σ := by
  obtain ⟨-, -, h₅, hload₅⟩ := h.cycle_five he (x := x) (fun k hk => hstall k (by omega)) hack₂
  have h₆ : AtExecute contractRv32i (cycle s x 6) (loaded σ) :=
    h₅.step_execute (hstall 5 (by omega)) hload₅ hack₅ h.inRam.2
  have hfast : contractRv32i.slow ((loaded σ).ex rv32i).ctl.aluOp = false := by
    rw [h.ex_jump]
    rfl
  have hplain : ((loaded σ).ex rv32i).dataAccess = false := by
    rw [h.ex_jump]
    rfl
  have htaken : (loaded σ).taken rv32i contractRv32i = true := by
    have hjump : ((loaded σ).ex rv32i).jumpTaken = true := by
      rw [h.ex_jump]
      rfl
    rw [Seq.taken, hjump, Bool.or_true]
  have h₇ : AtFetch contractRv32i (cycle s x 7) ((loaded σ).next rv32i contractRv32i 0) :=
    (h₆.step_taken (hstall 6 (by omega)) hfast hplain 0 htaken).1
  obtain ⟨hpc, hregs, hram⟩ := h.next_jump
  refine ⟨?_, by rw [h₇.pc, hpc], by rw [h₇.regs, hregs]; rfl, by rw [h₇.ram, hram]⟩
  rw [h₆.irqAck hfast hplain, htaken, Bool.not_true, Bool.and_false]

theorem RestoreTail.atomic_iff (hstall : ∀ k < 7, (x k).stall = false) :
    ((∀ k < 7, (cycle s x k).irqAck rv32i = false) ∧ Resumes (cycle s x 7) σ) ↔
      s.intc.Calms fun k => (x k).extioIn := by
  have hstall₂ : ∀ k < 2, (x k).stall = false := fun k hk => hstall k (by omega)
  have hstall₅ : ∀ k < 5, (x k).stall = false := fun k hk => hstall k (by omega)
  obtain ⟨h₁, h₂, hload₂⟩ := h.cycle_two he hstall₂
  have hirq₂ := irqAck_of_atDecode h₂ hload₂
  constructor
  · rintro ⟨hacks, -⟩
    have hack₂ := hacks 2 (by omega)
    obtain ⟨-, -, h₅, hload₅⟩ := h.cycle_five he hstall₅ hack₂
    refine (h.window_five he hstall₅ hack₂).calms_iff.mp ⟨?_, ?_⟩
    · rw [← hirq₂, hack₂]
    · rw [← irqAck_of_atDecode h₅ hload₅, hacks 5 (by omega)]
  · intro hcalms
    have hack₂ : (cycle s x 2).irqAck rv32i = false := by
      rw [hirq₂]
      exact (h.window_two he hstall₂).irq_two_of_rest hcalms.rest
    obtain ⟨h₃, h₄, h₅, hload₅⟩ := h.cycle_five he hstall₅ hack₂
    have hack₅ : (cycle s x 5).irqAck rv32i = false := by
      rw [irqAck_of_atDecode h₅ hload₅]
      exact ((h.window_five he hstall₅ hack₂).calms_iff.mpr hcalms).2
    obtain ⟨hack₆, hresume⟩ := h.cycle_seven he hstall hack₂ hack₅
    refine ⟨fun k hk => ?_, hresume⟩
    obtain rfl | rfl | rfl | rfl | rfl | rfl | rfl :
      k = 0 ∨ k = 1 ∨ k = 2 ∨ k = 3 ∨ k = 4 ∨ k = 5 ∨ k = 6 := by omega
    · refine irqAck_of_dataAccess (s := s) ?_
      rw [he.ex, h.ex_store]
      rfl
    · exact h₁.irqAck_eq_false
    · exact hack₂
    · refine irqAck_of_dataAccess ?_
      rw [h₃.ex, h.ex_load]
      rfl
    · exact h₄.irqAck_eq_false
    · exact hack₅
    · exact hack₆

end Cycles

/-- With the store of the tail in execute: up to the jump no interrupt is accepted and the
interrupted program goes on, exactly when the controller calms. -/
theorem rv32i_restore_atomic {s : System n Unit} {σ : Seq n} {x : ℕ → Input}
    (he : AtExecute contractRv32i s σ) (h : RestoreTail σ) (hstall : ∀ k < 7, (x k).stall = false) :
    ((∀ k < 7, (cycle s x k).irqAck rv32i = false) ∧ Resumes (cycle s x 7) σ) ↔
      s.intc.Calms fun k => (x k).extioIn :=
  h.atomic_iff he hstall

/-- The tail at the start of the RAM. -/
def tailProgram : Seq 14 where
  regs := fun r => if r = 2 then base + 0x1000 else if r = 26 then 0xf0000030 else 1
  pc := base
  ram := (program [swStatus, lwSaved, jalrSaved]).ram

/-- The tail in execute behind an interrupt on line 0. -/
def tailState : System 14 Unit :=
  ((boot rv32i () { idleIntc with irqMask := 1, pulseState := .done, pulseNextState := .done }
    tailProgram).step rv32i tickInput).step rv32i tickInput

/-- The line stays high. -/
theorem rv32i_restore_atomic_tick :
    (∀ k < 7, (cycle tailState (fun _ => tickInput) k).irqAck rv32i = false) ∧
      Resumes (cycle tailState (fun _ => tickInput) 7) tailProgram := by
  have he : AtExecute contractRv32i tailState tailProgram :=
    atExecute_boot_of_resting trivial (by simp [IntControl.Settled, idleIntc])
      ⟨rfl, by decide, by decide⟩ (by decide) (by decide) rfl rfl
  have ht : RestoreTail tailProgram :=
    { store := by decide +kernel
      load := by decide +kernel
      jump := by decide +kernel
      inRam := by decide
      s10 := rfl
      s11 := rfl
      stack := by decide }
  refine (rv32i_restore_atomic he ht fun _ _ => rfl).mpr ?_
  exact IntControl.calms_of_done (by decide +kernel) (by decide +kernel) (by decide +kernel)
    (by decide +kernel) _

/-- The rv32i core holds no request back for its ALU. -/
theorem prompt_rv32i {s : System n Unit} (h : Live contractRv32i s) : Prompt rv32i s := by
  have hstall : s.core.stallReg = false := by
    rcases h with ⟨ht⟩ | ⟨hre⟩
    · exact stallReg_rv32i ht
    · exact hre.stall
  rintro (hw | hw | hw)
  · cases hw
  · rw [hstall] at hw
    cases hw
  · cases hw

/-! ## A call, and a tick behind its restored status -/

/-- An `ECALL` at the start of the RAM, and the routine 256 bytes behind. -/
def callIsr : Seq 14 where
  regs := fun r => if r = 2 then base + 0x1000 else 0
  pc := base
  ram := fun k => swapBytes (if k = 0 then Asm.ecall else if k < 64 then nop
    else isrWithRet.getD (k.toNat - 64) nop)

/-- Line 0 rises right behind the store of the tail. -/
def lateTick (N : ℕ) : Input :=
  if N < 142 then calmInput else if N < 230 then tickInput else calmInput

/-- The run of `callIsr` with line 0 enabled. -/
def lateRun (N : ℕ) : System 14 Unit :=
  cycle (boot rv32i () { armedIntc with irqVector := base + 256 } callIsr) lateTick N

/-- The store is in execute in cycle 141. Five cycles later an interrupt is accepted, and
its own restore leaves the jump to the saved program counter with a jump to itself. -/
theorem rv32i_restore_late :
    ((lateRun 141).core.pcLast2 = base + 256 + 200 ∧ (lateRun 141).core.mwait = true) ∧
      (¬ ∀ k < 7, (lateRun (141 + k)).irqAck rv32i = false) ∧
      (lateRun 286).core.pcLast2 = base + 256 + 208 ∧
      (lateRun 286).core.regs 26 = base + 256 + 208 := by
  decide +kernel

end HfRisc.Results
