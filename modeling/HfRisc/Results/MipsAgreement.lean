import HfRisc.Mips.Circuit
import HfRisc.Mips.SimSpec

/-!
# One instruction of the MIPS core and one of its simulator

Both are compared through the instruction set. The core differs from it in `SLTIU`,
whose immediate it does not sign extend, and in `JALR`, whose link it puts in register
31. The simulator differs in what it does to the low bits of a register target, and
in a register that is the source and the link of one instruction. Everything else is
the same.
-/

namespace HfRisc.Results

open HfRisc.Mips
open HfRisc.Isa (Aligned memOf)
open HfRisc.Rtl (wordIndex)
open HfRisc.Mips.Sim (simOutcome)

/-! ## The fetch -/

/-- The simulator fetches the word of the core. -/
theorem memRead_fetch {σ : Mips.Seq 18} {s : Mips.Sim.State} (hsame : s.toIsa = σ.toIsa)
    (hram : ramSel s.pc = true) (hal : Aligned 4 s.pc) :
    s.memRead .word s.pc = .ok (σ.fetch, s) := by
  have hpc : s.pc = σ.pc := congrArg Isa.State.pc hsame
  have hcast : s.value .word (Sim.Base.offset s.pc) = loadValue s.toIsa.byte s.pc .lw :=
    Mips.Sim.cast_value s .lw s.pc
  have hword : Aligned Sim.Size.word.bytes s.pc := hal
  rw [Mips.Sim.memRead_of_ramSel hram hword, hcast, hsame, loadValue_word hal, hpc]
  rfl

/-! ## Agreement -/

/-- What the simulator does from `s` to `s'` is what the core does with the instruction:
the register written and the value, the bytes stored and where it leads; and with it
the registers, the memory and the address behind the delay slot. -/
structure MipsAgrees (σ : Mips.Seq 18) (s s' : Mips.Sim.State) : Prop where
  outcome : s.outcome = .ok σ.outcome
  regs : ∀ k, k ≠ 0 → s'.r k = σ.nextRegs k
  mem : s'.mem = memOf σ.nextRam
  pcNext : s'.pcNext = σ.outcome.target.getD (s.pcNext + 4)

/-- When the core and the simulator do the same. -/
structure SameInstr (a : Isa.State 18) (i : Instr) : Prop where
  sltiu : ∀ rt rs imm, i = .imm .sltiu rt rs imm → rt = 0 ∨ imm.msb = false ∨
    (a.get rs).toNat < imm.toNat ∨ 0xffff0000 + imm.toNat ≤ (a.get rs).toNat
  jr : ∀ rs, i = .jr rs → Aligned 4 (a.get rs)
  jalr : ∀ rd rs, i = .jalr rd rs →
    rd = 31 ∧ if rs = 31 then a.get 31 = a.pc + 8 else Aligned 4 (a.get rs)
  link : ∀ op imm, i = .branchLink op 31 imm → (a.get 31).msb = false

theorem written_eq_iff {k : BitVec 5} {v v' : Word} :
    written k v = written k v' ↔ k = 0 ∨ v = v' := by
  rw [written, written]
  by_cases hk : k = 0
  · simp only [hk, if_true, true_or]
  · simp only [hk, if_false, false_or, Option.some.injEq, Prod.mk.injEq, true_and]

/-- The two comparisons differ between the two immediates. -/
theorem sltiu_eq_iff {x : Word} {imm : BitVec 16} :
    ImmOp.sltiu.eval x imm = ImmOp.sltiu.circuit x imm ↔
      imm.msb = false ∨ x.toNat < imm.toNat ∨ 0xffff0000 + imm.toNat ≤ x.toNat := by
  have hzero : (imm.setWidth 32).toNat = imm.toNat := by
    rw [BitVec.toNat_setWidth]
    omega
  have hx := x.isLt
  rw [ImmOp.eval, ImmOp.circuit, BitVec.ult, BitVec.ult, hzero, BitVec.toNat_signExtend, hzero]
  cases himm : imm.msb with
  | false => simp
  | true =>
    have hlt := imm.isLt
    simp
    split_ifs <;> simp <;> omega

section Instructions

variable {a : Isa.State 18}

theorem jr_iff {rs : BitVec 5} :
    simOutcome a (.jr rs) = circuitOutcome a (.jr rs) ↔ SameInstr a (.jr rs) := by
  constructor
  · intro h
    refine ⟨by simp, fun rs hi => ?_, by simp, by simp⟩
    cases hi
    exact Isa.base_eq_iff.mp (Option.some.inj (congrArg Outcome.target h))
  · intro h
    simp only [simOutcome, circuitOutcome, outcome, Isa.base_eq_iff.mpr (h.jr _ rfl)]

theorem jalr_iff (hal : Aligned 4 a.pc) {rd rs : BitVec 5} :
    simOutcome a (.jalr rd rs) = circuitOutcome a (.jalr rd rs) ↔ SameInstr a (.jalr rd rs) := by
  have hbehind : Aligned 4 (a.pc + 8) := by
    rw [Aligned] at hal ⊢
    rw [BitVec.toNat_add]
    simp
    omega
  constructor
  · intro h
    have hlink : written rd (a.pc + 8) = written 31 (a.pc + 8) := congrArg Outcome.write h
    have hrd : rd = 31 := by
      rw [written, written, if_neg (by decide : (31 : BitVec 5) ≠ 0)] at hlink
      split_ifs at hlink
      exact (Prod.mk.inj (Option.some.inj hlink)).1
    have htarget : (if rs = rd then a.pc + 8 else a.get rs) &&& ~~~3#32 = a.get rs :=
      Option.some.inj (congrArg Outcome.target h)
    refine ⟨by simp, by simp, fun rd' rs' hi => ?_, by simp⟩
    cases hi
    rw [hrd] at htarget
    refine ⟨hrd, ?_⟩
    split_ifs at htarget ⊢ with hrs
    · rw [hrs, Isa.base_eq_iff.mpr hbehind] at htarget
      exact htarget.symm
    · exact Isa.base_eq_iff.mp htarget
  · intro h
    obtain ⟨hrd, htarget⟩ := h.jalr _ _ rfl
    rw [simOutcome, circuitOutcome, hrd]
    split_ifs at htarget ⊢ with hrs
    · rw [Isa.base_eq_iff.mpr hbehind, hrs, htarget]
    · rw [Isa.base_eq_iff.mpr htarget]

/-- The simulator looks at the link, which is not negative. -/
theorem branchLink_iff (hlow : (a.pc + 8).msb = false) {op : ZeroOp} {rs : BitVec 5}
    (imm : BitVec 16) (hop : op = .ltz ∨ op = .gez) :
    simOutcome a (.branchLink op rs imm) = circuitOutcome a (.branchLink op rs imm) ↔
      SameInstr a (.branchLink op rs imm) := by
  by_cases hrs : rs = 31
  · have hsame : SameInstr a (.branchLink op rs imm) ↔ (a.get 31).msb = false := by
      constructor
      · intro h
        exact h.link op imm (by rw [hrs])
      · intro h
        exact ⟨by simp, by simp, by simp, fun _ _ _ => h⟩
    have htarget : simOutcome a (.branchLink op rs imm) = circuitOutcome a (.branchLink op rs imm) ↔
        op.holds (a.pc + 8) = op.holds (a.get 31) := by
      rw [simOutcome, circuitOutcome, outcome, if_pos hrs, hrs]
      · cases op.holds (a.pc + 8) <;> cases op.holds (a.get 31) <;> simp
      · simp
      · simp
    rw [hsame, htarget]
    rcases hop with rfl | rfl
    · rw [ZeroOp.holds, ZeroOp.holds, hlow]
      exact eq_comm
    · rw [ZeroOp.holds, ZeroOp.holds, hlow]
      cases (a.get 31).msb <;> decide
  · refine iff_of_true ?_ ⟨by simp, by simp, by simp, fun op imm hi => ?_⟩
    · simp only [simOutcome, circuitOutcome, outcome, if_neg hrs]
    · exact absurd (Instr.branchLink.inj hi).2.1 hrs

theorem sltiu_iff {rt rs : BitVec 5} {imm : BitVec 16} :
    simOutcome a (.imm .sltiu rt rs imm) = circuitOutcome a (.imm .sltiu rt rs imm) ↔
      SameInstr a (.imm .sltiu rt rs imm) := by
  constructor
  · intro h
    refine ⟨fun rt' rs' imm' hi => ?_, by simp, by simp, by simp⟩
    cases hi
    rw [← sltiu_eq_iff]
    exact written_eq_iff.mp (congrArg Outcome.write h)
  · intro h
    have hvalue := h.sltiu _ _ _ rfl
    rw [← sltiu_eq_iff] at hvalue
    rw [simOutcome, circuitOutcome, outcome, written_eq_iff.mpr hvalue]
    all_goals simp

/-- The outcomes are one exactly for these instructions. -/
theorem simOutcome_eq_circuit_iff {w : Word} {i : Instr} (hdec : Decodes w i)
    (hal : Aligned 4 a.pc) (hlow : (a.pc + 8).msb = false) :
    simOutcome a i = circuitOutcome a i ↔ SameInstr a i := by
  cases hdec with
  | jr => exact jr_iff
  | jalr => exact jalr_iff hal
  | link ho hf =>
    exact branchLink_iff hlow _ ((of_decodeLink hf).imp And.left And.left)
  | @imm op =>
    cases op with
    | sltiu => exact sltiu_iff
    | _ => exact iff_of_true rfl ⟨by simp, by simp, by simp, by simp⟩
  | _ => exact iff_of_true rfl ⟨by simp, by simp, by simp, by simp⟩

end Instructions

/-- An address behind one in RAM has no sign. -/
theorem msb_of_ramSel {a : Word} (h : ramSel a = true) : (a + 8).msb = false := by
  have hslice : (a.extractLsb' 28 4).toNat = 4 := congrArg BitVec.toNat (eq_of_beq h)
  rw [Lib.toNat_extract] at hslice
  have hlt := a.isLt
  rw [BitVec.msb_eq_false_iff_two_mul_lt, BitVec.toNat_add]
  simp
  omega

/-- For every instruction that the core decodes, every register file with `r0 = 0`, every
RAM and every aligned program counter in it, the simulator does in one cycle what the
control unit, the ALU and the datapath do with the instruction exactly when `SameInstr`
holds. The instruction is executed: no interrupt is entered and it is not annulled; and
a branch or jump is not itself in a delay slot. -/
theorem mips_sim_agreement {σ : Mips.Seq 18} {s : Mips.Sim.State} {i : Instr}
    (hsame : s.toIsa = σ.toIsa) (h₀ : s.r 0 = 0) (hram : ramSel s.pc = true)
    (hal : Aligned 4 s.pc) (hnext : Aligned 4 s.pcNext)
    (hslot : i.Transfers → s.pcNext = s.pc + 4) (hpend : ¬ s.pending) (hbds : s.noxBds = false)
    (hdec : decodeInstr σ.fetch = some i) (hacc : AccessOk σ.toIsa i) :
    (∃ s', s.cycle = .ok s' ∧ MipsAgrees σ s s') ↔ SameInstr σ.toIsa i := by
  have hd := decodes_of_decodeInstr hdec
  have hfetch := memRead_fetch hsame hram hal
  have hcircuit : σ.outcome = circuitOutcome σ.toIsa i := outcome_of_decodes hd hacc
  have hacc' : AccessOk s.toIsa i := by
    rw [hsame]
    exact hacc
  have hsim := Mips.Sim.outcome_of_decodes h₀ hfetch hal hslot hd hacc'
  rw [hsame] at hsim
  have hpc : s.pc = σ.toIsa.pc := congrArg Isa.State.pc hsame
  have hlow : (σ.toIsa.pc + 8).msb = false := by
    rw [← hpc]
    exact msb_of_ramSel hram
  rw [← simOutcome_eq_circuit_iff hd (by rw [← hpc]; exact hal) hlow, ← hcircuit]
  constructor
  · rintro ⟨s', -, h⟩
    have heq := h.outcome
    rw [hsim] at heq
    exact Except.ok.inj heq
  · intro heq
    obtain ⟨s', hcycle, h⟩ :=
      Mips.Sim.cycle_of_decodes h₀ hfetch hpend hbds hal hnext hslot hd hacc'
    rw [hsame, heq] at h
    have hr : s.r = σ.regs := congrArg Isa.State.regs hsame
    have hmem : s.mem = memOf σ.ram := congrArg Isa.State.mem hsame
    refine ⟨s', hcycle, ?_, fun k hk => ?_, ?_, h.pcNext⟩
    · rw [hsim, heq]
    · rw [h.regs k hk, Mips.Sim.head_r h₀, hr, σ.nextRegs_eq]
    · rw [h.mem, σ.nextRam_eq, ← hmem]
      rfl

/-! ## Two instructions -/

/-- One word of program at the start of the RAM, with an address in `r2`. -/
def oneMipsWord (w : Word) : Mips.Seq 18 where
  regs := fun r => if r = 2 then 0x40000100 else 0
  pc := 0x40000000
  ram := fun k => if k = 0 then w else 0

/-- The simulator in the state of the core. -/
def mipsSimOf (σ : Mips.Seq 18) : Mips.Sim.State where
  toBase := .start σ.regs σ.pc (σ.pc + 4) (memOf σ.ram) [] false
  hi := 0
  lo := 0
  j := false
  noxBds := false

/-- `sh r2, 2(r2)`. -/
theorem mips_sim_agreement_sh :
    ∃ s', (mipsSimOf (oneMipsWord 0xa4420002)).cycle = .ok s' ∧
      MipsAgrees (oneMipsWord 0xa4420002) (mipsSimOf (oneMipsWord 0xa4420002)) s' :=
  (mips_sim_agreement (i := .store .sh 2 2 2) rfl rfl (by decide) (by decide) (by decide)
    nofun (by decide) rfl (by decide +kernel) ⟨by decide, by decide⟩).mpr
    ⟨nofun, nofun, nofun, nofun⟩

/-- `sltiu r1, r2, 0xffff`: the address in `r2` is below the immediate when its sign is
extended, as in the simulator and in `slti` of the core, and not below `0x0000ffff`. -/
theorem mips_sim_agreement_sltiu :
    decodeInstr (oneMipsWord 0x2c41ffff).fetch = some (.imm .sltiu 1 2 0xffff) ∧
      (oneMipsWord 0x2c41ffff).outcome = ⟨some (1, 0), none, []⟩ ∧
      (mipsSimOf (oneMipsWord 0x2c41ffff)).outcome = .ok ⟨some (1, 1), none, []⟩ ∧
      ¬ ∃ s', (mipsSimOf (oneMipsWord 0x2c41ffff)).cycle = .ok s' ∧
        MipsAgrees (oneMipsWord 0x2c41ffff) (mipsSimOf (oneMipsWord 0x2c41ffff)) s' := by
  have hcore : (oneMipsWord 0x2c41ffff).outcome = ⟨some (1, 0), none, []⟩ := by decide +kernel
  have hsim : (mipsSimOf (oneMipsWord 0x2c41ffff)).outcome = .ok ⟨some (1, 1), none, []⟩ := by
    decide +kernel
  refine ⟨by decide +kernel, hcore, hsim, ?_⟩
  rintro ⟨s', -, h⟩
  have heq := h.outcome
  rw [hsim, hcore] at heq
  exact absurd heq (by decide)

end HfRisc.Results
