import HfRisc.Pipe.CoreI
import HfRisc.Results.SimStep

/-!
# One instruction of the circuit and one of the simulator

Both are compared through the instruction set: the circuit differs from it in the
target of `JALR`, whose bit 0 it keeps, and the simulator in the base of a `JALR`
onto itself and in what it leaves in `r[0]`. Everything else is the same.
-/

namespace HfRisc.Results

open HfRisc.Rtl HfRisc.Sim HfRisc.Pipe
open HfRisc.Isa (Instr Aligned ofSeq memOf circuitOutcome)

/-! ## The fetch -/

/-- An aligned word does not cross the end of the array. -/
theorem fetch_of_aligned {b : Base} (h : Aligned 4 b.pc) : b.fetch b.pc = .ok b.toIsa.fetch := by
  have hoff : (Base.offset b.pc).toNat + 4 ≤ 0x00100000 := by
    rw [Base.offset, BitVec.toNat_setWidth]
    rw [Aligned] at h
    omega
  rw [Base.fetch, if_pos hoff]
  exact congrArg Except.ok (cast_peek b b.pc .lw)

/-! ## Agreement -/

/-- When the circuit and the simulator do the same. -/
structure SameStep (a : Isa.State 18) (i : Instr) : Prop where
  even : ∀ rd rs1 imm, i = .jalr rd rs1 imm → rs1 ≠ rd → (a.get rs1 + imm).getLsbD 0 = false
  link : ∀ rd imm, i = .jalr rd rd imm → (a.pc + 4 + imm) &&& ~~~1#32 = a.get rd + imm
  zero : ∀ v, (a.outcome i).write = some (0, v) → v = 0

/-- The two landing places are one exactly for these `JALR`. -/
theorem landing_eq_circuit_iff {a : Isa.State 18} {i : Instr} :
    landing a i = (circuitOutcome a i).pc ↔
      (∀ rd rs1 imm, i = .jalr rd rs1 imm → rs1 ≠ rd → (a.get rs1 + imm).getLsbD 0 = false) ∧
      (∀ rd imm, i = .jalr rd rd imm → (a.pc + 4 + imm) &&& ~~~1#32 = a.get rd + imm) := by
  cases i with
  | jalr rd rs1 imm =>
    show ((if rs1 = rd then a.pc + 4 else a.get rs1) + imm) &&& ~~~1#32 = a.get rs1 + imm ↔ _
    by_cases h : rs1 = rd
    · subst h
      rw [if_pos rfl]
      constructor
      · intro heq
        refine ⟨fun d r k hi hne => ?_, fun d k hi => ?_⟩
        · cases hi
          exact absurd rfl hne
        · cases hi
          exact heq
      · exact fun hall => hall.2 rs1 imm rfl
    · rw [if_neg h, Isa.and_not_one_iff]
      constructor
      · intro heven
        refine ⟨fun d r k hi _ => ?_, fun d k hi => ?_⟩
        · cases hi
          exact heven
        · cases hi
          exact absurd rfl h
      · exact fun hall => hall.1 rd rs1 imm rfl h
  | _ => exact ⟨fun _ => ⟨fun _ _ _ hi => (nomatch hi), fun _ _ hi => (nomatch hi)⟩, fun _ => rfl⟩

/-- For every legal instruction but `FENCE`, every register file with `x0 = 0`, every
memory and every aligned program counter, the circuit and the simulator reach the same
program counter, registers and memory exactly when `SameStep` holds. -/
theorem rtl_sim_step {σ : Seq 18} {s : Sim.State} {i : Instr} (hsame : s.toIsa = ofSeq σ)
    (h₀ : s.r 0 = 0) (hnext : s.pcNext = s.pc + 4) (hpend : ¬ s.pending) (hal : Aligned 4 s.pc)
    (hdec : Isa.decode false σ.fetch = some i) (hfence : i ≠ .fence)
    (hacc : i.AccessOk (ofSeq σ)) (io : Word) :
    (∃ s', s.cycle = .ok s' ∧ s'.toIsa = ofSeq (σ.next rv32i contractRv32i io)) ↔
      SameStep (ofSeq σ) i := by
  have hpc : s.pc = σ.pc := congrArg Isa.State.pc hsame
  have hword : s.toIsa.fetch = σ.fetch := by
    rw [hsame, Isa.fetch_ofSeq]
    rw [← hpc]
    exact hal
  have hfetch : s.memFetch s.pc = .ok σ.fetch := by
    rw [← hword]
    exact fetch_of_aligned hal
  obtain ⟨t, hexec, ht⟩ := execute_of_decode h₀ hnext hdec (by rw [hsame]; exact hacc) hfence
  rw [hsame] at ht
  have hmem : s.mem = (ofSeq σ).mem := congrArg Isa.State.mem hsame
  have hadv : t.advance.toIsa = ⟨cells (ofSeq σ) ((ofSeq σ).outcome i), landing (ofSeq σ) i,
      ((ofSeq σ).outcome i).bytes.foldl Isa.State.poke (ofSeq σ).mem⟩ := by
    show (⟨t.r, t.pcNext, t.mem⟩ : Isa.State 18) = _
    rw [ht.r, ht.pcNext, ht.mem]
  have hcircuit := (Isa.performs_circuitOutcome implementsRv32i hdec hacc io).1
  have hzero : (ofSeq σ).regs 0 = 0 := by
    rw [← hsame]
    exact h₀
  have hregs : ((ofSeq σ).apply (circuitOutcome (ofSeq σ) i)).regs =
      ((ofSeq σ).apply ((ofSeq σ).outcome i)).regs := by
    simp only [Isa.State.apply, Isa.circuitOutcome_write]
  rw [cycle_eq hpend hfetch, hexec, hcircuit]
  constructor
  · rintro ⟨s', h, hisa⟩
    cases h
    rw [hadv] at hisa
    have hpcs := congrArg Isa.State.pc hisa
    have hcells := (congrArg Isa.State.regs hisa).trans hregs
    obtain ⟨heven, hlink⟩ := landing_eq_circuit_iff.mp hpcs
    exact ⟨heven, hlink, (cells_eq_iff hzero).mp hcells⟩
  · intro hstep
    refine ⟨t.advance, rfl, ?_⟩
    rw [hadv, (cells_eq_iff hzero).mpr hstep.zero,
      landing_eq_circuit_iff.mpr ⟨hstep.even, hstep.link⟩, ← hregs, ← Isa.circuitOutcome_bytes]
    rfl

/-! ## Two instructions -/

/-- The simulator in the state of the circuit. -/
def simOf (σ : Seq 18) : Sim.State :=
  .start (.start σ.regs σ.pc (σ.pc + 4) (memOf σ.ram) [] false)

/-- One word of program at the start of the RAM, with an address in `x2`. -/
def oneWord (w : Word) : Seq 18 where
  regs := fun r => if r = 2 then 0x40000100 else 0
  pc := 0x40000000
  ram := fun k => if k = 0 then swapBytes w else 0

/-- `sh x2, 2(x2)`. -/
theorem rtl_sim_step_sh :
    ∃ s', (simOf (oneWord 0x00211123)).cycle = .ok s' ∧
      s'.toIsa = ofSeq ((oneWord 0x00211123).next rv32i contractRv32i 0) :=
  (rtl_sim_step (i := .store .sh 2 2 2) rfl rfl rfl (by decide) (by decide) (by decide +kernel)
    (by decide) ⟨by decide, by decide⟩ 0).mpr
    ⟨nofun, nofun, nofun⟩

/-- `jalr x2, 0(x2)`: the circuit jumps to the address in `x2`, the simulator behind
the jump. -/
theorem rtl_sim_step_jalr :
    Isa.decode false (oneWord 0x00010167).fetch = some (.jalr 2 2 0) ∧
      ((oneWord 0x00010167).next rv32i contractRv32i 0).pc = 0x40000100 ∧
      (simOf (oneWord 0x00010167)).cycle.map (fun s => s.pc) = .ok 0x40000004 ∧
      ¬ ∃ s', (simOf (oneWord 0x00010167)).cycle = .ok s' ∧
        s'.toIsa = ofSeq ((oneWord 0x00010167).next rv32i contractRv32i 0) := by
  have hpc : ((oneWord 0x00010167).next rv32i contractRv32i 0).pc = 0x40000100 := by decide +kernel
  have hsim : (simOf (oneWord 0x00010167)).cycle.map (fun s => s.pc) = .ok 0x40000004 := by
    decide +kernel
  refine ⟨by decide +kernel, hpc, hsim, ?_⟩
  rintro ⟨s', hs', hisa⟩
  rw [hs'] at hsim
  have hpc' : s'.pc = 0x40000100 := (congrArg Isa.State.pc hisa).trans hpc
  rw [show s'.pc = 0x40000004 from Except.ok.inj hsim] at hpc'
  exact absurd hpc' (by decide)

end HfRisc.Results
