import HfRisc.Mips.Delayed
import HfRisc.Pipe.Refinement
import HfRisc.Results.Programs

/-!
# The MIPS pipeline executes its instruction set

The register and memory writes of the pipeline are those of the program, executed one instruction
after another with delay slots, in order and without end. Two things are asked of the program that
the circuit does not check: data accesses are aligned, and no branch or jump stands in the delay
slot of one that is taken.
-/

namespace HfRisc.Results

open HfRisc.Lib HfRisc.Mips
open HfRisc.Rtl (Input)
open HfRisc.Isa (Aligned memOf)
open HfRisc.Pipe (eq_replicate_unit)

variable {n : ℕ} {σ : Mips.Seq n} {s : Mips.System n} {r : ℕ} {next : Word}

/-- The pipeline is in a phase of the instruction at the program counter, and the program is well
behaved from there on. -/
structure MipsRefines (r : ℕ) (s : Mips.System n) (a : Delayed n) : Prop where
  phase : ∃ σ, Phase r σ a.pcNext s ∧ ofSeq σ a.pcNext = a
  good : a.WellBehaved

theorem decode_ofSeq {i : Instr} (hok : (ofSeq σ next).Ok)
    (hdec : decodeInstr (ofSeq σ next).fetch = some i) : decodeInstr σ.fetch = some i :=
  (congrArg _ (fetch_ofSeq _ hok.aligned)).symm.trans hdec

/-- A well-behaved program is what the pipeline relies on. -/
theorem fits_of_wellBehaved (h : (ofSeq σ next).WellBehaved) : σ.Fits next := by
  have hok := h.ok 0
  obtain ⟨i, hdec, hacc⟩ := hok.legal
  have hword := decode_ofSeq hok hdec
  obtain ⟨hstep, -, hleads⟩ := behind_ofSeq next hok.aligned hword hacc
  have hrun : (ofSeq σ next).run 1 = ofSeq (σ.behind next) (σ.following next) := hstep.symm
  have hbehind := h.ok 1
  rw [hrun] at hbehind
  refine ⟨hok.ram, hbehind.ram, ramSel_of_decodes (decodes_of_decodeInstr hword) hacc,
    fun htarget => ?_⟩
  have hstraight := h.slot 0 (hleads.trans (Option.isSome_iff_ne_none.mpr htarget))
  rw [hrun] at hstraight
  obtain ⟨j, hdecj, -⟩ := hbehind.legal
  have hwordj := decode_ofSeq hbehind hdecj
  exact plain_of_decodes (decodes_of_decodeInstr hwordj) (hstraight j hdecj)

/-- The pipeline simulates the instruction set. -/
theorem mips_sim :
    Mealy.Simulation (System.machine (n := n)) (Delayed.machine n) MipsRefines
      (fun _ i => i.stall = false) 3 where
  step := by
    rintro r s a i ⟨⟨σ, hphase, hσ⟩, hgood⟩ hstall
    have hgood' : (ofSeq σ a.pcNext).WellBehaved := by
      rw [hσ]
      exact hgood
    rcases hphase.step hstall (fits_of_wellBehaved hgood') with
      ⟨r', hlt, hphase', hout⟩ | ⟨r', hle, hphase', hout⟩
    · -- a silent cycle of the same instruction
      exact .inl ⟨r', hlt, ⟨⟨σ, hphase', hσ⟩, hgood⟩, hout⟩
    · -- the last cycle of the instruction, which is one step of the instruction set
      have hok := hgood'.ok 0
      obtain ⟨j, hdec, hacc⟩ := hok.legal
      have hword := decode_ofSeq hok hdec
      obtain ⟨hstep, heffects, -⟩ := behind_ofSeq a.pcNext hok.aligned hword hacc
      rw [hσ] at hstep heffects
      have hnext : σ.following a.pcNext = a.step.pcNext := congrArg Delayed.pcNext hstep
      rw [hnext] at hphase' hstep
      refine .inr ⟨r', hle, [()], List.cons_ne_nil _ _, ⟨⟨_, hphase', hstep⟩, hgood.step⟩, ?_⟩
      show s.commits i = a.effects ++ []
      rw [hout, heffects, List.append_nil]

/-- The registers and the RAM are at all times those of the instruction to be executed. -/
theorem Phase.calm (h : Mips.Phase r σ next s) : s.core.regs = σ.regs ∧ s.ram = σ.ram := by
  cases h with
  | fetch h => exact ⟨h.regs, h.ram⟩
  | decode h => exact ⟨h.regs, h.ram⟩
  | execute h => exact ⟨h.regs, h.ram⟩
  | load h => exact ⟨h.regs, h.ram⟩

/-- After `N` cycles the pipeline has made the writes of `k` instructions, and its registers and RAM
are those behind them. -/
structure MipsPerforms (s : Mips.System n) (a : Delayed n) (x : ℕ → Input) (N k : ℕ) : Prop where
  trace : System.machine.trace s (Mealy.inputs x N) = a.trace k
  regs : (System.machine.run s (Mealy.inputs x N)).core.regs = (a.run k).regs
  mem : memOf (System.machine.run s (Mealy.inputs x N)).ram = (a.run k).mem

theorem performs_of_refines {a : Delayed n} {x : ℕ → Input} {N : ℕ} {es : List Unit}
    (h : MipsRefines r (System.machine.run s (Mealy.inputs x N)) ((Delayed.machine n).run a es))
    (htrace : System.machine.trace s (Mealy.inputs x N) = (Delayed.machine n).trace a es) :
    MipsPerforms s a x N es.length := by
  rw [eq_replicate_unit es] at h htrace
  obtain ⟨⟨τ, hphase, hτ⟩, -⟩ := h
  obtain ⟨hregs, hram⟩ := Phase.calm hphase
  refine ⟨htrace, ?_, ?_⟩
  · rw [hregs]
    exact congrArg (fun a => a.regs) hτ
  · rw [hram]
    exact congrArg (fun a => a.mem) hτ

section Run

variable (hstart : AtFetch σ s) (hgood : (ofSeq σ (σ.pc + 4)).WellBehaved) {x : ℕ → Input}
  (hx : ∀ N, (x N).stall = false)
include hstart hgood

theorem mipsRefines_start : MipsRefines 3 s (ofSeq σ (σ.pc + 4)) := ⟨⟨σ, .fetch hstart, rfl⟩, hgood⟩

include hx

/-- Every prefix of the run is a prefix of the program. -/
theorem performs_of_cycles (N : ℕ) : ∃ k, MipsPerforms s (ofSeq σ (σ.pc + 4)) x N k := by
  obtain ⟨r, es, href, htrace⟩ :=
    mips_sim.run (mipsRefines_start hstart hgood) (Mealy.along_inputs _ (fun N => hx N) N)
  exact ⟨es.length, performs_of_refines href htrace⟩

/-- And every number of instructions is reached. -/
theorem performs_of_instructions (k : ℕ) :
    ∃ N, ∃ k' ≥ k, MipsPerforms s (ofSeq σ (σ.pc + 4)) x N k' := by
  obtain ⟨N, r, es, hlen, href, htrace⟩ :=
    mips_sim.reaches (fun N => hx N) (mipsRefines_start hstart hgood) k
  exact ⟨N, es.length, hlen, performs_of_refines href htrace⟩

end Run

/-- The pipeline performs the program: at all times it is behind some number of instructions, and
every number is reached. -/
theorem mips_refines (hstart : AtFetch σ s) (hgood : (ofSeq σ (σ.pc + 4)).WellBehaved)
    {x : ℕ → Input} (hx : ∀ N, (x N).stall = false) :
    (∀ N, ∃ k, MipsPerforms s (ofSeq σ (σ.pc + 4)) x N k) ∧
    (∀ k, ∃ N, ∃ k' ≥ k, MipsPerforms s (ofSeq σ (σ.pc + 4)) x N k') :=
  ⟨performs_of_cycles hstart hgood hx, performs_of_instructions hstart hgood hx⟩

/-! ## A loop that counts -/

/-- `j 0x40000000` with `addiu r2, r2, 1` in its delay slot. -/
def counter : Mips.Seq 18 where
  regs := fun _ => 0
  pc := 0x40000000
  ram := fun k => if k = 0 then 0x08000000 else 0x24420001

/-- The loop is at one of its two instructions. -/
structure Counting (a : Delayed 18) : Prop where
  place : (a.pc = 0x40000000 ∧ a.pcNext = 0x40000004) ∨ (a.pc = 0x40000004 ∧ a.pcNext = 0x40000000)
  mem : a.mem = memOf counter.ram

theorem delayed_fetch_congr {a b : Delayed n} (hpc : a.pc = b.pc) (hmem : a.mem = b.mem) :
    a.fetch = b.fetch := by
  have hbyte : a.byte = b.byte := by
    funext x
    rw [Isa.State.byte, Isa.State.byte, hmem]
  rw [Delayed.fetch, Delayed.fetch, hbyte, hpc]

namespace Counting

variable {a : Delayed 18} (h : Counting a)
include h

theorem decode_fetch :
    (a.pc = 0x40000000 ∧ a.pcNext = 0x40000004 ∧ decodeInstr a.fetch = some (.j 0)) ∨
      (a.pc = 0x40000004 ∧ a.pcNext = 0x40000000 ∧
        decodeInstr a.fetch = some (.imm .addiu 2 2 1)) := by
  rcases h.place with ⟨hpc, hnext⟩ | ⟨hpc, hnext⟩
  · refine .inl ⟨hpc, hnext, ?_⟩
    rw [delayed_fetch_congr (b := ofSeq counter 0x40000004) hpc h.mem]
    decide +kernel
  · refine .inr ⟨hpc, hnext, ?_⟩
    rw [delayed_fetch_congr (b := ofSeq { counter with pc := 0x40000004 } 0) hpc h.mem]
    decide +kernel

theorem step : Counting a.step := by
  rcases h.decode_fetch with ⟨hpc, hnext, hdec⟩ | ⟨-, hnext, hdec⟩
  · have htarget : jumpTarget a.pc 0 = 0x40000000 := by
      rw [hpc]
      decide
    rw [Delayed.step, hdec]
    exact ⟨.inr ⟨hnext, htarget⟩, h.mem⟩
  · have hahead : a.pcNext + 4 = 0x40000004 := by
      rw [hnext]
      decide
    rw [Delayed.step, hdec]
    exact ⟨.inl ⟨hnext, hahead⟩, h.mem⟩

theorem ok : a.Ok where
  ram := by rcases h.place with ⟨hpc, -⟩ | ⟨hpc, -⟩ <;> rw [hpc] <;> decide
  aligned := by rcases h.place with ⟨hpc, -⟩ | ⟨hpc, -⟩ <;> rw [hpc] <;> decide
  legal := by
    rcases h.decode_fetch with ⟨-, -, hdec⟩ | ⟨-, -, hdec⟩ <;> exact ⟨_, hdec, trivial⟩

/-- Only the jump leads elsewhere, and behind it is the sum. -/
theorem straight_step (hleads : a.leads = true) : a.step.Straight := by
  intro i hi
  rcases h.decode_fetch with ⟨hpc, hnext, hdec⟩ | ⟨-, -, hdec⟩
  · have hstep : a.step.pc = 0x40000004 := by
      rw [Delayed.step, hdec]
      exact hnext
    rcases h.step.decode_fetch with ⟨hback, -, -⟩ | ⟨-, -, hsum⟩
    · rw [hstep] at hback
      exact absurd hback (by decide)
    · obtain rfl := Option.some.inj (hsum.symm.trans hi)
      exact id
  · rw [Delayed.leads, hdec] at hleads
    cases hleads

end Counting

theorem counting_run (k : ℕ) : Counting ((ofSeq counter 0x40000004).run k) :=
  Delayed.run_invariant (fun _ h => Counting.step h) ⟨.inl ⟨rfl, rfl⟩, rfl⟩ k

theorem wellBehaved_counter : (ofSeq counter 0x40000004).WellBehaved where
  ok k := (counting_run k).ok
  slot k hleads := by
    rw [Delayed.run_succ']
    exact (counting_run k).straight_step hleads

/-- A core that has just jumped to the program. -/
def mipsBoot (σ : Mips.Seq n) : Mips.System n where
  core :=
    { pc := σ.pc
      pcLast := 0
      irqAckDly := false
      bds := true
      memToRegDly := false
      dataAccessDly := false
      stallReg := false
      ex := bubble
      regs := σ.regs }
  intc := Pipe.idleIntc
  ram := σ.ram
  dataReadRam := 0
  periphDly := false

theorem atFetch_mipsBoot (σ : Mips.Seq n) : AtFetch σ (mipsBoot σ) where
  regs := rfl
  ram := rfl
  rest := ⟨rfl, BitVec.getLsbD_zero, nofun, nofun, rfl⟩
  stallReg := rfl
  pc := rfl
  wait := rfl
  straight := redirect_straight rfl rfl _ _
  killed := fun _ => rfl
  silent := fun _ => rfl

/-- The pipeline counts for ever. -/
theorem mips_refines_counter :
    (∀ N, ∃ k, MipsPerforms (mipsBoot counter) (ofSeq counter (counter.pc + 4))
      (fun _ => calmInput) N k) ∧
    (∀ k, ∃ N, ∃ k' ≥ k, MipsPerforms (mipsBoot counter) (ofSeq counter (counter.pc + 4))
      (fun _ => calmInput) N k') :=
  mips_refines (atFetch_mipsBoot counter) wellBehaved_counter fun _ => rfl

end HfRisc.Results
