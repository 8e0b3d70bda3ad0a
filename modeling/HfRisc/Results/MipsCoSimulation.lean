import HfRisc.Mips.SimRun
import HfRisc.Results.MipsAgreement
import HfRisc.Results.MipsRefinement

/-!
# The MIPS core and its simulator run the same programs alike

The simulator is in the state of the instruction set after every number of cycles exactly on
programs all of whose instructions are ones on which one instruction of both agrees. On these the
registers and the RAM of the pipeline are at all times those of the simulator after some number of
its cycles.
-/

namespace HfRisc.Results

open HfRisc.Lib HfRisc.Mips
open HfRisc.Mips.Sim (Mirrors)
open HfRisc.Rtl (Input)
open HfRisc.Isa (Aligned memOf)

variable {a : Delayed 18} {u t : Mips.Sim.State} {i : Instr}

/-- The core and the simulator do the same with the instruction at the program counter. -/
def SameHere (a : Delayed 18) : Prop := ∀ i, decodeInstr a.fetch = some i → SameInstr a.toState i

/-- What the core does with the instruction at the program counter. -/
def delayedOutcome (a : Delayed 18) : Option Outcome :=
  (decodeInstr a.fetch).map (circuitOutcome a.toState)

/-- No branch or jump of a well-behaved program is in the delay slot of one that is taken. -/
theorem straight_line (hgood : a.WellBehaved) (hstart : a.pcNext = a.pc + 4) (k : ℕ)
    (hdec : decodeInstr (a.run k).fetch = some i) (hi : i.Transfers) :
    (a.run k).pcNext = (a.run k).pc + 4 := by
  cases k with
  | zero => exact hstart
  | succ k =>
    obtain ⟨j, hj, -⟩ := (hgood.ok k).legal
    have hslot := hgood.slot k
    rw [Delayed.leads, hj] at hslot
    cases htarget : (circuitOutcome (a.run k).toState j).target with
    | some target => exact absurd hi (hslot (by simp only [htarget]; rfl) i hdec)
    | none =>
      rw [Delayed.run_succ', Delayed.step, hj]
      show (circuitOutcome (a.run k).toState j).target.getD _ = _
      rw [htarget]
      rfl

/-- A cycle of the simulator from a state of a well-behaved program. -/
theorem mirrors_cycle (hgood : a.WellBehaved) (hstart : a.pcNext = a.pc + 4) {k : ℕ}
    (ht : Mirrors t (a.run k)) (hdec : decodeInstr (a.run k).fetch = some i) :
    t.outcome = .ok (Mips.Sim.simOutcome (a.run k).toState i) ∧
      ∃ t', t.cycle = .ok t' ∧
        Mirrors t' ((a.run k).after (Mips.Sim.simOutcome (a.run k).toState i)) := by
  obtain ⟨j, hj, hacc⟩ := (hgood.ok k).legal
  obtain rfl := Option.some.inj (hj.symm.trans hdec)
  have hslot := straight_line hgood hstart k hdec
  have hnext : Aligned 4 (a.run k).pcNext := by
    have hal := (hgood.ok (k + 1)).aligned
    rw [Delayed.run_succ', Delayed.step, hdec] at hal
    exact hal
  exact ⟨ht.outcome (hgood.ok k) hslot hdec hacc, ht.cycle (hgood.ok k) hnext hslot hdec hacc⟩

theorem sameHere_iff (hok : a.Ok) (hdec : decodeInstr a.fetch = some i) :
    Mips.Sim.simOutcome a.toState i = circuitOutcome a.toState i ↔ SameHere a := by
  rw [simOutcome_eq_circuit_iff (decodes_of_decodeInstr hdec) hok.aligned (msb_of_ramSel hok.ram)]
  constructor
  · intro h j hj
    obtain rfl := Option.some.inj (hdec.symm.trans hj)
    exact h
  · intro h
    exact h i hdec

theorem mirrors_run (hu : Mirrors u a) (hgood : a.WellBehaved) (hstart : a.pcNext = a.pc + 4)
    (hsame : ∀ k, SameHere (a.run k)) (k : ℕ) :
    ∃ t, Mips.Sim.run u k = .ok t ∧ Mirrors t (a.run k) := by
  induction k with
  | zero => exact ⟨u, rfl, hu⟩
  | succ k ih =>
    obtain ⟨t, hrun, ht⟩ := ih
    obtain ⟨i, hdec, -⟩ := (hgood.ok k).legal
    obtain ⟨-, t', hcycle, ht'⟩ := mirrors_cycle hgood hstart ht hdec
    refine ⟨t', ?_, ?_⟩
    · rw [Mips.Sim.run, hrun]
      exact hcycle
    · rw [(sameHere_iff (hgood.ok k) hdec).mpr (hsame k)] at ht'
      rw [Delayed.run_succ', Delayed.step, hdec]
      exact ht'

/-- From a mirrored state, on a well-behaved program: the simulator is in the state of the
instruction set after every number of cycles, and about to do what the core does, exactly when every
instruction is one on which the two agree. -/
theorem mips_sim_refines (hu : Mirrors u a) (hgood : a.WellBehaved)
    (hstart : a.pcNext = a.pc + 4) :
    (∀ k, ∃ t, Mips.Sim.run u k = .ok t ∧ Mirrors t (a.run k) ∧
      t.outcome.toOption = delayedOutcome (a.run k)) ↔ ∀ k, SameHere (a.run k) := by
  constructor
  · intro hall k
    obtain ⟨t, -, ht, hout⟩ := hall k
    obtain ⟨i, hdec, -⟩ := (hgood.ok k).legal
    rw [← sameHere_iff (hgood.ok k) hdec]
    rw [(mirrors_cycle hgood hstart ht hdec).1, delayedOutcome, hdec] at hout
    exact Option.some.inj hout
  · intro hsame k
    obtain ⟨t, hrun, ht⟩ := mirrors_run hu hgood hstart hsame k
    obtain ⟨i, hdec, -⟩ := (hgood.ok k).legal
    refine ⟨t, hrun, ht, ?_⟩
    rw [(mirrors_cycle hgood hstart ht hdec).1, delayedOutcome, hdec,
      (sameHere_iff (hgood.ok k) hdec).mpr (hsame k)]
    rfl

/-- After `N` cycles of the pipeline its registers and RAM are those of the simulator after `k` of
its own. -/
def SameAfter (s : Mips.System 18) (u : Mips.Sim.State) (x : ℕ → Input) (N k : ℕ) : Prop :=
  ∃ t, Mips.Sim.run u k = .ok t ∧
    (∀ r ≠ 0, t.r r = (System.machine.run s (Mealy.inputs x N)).core.regs r) ∧
    t.mem = memOf (System.machine.run s (Mealy.inputs x N)).ram

theorem sameAfter_of_mirrors {s : Mips.System 18} {x : ℕ → Input} {N k : ℕ}
    (hperforms : MipsPerforms s a x N k) (hrun : Mips.Sim.run u k = .ok t)
    (ht : Mirrors t (a.run k)) :
    SameAfter s u x N k := by
  refine ⟨t, hrun, fun r hr => ?_, ht.mem.trans hperforms.mem.symm⟩
  have hget := congrFun ht.get r
  rw [Isa.State.get, Isa.State.get, if_neg hr, if_neg hr] at hget
  rw [hperforms.regs]
  exact hget

/-- The core and the simulator, each in its own time: at all times the registers and the RAM of the
pipeline are those of the simulator after a number of its cycles, and every number is passed. -/
theorem mips_cosimulates {s : Mips.System 18} {σ : Mips.Seq 18} (hstart : AtFetch σ s)
    (hu : Mirrors u (ofSeq σ (σ.pc + 4))) (hgood : (ofSeq σ (σ.pc + 4)).WellBehaved)
    (hsame : ∀ k, SameHere ((ofSeq σ (σ.pc + 4)).run k)) {x : ℕ → Input}
    (hx : ∀ N, (x N).stall = false) :
    (∀ N, ∃ k, SameAfter s u x N k) ∧ (∀ k, ∃ N, ∃ k' ≥ k, SameAfter s u x N k') := by
  constructor
  · intro N
    obtain ⟨k, hperforms⟩ := performs_of_cycles hstart hgood hx N
    obtain ⟨t, hrun, ht⟩ := mirrors_run hu hgood rfl hsame k
    exact ⟨k, sameAfter_of_mirrors hperforms hrun ht⟩
  · intro k
    obtain ⟨N, k', hk, hperforms⟩ := performs_of_instructions hstart hgood hx k
    obtain ⟨t, hrun, ht⟩ := mirrors_run hu hgood rfl hsame k'
    exact ⟨N, k', hk, sameAfter_of_mirrors hperforms hrun ht⟩

/-! ## The loop that counts -/

theorem mirrors_mipsSimOf (σ : Mips.Seq 18) : Mirrors (mipsSimOf σ) (ofSeq σ (σ.pc + 4)) where
  get := rfl
  pc := rfl
  pcNext := rfl
  mem := rfl
  quiet := ⟨rfl, fun _ => rfl, rfl⟩

theorem sameHere_counter (k : ℕ) : SameHere ((ofSeq counter (counter.pc + 4)).run k) := by
  intro i hi
  rcases (counting_run k).decode_fetch with ⟨-, -, hdec⟩ | ⟨-, -, hdec⟩
  · obtain rfl := Option.some.inj (hdec.symm.trans hi)
    exact ⟨nofun, nofun, nofun, nofun⟩
  · obtain rfl := Option.some.inj (hdec.symm.trans hi)
    exact ⟨nofun, nofun, nofun, nofun⟩

/-- The simulator counts for ever. -/
theorem mips_sim_refines_counter :
    (∀ k, ∃ t, Mips.Sim.run (mipsSimOf counter) k = .ok t ∧
      Mirrors t ((ofSeq counter (counter.pc + 4)).run k) ∧
      t.outcome.toOption = delayedOutcome ((ofSeq counter (counter.pc + 4)).run k)) ↔
      ∀ k, SameHere ((ofSeq counter (counter.pc + 4)).run k) :=
  mips_sim_refines (mirrors_mipsSimOf counter) wellBehaved_counter rfl

/-- And so does the pipeline with it. -/
theorem mips_cosimulates_counter :
    (∀ N, ∃ k, SameAfter (mipsBoot counter) (mipsSimOf counter) (fun _ => calmInput) N k) ∧
    (∀ k, ∃ N, ∃ k' ≥ k,
      SameAfter (mipsBoot counter) (mipsSimOf counter) (fun _ => calmInput) N k') :=
  mips_cosimulates (atFetch_mipsBoot counter) (mirrors_mipsSimOf counter) wellBehaved_counter
    sameHere_counter fun _ => rfl

end HfRisc.Results
