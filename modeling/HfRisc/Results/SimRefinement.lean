import HfRisc.Results.SimZero
import HfRisc.Results.StepAgreement

/-!
# The simulator executes RV32I

`sim_step` compares one cycle from a cleared `r[0]`. Over a run the cell is not cleared: the
instruction before may have written to it. Only loads and stores with base `x0` see that, and their
addresses never lie in RAM, so on a program whose accesses are in RAM the simulator does not notice
what it left there. No register that delays or raises an interrupt is written either, so nothing
interrupts the run.
-/

namespace HfRisc.Results

open HfRisc.Sim
open HfRisc.Pipe (Seq)
open HfRisc.Isa (Instr decode ofSeq)

variable {s t : Sim.State} {σ : Isa.State 18} {i : Instr} {w : Word} {m : Bool}

/-! ## States that agree but for the cell of `x0` -/

/-- The instruction set does not look at the cell of `x0`. -/
theorem outcome_congr {a b : Isa.State 18} (hget : a.get = b.get) (hpc : a.pc = b.pc)
    (hmem : a.mem = b.mem) (i : Instr) : a.outcome i = b.outcome i := by
  have hbyte : a.byte = b.byte := by
    funext x
    rw [Isa.State.byte, Isa.State.byte, hmem]
  cases i <;> simp only [Isa.State.outcome, hget, hpc, hbyte]

/-- Nor does the address of an access. -/
theorem accessOk_congr {a b : Isa.State 18} (hget : a.get = b.get) :
    i.AccessOk a ↔ i.AccessOk b := by
  cases i <;> simp only [Instr.AccessOk, hget]

theorem fetch_congr {a b : Isa.State 18} (hpc : a.pc = b.pc) (hmem : a.mem = b.mem) :
    a.fetch = b.fetch := by
  have hbyte : a.byte = b.byte := by
    funext x
    rw [Isa.State.byte, Isa.State.byte, hmem]
  rw [Isa.State.fetch, Isa.State.fetch, hbyte, hpc]

/-! ## The base `x0` -/

/-- The addresses a 12 bit offset reaches from zero are not in RAM. -/
theorem ramSel_signExtend (imm : BitVec 12) : ramSel (imm.signExtend 32) = false := by
  rw [ramSel, beq_eq_false_iff_ne]
  intro h
  have hcases := congrArg BitVec.toNat h
  rw [Lib.toNat_extract, BitVec.toNat_signExtend] at hcases
  have himm := imm.isLt
  split at hcases <;> simp at hcases <;> omega

/-- A load or a store whose access is in RAM has another base. -/
theorem base_ne_zero (hdec : decode m w = some i) (hacc : i.AccessOk σ)
    (hop : Isa.opcode w = 0b0000011 ∨ Isa.opcode w = 0b0100011) : Isa.rs1 w ≠ 0 := by
  intro hrs
  have hzero : σ.get 0 = 0 := rfl
  rcases Isa.decode_cases hdec with ⟨h, -⟩ | ⟨h, -⟩ | ⟨h, -⟩ | ⟨h, -⟩ | ⟨h, -⟩ | ⟨-, op, -, rfl⟩ |
    ⟨-, op, -, rfl⟩ | ⟨h, -⟩ | ⟨h, -⟩ | ⟨h, -⟩ | ⟨h, -⟩
  case inr.inr.inr.inr.inr.inl =>
    have hram := hacc.1
    rw [hrs, hzero, zero_add, Isa.immI, ramSel_signExtend] at hram
    cases hram
  case inr.inr.inr.inr.inr.inr.inl =>
    have hram := hacc.1
    rw [hrs, hzero, zero_add, Isa.immS, ramSel_signExtend] at hram
    cases hram
  all_goals
    rw [h] at hop
    exact absurd hop (by decide)

theorem setWidth_opcode (w : Word) : (opcode w).setWidth 7 = Isa.opcode w := by
  rw [opcode_eq, BitVec.setWidth_setWidth_of_le _ (by decide), BitVec.setWidth_eq]

/-- So clearing the cell before the operands are read changes none of the sources. -/
theorem action_clear (hdec : decode m w = some i) (hacc : i.AccessOk σ) (pc : Word) :
    action w pc (s.operands w) = action w pc ((s.setReg 0 0).operands w) := by
  have htwice : (s.setReg 0 0).setReg 0 0 = s.setReg 0 0 := setReg_zero rfl
  have hx : ((s.setReg 0 0).operands w).x = (s.operands w).x := by
    rw [Base.operands, Base.operands]
    exact congrFun (congrArg (fun u : Sim.State => u.r) htwice) _
  have hy : ((s.setReg 0 0).operands w).y = (s.operands w).y := by
    rw [Base.operands, Base.operands]
    exact congrFun (congrArg (fun u : Sim.State => u.r) htwice) _
  have hjump : ((s.setReg 0 0).operands w).jump = (s.operands w).jump := by
    rw [Base.operands, Base.operands]
    exact congrFun (congrArg (fun u : Sim.State => (u.setReg (index (rd w)) s.pcNext).r) htwice) _
  apply action_congr
  rw [sources, sources, hx, hy, hjump]
  by_cases hop : opcode w = 0x3 ∨ opcode w = 0x23
  · have hrs : index (rs1 w) ≠ 0 := by
      rw [index_rs1]
      refine base_ne_zero hdec hacc ?_
      rw [← setWidth_opcode]
      exact hop.imp (congrArg (BitVec.setWidth 7)) (congrArg (BitVec.setWidth 7))
    have hbase : ((s.setReg 0 0).operands w).base = (s.operands w).base := if_neg hrs
    rw [hbase]
  · rw [not_or] at hop
    simp only [hop.1, hop.2, if_false]

theorem execute_clear (hdec : decode m w = some i) (hacc : i.AccessOk σ) :
    s.execute w = (s.setReg 0 0).execute w := by
  have htwice : (s.setReg 0 0).setReg 0 0 = s.setReg 0 0 := setReg_zero rfl
  rw [Sim.State.execute, Sim.State.execute, htwice, action_clear hdec hacc]
  rfl

/-! ## Runs that nothing interrupts -/

/-- No interrupt is enabled or about to be, and no exception is raised. -/
structure NoTrap (s : Sim.State) : Prop where
  status : s.status = 0
  statusDly : ∀ k, s.statusDly k = 0
  exception : s.exception = 0

theorem NoTrap.not_pending (h : NoTrap s) : ¬ s.pending := by
  rintro (⟨hstatus, -⟩ | hexc)
  · exact hstatus h.status
  · exact hexc h.exception

theorem NoTrap.drivePin (h : NoTrap s) : NoTrap s.drivePin := ⟨h.status, h.statusDly, h.exception⟩

theorem NoTrap.setReg (h : NoTrap s) (k : BitVec 5) (v : Word) : NoTrap (s.setReg k v) :=
  ⟨h.status, h.statusDly, h.exception⟩

/-- The delay line hands on zeros. -/
theorem NoTrap.advance (h : NoTrap s) : NoTrap s.advance where
  status := h.statusDly 0
  statusDly k := by
    show (if k = 3 then s.statusDly 3 else s.statusDly (k + 1)) = 0
    rw [h.statusDly, h.statusDly, ite_self]
  exception := h.exception

theorem memRead_noTrap {size : Size} {a : Word} {p : Word × Sim.State} (h : NoTrap s)
    (hread : s.memRead size a = .ok p) : NoTrap p.2 := by
  have hgetchar : NoTrap { s with toBase := s.getchar.2 } := by
    rw [Base.getchar]
    split <;> exact ⟨h.status, h.statusDly, h.exception⟩
  rw [Sim.State.memRead] at hread
  split at hread
  · cases hread
    exact hgetchar
  split at hread
  · cases hread
    exact h
  split at hread
  · cases hread
    exact h
  split at hread
  · cases hread
  · cases hread
    exact h

/-- A legal instruction with an access in RAM writes none of the registers that interrupt. -/
theorem NoTrap.execute (h : NoTrap s) (h₀ : s.r 0 = 0) (hdec : decode m w = some i)
    (hacc : i.AccessOk s.toIsa) (hexec : s.execute w = .ok t) : NoTrap t := by
  have hkeep : ∀ {u : Sim.State}, u.status = s.status → u.statusDly = s.statusDly →
      u.exception = s.exception → NoTrap u := fun h₁ h₂ h₃ =>
    ⟨h₁.trans h.status, fun k => (congrFun h₂ k).trans (h.statusDly k), h₃.trans h.exception⟩
  rw [Sim.State.execute, setReg_zero h₀, action_of_decode hdec, operands_eq h₀] at hexec
  rcases Isa.decode_cases hdec with ⟨-, rfl⟩ | ⟨-, rfl⟩ | ⟨-, rfl⟩ | ⟨-, rfl⟩ | ⟨-, op, -, rfl⟩ |
    ⟨-, op, -, rfl⟩ | ⟨-, op, -, rfl⟩ | ⟨-, op, -, rfl⟩ | ⟨-, op, -, rfl⟩ | ⟨-, -, op, -, rfl⟩ |
    ⟨-, rfl⟩
  case inr.inr.inr.inr.inl =>
    cases hexec
    dsimp only
    split
    · exact hkeep rfl rfl rfl
    · exact h
  case inr.inr.inr.inr.inr.inl =>
    cases hread : s.memRead (loadSize op) (s.toIsa.get (Isa.rs1 w) + Isa.immI w) with
    | error e =>
      simp only [instrAction, Sim.State.perform, hread, bind, Except.bind] at hexec
      cases hexec
    | ok p =>
      simp only [instrAction, Sim.State.perform, hread, bind, Except.bind] at hexec
      cases hexec
      exact (memRead_noTrap h hread).setReg _ _
  case inr.inr.inr.inr.inr.inr.inl =>
    have hal : Isa.Aligned (storeSize op).bytes (s.toIsa.get (Isa.rs1 w) + Isa.immS w) := by
      cases op <;> exact hacc.2
    simp only [instrAction, Sim.State.perform, memWrite_of_ramSel hacc.1 hal] at hexec
    cases hexec
    rw [poke_eq]
    exact hkeep rfl rfl rfl
  all_goals
    cases hexec
    try exact hkeep rfl rfl rfl

/-! ## One step -/

/-- The simulator is in a state of the instruction set: the same registers but for the cell of
`x0`, no jump in flight, nothing that interrupts. -/
structure Mirrors (s : Sim.State) (σ : Isa.State 18) : Prop where
  get : s.toIsa.get = σ.get
  pc : s.pc = σ.pc
  mem : s.mem = σ.mem
  pcNext : s.pcNext = s.pc + 4
  quiet : NoTrap s

/-- The instructions that the simulator performs: `FENCE` has no row, and a `JALR` onto its own base
finds the link there. -/
structure Performed (m : Bool) (σ : Isa.State 18) : Prop where
  fence : decode m σ.fetch ≠ some .fence
  link : ∀ rd imm, decode m σ.fetch = some (.jalr rd rd imm) →
    (σ.pc + 4 + imm) &&& ~~~1#32 = (σ.get rd + imm) &&& ~~~1#32

/-- The registers after an instruction are those that the cells hold. -/
theorem get_apply {a : Isa.State 18} (hget : a.get = σ.get) (o : Isa.Outcome) {u : Isa.State 18}
    (hu : u.regs = cells a o) : u.get = (σ.apply o).get := by
  funext k
  rw [Isa.State.get, Isa.State.get]
  split_ifs with hk
  · rfl
  · have hregs : a.regs k = σ.regs k := by
      have hgetk := congrFun hget k
      rwa [Isa.State.get, Isa.State.get, if_neg hk, if_neg hk] at hgetk
    rw [hu]
    obtain ⟨write, pc, bytes⟩ := o
    cases write with
    | none => exact hregs
    | some p =>
      show (if k = p.1 then p.2 else a.regs k) = (if p.1 ≠ 0 ∧ k = p.1 then p.2 else σ.regs k)
      by_cases hkp : k = p.1
      · rw [if_pos hkp, if_pos ⟨hkp ▸ hk, hkp⟩]
      · rw [if_neg hkp, if_neg fun hc => hkp hc.2, hregs]

/-- Clearing the cell does not change what the registers read as. -/
theorem get_setReg_zero (s : Sim.State) : (s.setReg 0 0).toIsa.get = s.toIsa.get := by
  funext k
  rw [Isa.State.get, Isa.State.get]
  split_ifs with hk
  · rfl
  · exact if_neg hk

theorem Mirrors.drivePin (h : Mirrors s σ) : Mirrors s.drivePin σ :=
  ⟨h.get, h.pc, h.mem, h.pcNext, h.quiet.drivePin⟩

/-- Where the simulator goes on depends on nothing else either. -/
theorem landing_congr {a b : Isa.State 18} (hget : a.get = b.get) (hpc : a.pc = b.pc)
    (hmem : a.mem = b.mem) (i : Instr) : landing a i = landing b i := by
  cases i with
  | jalr rd rs1 imm => simp only [landing, hget, hpc]
  | _ => exact congrArg Isa.Outcome.pc (outcome_congr hget hpc hmem _)

/-- The word that a mirrored state fetches. -/
theorem Mirrors.fetch (h : Mirrors s σ) (hal : Isa.Aligned 4 σ.pc) :
    s.memFetch s.pc = .ok σ.fetch := by
  rw [← fetch_congr (a := s.toIsa) h.pc h.mem]
  exact fetch_of_aligned (b := s.toBase) (h.pc ▸ hal)

/-- A turn performs every legal instruction but `FENCE`, up to where it goes on. -/
theorem Mirrors.turn (h : Mirrors s σ) (hok : σ.Ok m) (hdec : decode m σ.fetch = some i)
    (hfence : i ≠ .fence) :
    ∃ t, s.turn = .ok t ∧ Mirrors t { σ.step m with pc := landing σ i } := by
  obtain ⟨j, hj, hacc, -⟩ := hok.legal
  obtain rfl : j = i := Option.some.inj (hj.symm.trans hdec)
  have hd := h.drivePin
  have hfetch := hd.fetch hok.aligned
  have hget : (s.drivePin.setReg 0 0).toIsa.get = σ.get := (get_setReg_zero _).trans hd.get
  have hacc' : j.AccessOk (s.drivePin.setReg 0 0).toIsa := (accessOk_congr hget).mpr hacc
  -- the operands are read as if `r[0]` were cleared
  obtain ⟨t, hexec, ht⟩ := execute_of_decode (s := s.drivePin.setReg 0 0) rfl hd.pcNext hdec hacc'
    hfence
  have hout := outcome_congr hget hd.pc hd.mem j
  have hquiet := (hd.quiet.setReg 0 0).execute rfl hdec hacc' hexec
  refine ⟨t.advance, ?_, ?_⟩
  · rw [Sim.State.turn, cycle_eq hd.quiet.not_pending hfetch, execute_clear hdec hacc, hexec]
    rfl
  · rw [Isa.State.step_of_decode hdec]
    refine ⟨get_apply hget _ (hout ▸ ht.r), ht.pcNext.trans ?_, ?_, rfl, hquiet.advance⟩
    · exact landing_congr hget hd.pc hd.mem j
    · refine ht.mem.trans ?_
      rw [hout]
      exact congrArg (fun b => (σ.outcome j).bytes.foldl Isa.State.poke b) hd.mem

/-- A turn stays with the instruction set exactly on the instructions that are `Performed`. -/
theorem Mirrors.turn_iff (h : Mirrors s σ) (hok : σ.Ok m) :
    (∃ t, s.turn = .ok t ∧ Mirrors t (σ.step m)) ↔ Performed m σ := by
  obtain ⟨i, hdec, hacc, -⟩ := hok.legal
  by_cases hfence : i = .fence
  · subst hfence
    have hd := h.drivePin
    have hstop : s.turn = .error (.invalidOpcode s.drivePin.pc σ.fetch) := by
      rw [Sim.State.turn, cycle_eq hd.quiet.not_pending (hd.fetch hok.aligned), execute_fence hdec]
      rfl
    refine ⟨?_, fun hp => absurd hdec hp.fence⟩
    rintro ⟨t, ht, -⟩
    rw [hstop] at ht
    cases ht
  obtain ⟨t, hturn, ht⟩ := h.turn hok hdec hfence
  have hpc : (σ.step m).pc = (σ.outcome i).pc := by
    rw [Isa.State.step_of_decode hdec]
    rfl
  constructor
  · rintro ⟨t', hturn', ht'⟩
    obtain rfl : t = t' := Except.ok.inj (hturn.symm.trans hturn')
    have hland : landing σ i = (σ.outcome i).pc := ht.pc.symm.trans (ht'.pc.trans hpc)
    refine ⟨fun hf => hfence (Option.some.inj (hdec.symm.trans hf)), fun rd imm hj => ?_⟩
    exact landing_eq_iff.mp hland rd imm (Option.some.inj (hdec.symm.trans hj))
  · intro hp
    have hland : landing σ i = (σ.outcome i).pc :=
      landing_eq_iff.mpr fun rd imm hi => hp.link rd imm (hi ▸ hdec)
    refine ⟨t, hturn, ?_⟩
    rw [hland, ← hpc] at ht
    exact ht

/-! ## Whole runs -/

/-- One more instruction. -/
theorem isa_run_succ (σ : Isa.State 18) (k : ℕ) :
    Isa.run m σ (k + 1) = (Isa.run m σ k).step m := by
  rw [Isa.run, List.replicate_succ', Lib.Mealy.run_append]
  rfl

/-- From a mirrored state, on a program that stays legal, aligned and in RAM: the simulator is in
the state of the instruction set after every number of turns, without ever stopping, exactly when
the program executes no `FENCE`, and no `JALR` onto its own base that goes elsewhere by its link.
What instructions leave in `r[0]` has no effect. -/
theorem sim_refines (hstart : Mirrors s σ) (hok : ∀ k, (Isa.run m σ k).Ok m) :
    (∀ k, ∃ t, run s k = .ok t ∧ Mirrors t (Isa.run m σ k)) ↔
      ∀ k, Performed m (Isa.run m σ k) := by
  constructor
  · intro hall k
    obtain ⟨t, hrun, ht⟩ := hall k
    obtain ⟨t', hrun', ht'⟩ := hall (k + 1)
    rw [run, hrun] at hrun'
    rw [isa_run_succ] at ht'
    exact (ht.turn_iff (hok k)).mp ⟨t', hrun', ht'⟩
  · intro hperf k
    induction k with
    | zero => exact ⟨s, rfl, hstart⟩
    | succ k ih =>
      obtain ⟨t, hrun, ht⟩ := ih
      rw [run, hrun, isa_run_succ]
      exact (ht.turn_iff (hok k)).mpr (hperf k)

/-! ## A jump to itself -/

/-- A jump to itself: `jal x1, 0`. -/
def spin : Seq 18 := oneWord 0x000000ef

/-- The loop stays where it is. -/
structure Spinning (a : Isa.State 18) : Prop where
  pc : a.pc = 0x40000000
  mem : a.mem = (ofSeq spin).mem

namespace Spinning

variable {a : Isa.State 18} {m : Bool} (h : Spinning a)
include h

theorem decode_fetch : decode m a.fetch = some (.jal 1 0) := by
  rw [fetch_congr (b := ofSeq spin) h.pc h.mem]
  cases m <;> decide +kernel

theorem step : Spinning (a.step m) := by
  rw [Isa.State.step_of_decode h.decode_fetch]
  exact ⟨(BitVec.add_zero _).trans h.pc, h.mem⟩

theorem ok : a.Ok m where
  ram := by rw [h.pc]; decide
  aligned := by rw [h.pc]; decide
  legal := ⟨_, h.decode_fetch, trivial, by
    show Isa.Aligned 4 (a.pc + 0)
    rw [h.pc]
    decide⟩

theorem even : a.EvenTarget m := by
  intro rd rs1 imm hdec
  rw [h.decode_fetch] at hdec
  cases hdec

theorem performed : Performed m a where
  fence hdec := by
    rw [h.decode_fetch] at hdec
    cases hdec
  link rd imm hdec := by
    rw [h.decode_fetch] at hdec
    cases hdec

end Spinning

theorem spinning_run (m : Bool) (k : ℕ) : Spinning (Isa.run m (ofSeq spin) k) :=
  Isa.run_invariant (fun _ h => Spinning.step h) ⟨rfl, rfl⟩ k

theorem mirrors_simOf (σ : Seq 18) : Mirrors (simOf σ) (ofSeq σ) where
  get := rfl
  pc := rfl
  mem := rfl
  pcNext := rfl
  quiet := ⟨rfl, fun _ => rfl, rfl⟩

/-- The simulator never leaves the loop. -/
theorem sim_refines_spin :
    (∀ k, ∃ t, run (simOf spin) k = .ok t ∧ Mirrors t (Isa.run false (ofSeq spin) k)) ↔
      ∀ k, Performed false (Isa.run false (ofSeq spin) k) :=
  sim_refines (mirrors_simOf _) fun k => (spinning_run false k).ok

end HfRisc.Results
