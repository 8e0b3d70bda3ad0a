import HfRisc.Sim.Spec

/-!
# The simulator executes RV32I

One `cycle` of the simulator against one step of the instruction set. Three things
keep them apart: `FENCE` has no row, `JALR` reads `r[rs1]` after it has written
`r[rd]`, and `r[0]` keeps what is written to it until the next instruction has read
its operands.
-/

namespace HfRisc.Results

open HfRisc.Sim
open HfRisc.Isa (Instr)

/-! ## Programs -/

/-- Byte `k` of a program. -/
def imageByte (ws : List Word) (k : ℕ) : BitVec 8 := (ws.getD (k / 4) 0).extractLsb' (8 * (k % 4)) 8

/-- The simulator at the start of a program. -/
def loaded (ws : List Word) : Sim.State := start (fun k => imageByte ws k.toNat) [] false

/-! ## One step -/

/-- When the simulator performs the step of the instruction set. -/
structure StepAgrees (σ : Isa.State 18) (i : Instr) : Prop where
  fence : i ≠ .fence
  jalr : ∀ rd imm, i = .jalr rd rd imm →
    (σ.pc + 4 + imm) &&& ~~~1#32 = (σ.get rd + imm) &&& ~~~1#32
  zero : ∀ v, (σ.outcome i).write = some (0, v) → v = 0

/-- The two landing places are one exactly when a `JALR` onto its own base finds
the link there. -/
theorem landing_eq_iff {σ : Isa.State 18} {i : Instr} :
    landing σ i = (σ.outcome i).pc ↔ ∀ rd imm, i = .jalr rd rd imm →
      (σ.pc + 4 + imm) &&& ~~~1#32 = (σ.get rd + imm) &&& ~~~1#32 := by
  cases i with
  | jalr rd rs1 imm =>
    show ((if rs1 = rd then σ.pc + 4 else σ.get rs1) + imm) &&& ~~~1#32 =
      (σ.get rs1 + imm) &&& ~~~1#32 ↔ _
    by_cases h : rs1 = rd
    · subst h
      rw [if_pos rfl]
      refine ⟨fun heq rd imm hi => ?_, fun hall => hall rs1 imm rfl⟩
      cases hi
      exact heq
    · rw [if_neg h]
      refine ⟨fun _ rd imm hi => ?_, fun _ => rfl⟩
      cases hi
      exact absurd rfl h
  | _ => exact ⟨fun _ _ _ hi => (nomatch hi), fun _ => rfl⟩

/-- The cells are the registers exactly when `x0` is written with zero. -/
theorem cells_eq_iff {σ : Isa.State 18} (h₀ : σ.regs 0 = 0) {o : Isa.Outcome} :
    cells σ o = (σ.apply o).regs ↔ ∀ v, o.write = some (0, v) → v = 0 := by
  obtain ⟨write, pc, bytes⟩ := o
  cases write with
  | none => exact ⟨fun _ v hv => (nomatch hv), fun _ => rfl⟩
  | some p =>
    obtain ⟨rd, v⟩ := p
    show (fun k => if k = rd then v else σ.regs k) =
      (fun k => if rd ≠ 0 ∧ k = rd then v else σ.regs k) ↔ _
    constructor
    · intro heq u hu
      cases hu
      have h := congrFun heq 0
      rw [if_pos rfl, if_neg (fun hc => hc.1 rfl), h₀] at h
      exact h
    · intro hzero
      funext k
      by_cases hrd : rd = 0
      · subst hrd
        rw [hzero v rfl, if_neg (fun hc : (0 : BitVec 5) ≠ 0 ∧ k = 0 => hc.1 rfl)]
        split_ifs with hk
        · rw [hk, h₀]
        · rfl
      · simp only [ne_eq, hrd, not_false_eq_true, true_and]

/-- `FENCE` is not in the switch. -/
theorem execute_fence {s : Sim.State} {w : Word} {m : Bool} (hdec : Isa.decode m w = some .fence) :
    s.execute w = .error (.invalidOpcode s.pc w) := by
  rw [Sim.State.execute, action_of_decode hdec]
  rfl

/-- Without a pending interrupt `cycle` executes the word at the program counter. -/
theorem cycle_eq {s : Sim.State} {w : Word} (hpend : ¬ s.pending)
    (hfetch : s.memFetch s.pc = .ok w) : s.cycle = (s.execute w).map Sim.State.advance := by
  rw [Sim.State.cycle, Sim.State.takeInterrupt, if_neg hpend]
  show (s.memFetch s.pc >>= fun inst => s.execute inst >>= fun s' => .ok s'.advance) = _
  rw [hfetch]
  show (s.execute w >>= fun s' => .ok s'.advance) = _
  cases s.execute w <;> rfl

/-- From a state with `r[0] = 0` and no jump in flight, a cycle of the simulator is
the step of the instruction set exactly for the instructions of `StepAgrees`. -/
theorem sim_step {s : Sim.State} {w : Word} {i : Instr} (h₀ : s.r 0 = 0)
    (hnext : s.pcNext = s.pc + 4) (hpend : ¬ s.pending) (hfetch : s.memFetch s.pc = .ok w)
    (hdec : Isa.decode false w = some i) (hacc : i.AccessOk s.toIsa) :
    (∃ s', s.cycle = .ok s' ∧ s'.toIsa = s.toIsa.step false ∧ s'.pcNext = s'.pc + 4) ↔
      StepAgrees s.toIsa i := by
  have hw : s.toIsa.fetch = w := fetch_toIsa hfetch
  rw [Isa.State.step_of_decode (by rw [hw, hdec]), cycle_eq hpend hfetch]
  by_cases hfence : i = .fence
  · subst hfence
    rw [execute_fence hdec]
    exact ⟨fun ⟨s', h, _⟩ => (nomatch h), fun h => absurd rfl h.fence⟩
  obtain ⟨t, hexec, ht⟩ := execute_of_decode h₀ hnext hdec hacc hfence
  have hadv : t.advance.toIsa = ⟨cells s.toIsa (s.toIsa.outcome i), landing s.toIsa i,
      (s.toIsa.outcome i).bytes.foldl Isa.State.poke s.mem⟩ := by
    show (⟨t.r, t.pcNext, t.mem⟩ : Isa.State 18) = _
    rw [ht.r, ht.pcNext, ht.mem]
    rfl
  rw [hexec]
  constructor
  · rintro ⟨s', h, hisa, -⟩
    cases h
    rw [hadv] at hisa
    exact ⟨hfence, landing_eq_iff.mp (congrArg Isa.State.pc hisa),
      (cells_eq_iff h₀).mp (congrArg Isa.State.regs hisa)⟩
  · intro hagree
    refine ⟨t.advance, rfl, ?_, rfl⟩
    rw [hadv, (cells_eq_iff h₀).mpr hagree.zero, landing_eq_iff.mpr hagree.jalr]
    rfl

/-! ## Two programs -/

/-- `addi x1, x2, 5`. -/
theorem sim_step_addi :
    ∃ s', (loaded [0x00510093]).cycle = .ok s' ∧
      s'.toIsa = (loaded [0x00510093]).toIsa.step false ∧ s'.pcNext = s'.pc + 4 :=
  (sim_step (w := 0x00510093) (i := .opImm .add 1 2 5) rfl rfl (by decide) (by decide +kernel)
    (by decide +kernel) trivial).mpr
    ⟨nofun, nofun, fun v hv => by cases hv⟩

/-- `jalr x2, 0(x2)` goes on behind itself instead of at the address in `x2`. -/
theorem sim_step_jalr :
    (loaded [0x00010167]).r 0 = 0 ∧ (loaded [0x00010167]).pcNext = (loaded [0x00010167]).pc + 4 ∧
    ¬ (loaded [0x00010167]).pending ∧
    (loaded [0x00010167]).memFetch (loaded [0x00010167]).pc = .ok 0x00010167 ∧
    Isa.decode false 0x00010167 = some (.jalr 2 2 0) ∧
    ¬ ∃ s', (loaded [0x00010167]).cycle = .ok s' ∧
      s'.toIsa = (loaded [0x00010167]).toIsa.step false ∧ s'.pcNext = s'.pc + 4 := by
  refine ⟨rfl, rfl, by decide, by decide +kernel, by decide +kernel, ?_⟩
  rintro ⟨s', hs', hisa, -⟩
  have hsim : (loaded [0x00010167]).cycle.map (fun s => s.pc) = .ok 0x40000004 := by
    decide +kernel
  have hspec : ((loaded [0x00010167]).toIsa.step false).pc = 0x000ffffc := by decide +kernel
  rw [hs'] at hsim
  have hpc : s'.pc = 0x40000004 := Except.ok.inj hsim
  have hpc' : s'.pc = 0x000ffffc := (congrArg Isa.State.pc hisa).trans hspec
  rw [hpc] at hpc'
  exact absurd hpc' (by decide)

end HfRisc.Results
