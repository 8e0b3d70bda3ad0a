import HfRisc.Results.SimStep
import HfRisc.Sim.Frame

/-!
# Register 0 of the simulator

`r[0]` is a cell like the others: what an instruction with `rd = 0` writes stays
there until the next one clears it, after it has computed its load and store
addresses. `sources` are the source operands of an instruction with what it finds
in them, and the theorem says exactly which of them see a value in `x0`.
-/

namespace HfRisc.Results

open HfRisc.Sim

/-! ## Source operands -/

/-- The source operands of an instruction: the register and the value it sees. -/
def sources (w : Word) (o : Operands) : List (BitVec 5 × Word) :=
  if opcode w = 0x67 then [(index (rs1 w), o.jump)]
  else if opcode w = 0x63 then [(index (rs1 w), o.x), (index (rs2 w), o.y)]
  else if opcode w = 0x3 then [(index (rs1 w), o.base)]
  else if opcode w = 0x23 then [(index (rs1 w), o.base), (index (rs2 w), o.y)]
  else if opcode w = 0x13 then [(index (rs1 w), o.x)]
  else if opcode w = 0x33 then [(index (rs1 w), o.x), (index (rs2 w), o.y)]
  else []

/-- Nothing else is read: the sources decide what the instruction does. -/
theorem action_congr {w pc : Word} {o o' : Operands} (h : sources w o = sources w o') :
    action w pc o = action w pc o' := by
  by_cases hj : opcode w = 0x67
  · have hb : o.jump = o'.jump := by simpa [sources, hj] using h
    simp [action, hj, hb]
  by_cases hbr : opcode w = 0x63
  · obtain ⟨hx, hy⟩ : o.x = o'.x ∧ o.y = o'.y := by simpa [sources, hbr] using h
    simp [action, hbr, actionBranch, hx, hy]
  by_cases hl : opcode w = 0x3
  · have hb : o.base = o'.base := by simpa [sources, hl] using h
    simp [action, hl, hb]
  by_cases hs : opcode w = 0x23
  · obtain ⟨hb, hy⟩ : o.base = o'.base ∧ o.y = o'.y := by simpa [sources, hs] using h
    simp [action, hs, actionStore, hb, hy]
  by_cases hi : opcode w = 0x13
  · have hx : o.x = o'.x := by simpa [sources, hi] using h
    simp [action, hi, actionOpImm, hx]
  by_cases hop : opcode w = 0x33
  · obtain ⟨hx, hy⟩ : o.x = o'.x ∧ o.y = o'.y := by simpa [sources, hop] using h
    simp [action, hop, actionOp, actionMulDiv, hx, hy]
  · simp only [action, hj, hbr, hl, hs, hi, hop, if_false]

/-- Every use of `x0` sees zero. -/
def ZeroReads (w : Word) (o : Operands) : Prop := ∀ p ∈ sources w o, p.1 = 0 → p.2 = 0

/-- A load or a store with base `x0`. -/
def usesZeroBase (w : Word) : Prop := (opcode w = 0x3 ∨ opcode w = 0x23) ∧ index (rs1 w) = 0

/-- `jalr x0, imm(x0)`. -/
def jumpsThroughZero (w : Word) : Prop :=
  opcode w = 0x67 ∧ index (rs1 w) = 0 ∧ index (rd w) = 0

/-- After `r[0] = 0` and before a write the cell is zero, so only addresses and the
`JALR` row can see something else. -/
theorem zeroReads_iff {s : Base} {w : Word} :
    ZeroReads w (s.operands w) ↔
      (usesZeroBase w → s.r 0 = 0) ∧ (jumpsThroughZero w → s.pcNext = 0) := by
  have hx : Isa.rs1 w = 0 → (s.operands w).x = 0 := fun h => by
    rw [Base.operands, index_rs1, h]
    rfl
  have hy : Isa.rs2 w = 0 → (s.operands w).y = 0 := fun h => by
    rw [Base.operands, index_rs2, h]
    rfl
  have hbase : Isa.rs1 w = 0 → (s.operands w).base = s.r 0 := fun h => by
    rw [Base.operands, index_rs1, h]
  have hjump : Isa.rs1 w = 0 →
      (s.operands w).jump = if Isa.rd w = 0 then s.pcNext else 0 := fun h => by
    rw [Base.operands, index_rs1, index_rd, h]
    show (if 0 = Isa.rd w then s.pcNext else 0) = _
    simp only [eq_comm]
  unfold ZeroReads usesZeroBase jumpsThroughZero
  by_cases hj : opcode w = 0x67
  · simp [sources, hj]
    constructor
    · intro h h₁ hrd
      exact (if_pos hrd).symm.trans ((hjump h₁).symm.trans (h h₁))
    · intro h h₁
      rw [hjump h₁]
      split_ifs with hrd
      · exact h h₁ hrd
      · rfl
  by_cases hl : opcode w = 0x3
  · simp [sources, hl]
    exact ⟨fun h h₁ => (hbase h₁).symm.trans (h h₁), fun h h₁ => (hbase h₁).trans (h h₁)⟩
  by_cases hs : opcode w = 0x23
  · simp [sources, hs]
    exact ⟨fun h h₁ => (hbase h₁).symm.trans (h.1 h₁),
      fun h => ⟨fun h₁ => (hbase h₁).trans (h h₁), hy⟩⟩
  -- the other rows read `r[rs1]` and `r[rs2]` after the clearing
  simp only [sources, hj, hl, hs, if_false, or_self, false_and, false_implies, and_self, iff_true]
  split_ifs <;> simp <;> simp_all

/-! ## What an instruction leaves in `r[0]` -/

section Cell

variable {s t : State} {w : Word}

/-- The value an instruction assigns to `r[rd]`, zero where it assigns none. -/
def written (s : State) (w : Word) : Word :=
  match action w s.pc (s.operands w) with
  | .write v => v
  | .link _ => s.pcNext
  | .load type size address =>
    match (s.setReg 0 0).memRead size address with
    | .ok p => type.cast p.1
    | .error _ => 0
  | _ => 0

theorem setReg_r_zero {k : BitVec 5} {v : Word} (h : s.r 0 = 0) :
    (s.setReg k v).r 0 = if k = 0 then v else 0 := by
  show (if 0 = k then v else s.r 0) = _
  rw [h]
  simp only [eq_comm]

theorem system_r (h : s.system w = .ok t) : t.r = s.r := by
  rw [State.system] at h
  split at h
  · split at h
    · cases h
      rfl
    split at h
    · cases h
      exact Base.getchar_r
    · cases h
  · cases h
    rfl

/-- `r[0]` after an instruction: what it assigned there, or the zero it found. -/
theorem execute_r_zero (h : s.execute w = .ok t) :
    t.r 0 = if Isa.rd w = 0 then written s w else 0 := by
  have h₀ : (s.setReg 0 0).r 0 = 0 := rfl
  unfold written
  rw [State.execute] at h
  cases ha : action w s.pc (s.operands w) with
  | write v =>
    rw [ha] at h
    cases h
    rw [setReg_r_zero h₀, index_rd]
  | link target =>
    rw [ha] at h
    cases h
    show ((s.setReg 0 0).setReg (index (rd w)) s.pcNext).r 0 = _
    rw [setReg_r_zero h₀, index_rd]
  | branch taken target =>
    rw [ha] at h
    cases h
    rw [ite_self]
    cases taken <;> rfl
  | load type size address =>
    rw [ha] at h
    cases hread : (s.setReg 0 0).memRead size address with
    | error e =>
      simp only [State.perform, hread, bind, Except.bind] at h
      cases h
    | ok p =>
      have hr : p.2.r 0 = 0 := by rw [State.memRead_r hread, h₀]
      simp only [State.perform, hread, bind, Except.bind, Except.ok.injEq] at h ⊢
      rw [← h, setReg_r_zero hr, index_rd]
  | store size address v =>
    rw [ha] at h
    rw [State.memWrite_r h, h₀, ite_self]
  | system =>
    rw [ha] at h
    rw [system_r h, h₀, ite_self]
  | fail =>
    rw [ha] at h
    cases h
  | undefined =>
    rw [ha] at h
    cases h

end Cell

/-! ## Runs -/

/-- The state in which a turn of the main loop fetches its instruction. -/
def ready (s : State) : State := s.drivePin.takeInterrupt

theorem ready_r (s : State) : (ready s).r = s.r := by
  rw [ready, State.takeInterrupt]
  split <;> rfl

/-- What a turn of the main loop does. -/
theorem turn_cases {s t : State} (h : s.turn = .ok t) :
    ∃ w u, (ready s).memFetch (ready s).pc = .ok w ∧ (ready s).execute w = .ok u ∧
      t = u.advance := by
  replace h : ((ready s).memFetch (ready s).pc >>= fun w =>
    (ready s).execute w >>= fun u => .ok u.advance) = .ok t := h
  cases hw : (ready s).memFetch (ready s).pc with
  | error e => rw [hw] at h; cases h
  | ok w =>
    rw [hw] at h
    replace h : ((ready s).execute w >>= fun u => .ok u.advance) = .ok t := h
    cases hu : (ready s).execute w with
    | error e => rw [hu] at h; cases h
    | ok u =>
      rw [hu] at h
      cases h
      exact ⟨w, u, rfl, hu, rfl⟩

/-- What the instruction of a turn assigns to `r[0]`. -/
def clobber (s : State) : Word :=
  match (ready s).memFetch (ready s).pc with
  | .ok w => if Isa.rd w = 0 then written (ready s) w else 0
  | .error _ => 0

/-- What the instruction before turn `k` assigned to `r[0]`; nothing before the first. -/
def leftover (s : State) : ℕ → Word
  | 0 => 0
  | k + 1 =>
    match run s k with
    | .ok t => clobber t
    | .error _ => 0

/-- In every reached state `r[0]` holds what the instruction before assigned to it. -/
theorem run_r_zero {s t : State} (h₀ : s.r 0 = 0) {k : ℕ} (hrun : run s k = .ok t) :
    t.r 0 = leftover s k := by
  cases k with
  | zero =>
    cases hrun
    exact h₀
  | succ k =>
    rw [leftover]
    cases hk : run s k with
    | error e =>
      rw [run, hk] at hrun
      cases hrun
    | ok u =>
      rw [run, hk] at hrun
      obtain ⟨w, v, hw, hv, rfl⟩ := turn_cases hrun
      have hr : v.advance.r 0 = v.r 0 := rfl
      simp only [clobber, hw]
      rw [hr, execute_r_zero hv]

/-- In every run, every use of `x0` by the instruction of turn `k` sees zero exactly
when it is no load or store with base `x0` behind an instruction that assigned
something else to `r[0]`, and no `JALR` through `x0` that links into `x0`. -/
theorem sim_zero_reads {mem : BitVec 20 → BitVec 8} {stdin : List (BitVec 8)} {log : Bool}
    {k : ℕ} {s : State} (hrun : run (start mem stdin log) k = .ok s) :
    ∀ w, (ready s).memFetch (ready s).pc = .ok w →
      (ZeroReads w ((ready s).operands w) ↔
        (usesZeroBase w → leftover (start mem stdin log) k = 0) ∧
        (jumpsThroughZero w → (ready s).pcNext = 0)) := by
  intro w _
  have hr : (ready s).r 0 = leftover (start mem stdin log) k := by
    rw [ready_r, run_r_zero rfl hrun]
  rw [zeroReads_iff, hr]

/-! ## A jump in front of an addition and of a load -/

/-- `jal x0, 4`, `addi x1, x0, 8`. -/
def jumpThenAdd : List Word := [0x0040006f, 0x00800093]

/-- The addition behind the jump adds to zero, though the cell holds the link when the turn
begins. -/
theorem sim_zero_reads_add :
    ∃ s, run (loaded jumpThenAdd) 1 = .ok s ∧
      (ready s).memFetch (ready s).pc = .ok 0x00800093 ∧ (ready s).r 0 = 0x40000004 ∧
      sources 0x00800093 ((ready s).operands 0x00800093) = [(0, 0)] ∧
      ZeroReads 0x00800093 ((ready s).operands 0x00800093) := by
  have hrun : (run (loaded jumpThenAdd) 1).map (fun s => ((ready s).memFetch (ready s).pc,
      (ready s).r 0, sources 0x00800093 ((ready s).operands 0x00800093))) =
      .ok (.ok 0x00800093, 0x40000004, [(0, 0)]) := by
    decide +kernel
  cases h : run (loaded jumpThenAdd) 1 with
  | error e =>
    rw [h] at hrun
    cases hrun
  | ok s =>
    rw [h] at hrun
    obtain ⟨hfetch, hrest⟩ := Prod.mk.inj (Except.ok.inj hrun)
    obtain ⟨hcell, hsources⟩ := Prod.mk.inj hrest
    refine ⟨s, rfl, hfetch, hcell, hsources, (sim_zero_reads h _ hfetch).mpr ⟨?_, ?_⟩⟩
    · exact fun huse => absurd huse.1 (by decide)
    · exact fun hjump => absurd hjump.1 (by decide)

/-- `jal x0, 4`, `lw x1, 8(x0)`. -/
def jumpThenLoad : List Word := [0x0040006f, 0x00802083]

/-- The load behind it finds the link in `x0`. -/
theorem sim_zero_stale :
    ∃ s, run (loaded jumpThenLoad) 1 = .ok s ∧
      (ready s).memFetch (ready s).pc = .ok 0x00802083 ∧
      sources 0x00802083 ((ready s).operands 0x00802083) = [(0, 0x40000004)] ∧
      ¬ ZeroReads 0x00802083 ((ready s).operands 0x00802083) := by
  have hrun : (run (loaded jumpThenLoad) 1).map (fun s => ((ready s).memFetch (ready s).pc,
      sources 0x00802083 ((ready s).operands 0x00802083))) =
      .ok (.ok 0x00802083, [(0, 0x40000004)]) := by
    decide +kernel
  cases h : run (loaded jumpThenLoad) 1 with
  | error e =>
    rw [h] at hrun
    cases hrun
  | ok s =>
    rw [h] at hrun
    have hs := Except.ok.inj hrun
    have hsrc : sources 0x00802083 ((ready s).operands 0x00802083) = [(0, 0x40000004)] :=
      congrArg Prod.snd hs
    refine ⟨s, rfl, congrArg Prod.fst hs, hsrc, fun hz => ?_⟩
    exact absurd (hz (0, 0x40000004) (by rw [hsrc]; simp) rfl) (by decide)

end HfRisc.Results
