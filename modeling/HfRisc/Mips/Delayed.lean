import HfRisc.Mips.Circuit
import HfRisc.Mips.Pipeline

/-!
# Programs with delay slots

The instruction set as a machine. Its state has two program counters, the second for the instruction
behind the one to be executed, which is where a branch or jump does its work.
-/

namespace HfRisc.Mips

open HfRisc.Lib
open HfRisc.Rtl (commitMem laneBytes)
open HfRisc.Isa (Aligned memOf)

/-- The effects of an instruction. -/
def Outcome.commits (o : Outcome) : List Commit :=
  (match o.write with
    | some (k, v) => [.reg k v]
    | none => []) ++
  if o.bytes = [] then [] else [.mem o.bytes]

/-- The architectural state with the program counter behind `pc`. -/
@[ext] structure Delayed (n : ℕ) extends Isa.State n where
  pcNext : Word

namespace Delayed

variable {n : ℕ} (a : Delayed n)

/-- The instruction word at the program counter, its first byte highest. -/
def fetch : Word := loadValue a.byte a.pc .lw

/-- The state after an instruction. -/
def after (o : Outcome) : Delayed n where
  regs := o.regs a.regs
  pc := a.pcNext
  mem := o.bytes.foldl Isa.State.poke a.mem
  pcNext := o.target.getD (a.pcNext + 4)

/-- Execute the instruction at the program counter as the circuit does; an unknown word does
nothing. -/
def step : Delayed n :=
  match decodeInstr a.fetch with
  | some i => a.after (circuitOutcome a.toState i)
  | none => a

/-- Its effects. -/
def effects : List Commit :=
  match decodeInstr a.fetch with
  | some i => (circuitOutcome a.toState i).commits
  | none => []

/-- The instruction at the program counter leads elsewhere. -/
def leads : Bool :=
  match decodeInstr a.fetch with
  | some i => (circuitOutcome a.toState i).target.isSome
  | none => false

/-- The instruction set as a machine. -/
def machine (n : ℕ) : Mealy (Delayed n) Unit Commit where
  step a _ := a.step
  out a _ := a.effects

/-- The state after `k` instructions. -/
def run (k : ℕ) : Delayed n := (machine n).run a (List.replicate k ())

/-- The effects of the first `k` instructions. -/
def trace (k : ℕ) : List Commit := (machine n).trace a (List.replicate k ())

/-- One more instruction. -/
theorem run_succ' (k : ℕ) : a.run (k + 1) = (a.run k).step := by
  rw [run, List.replicate_succ', Mealy.run_append]
  rfl

/-- What an instruction preserves holds along the run. -/
theorem run_invariant {Inv : Delayed n → Prop} (hstep : ∀ a, Inv a → Inv a.step) {a : Delayed n}
    (h : Inv a) (k : ℕ) : Inv (a.run k) := by
  induction k generalizing a with
  | zero => exact h
  | succ k ih => exact ih (hstep a h)

/-- The instruction is one of the core, at a multiple of four in RAM, and its data access is an
aligned RAM access. -/
structure Ok : Prop where
  ram : ramSel a.pc = true
  aligned : Aligned 4 a.pc
  legal : ∃ i, decodeInstr a.fetch = some i ∧ AccessOk a.toState i

/-- No branch or jump is at the program counter. -/
def Straight : Prop := ∀ i, decodeInstr a.fetch = some i → ¬ i.Transfers

/-- A program all of whose instructions are in order, and that has neither branch nor jump in the
delay slot of one that leads elsewhere. -/
structure WellBehaved : Prop where
  ok : ∀ k, (a.run k).Ok
  slot : ∀ k, (a.run k).leads = true → (a.run (k + 1)).Straight

variable {a}

theorem WellBehaved.step (h : a.WellBehaved) : a.step.WellBehaved where
  ok k := h.ok (k + 1)
  slot k := h.slot (k + 1)

end Delayed

/-! ## The instructions in the execute stage -/

variable {n : ℕ} {σ : Seq n} {next : Word} {a : Delayed n} {i : Instr}

/-- The control words that neither lead elsewhere nor link. -/
structure Control.Plain (c : Control) : Prop where
  jump : c.jump = 0
  branch : c.branch = 0
  link : c.brLink = false

/-- The control word of an instruction. -/
def Instr.ctl : Instr → Control
  | .shift op .. => .shiftRow true op.code
  | .shiftV op .. => .shiftRow false op.codeV
  | .reg op .. => .register op.code
  | .imm op .. => .immediate op.signed op.code
  | .jr _ => .jumpTo 0b10
  | .jalr .. => .jumpLink 0b10
  | .j _ => .jumpTo 0b01
  | .jal _ => .jumpLink 0b01
  | .branch op .. => .branchOn op.kind
  | .branchZero op .. => .branchOn op.kind
  | .branchLink op .. => .branchLink op.kind
  | .load op .. => .load op.width (signedRd op)
  | .store op .. => .store op.width

theorem ctl_of_decodes (h : Decodes σ.fetch i) : σ.ex.ctl = i.ctl := by
  rw [ctl_ex]
  cases h with
  | jr ho hf => rw [ho, hf]; rfl
  | jalr ho hf => rw [ho, hf]; rfl
  | shift ho hf => rw [ho, row_shift hf]; rfl
  | shiftV ho hf => rw [ho, row_shiftV hf]; rfl
  | reg ho hf => rw [ho, row_reg hf]; rfl
  | sign ho hf => rw [ho, row_sign hf]; rfl
  | link ho hf => rw [ho, row_link hf]; rfl
  | j ho => rw [ho]; rfl
  | jal ho => rw [ho]; rfl
  | pair ho => rw [row_pair ho]; rfl
  | zero ho => rw [row_zero ho]; rfl
  | imm ho => rw [row_imm ho]; rfl
  | load ho => rw [row_load ho]; rfl
  | store ho => rw [row_store ho]; rfl

theorem Instr.plain_ctl (hi : ¬ i.Transfers) : i.ctl.Plain := by
  cases i with
  | shift | shiftV | reg | imm | load | store => exact ⟨rfl, rfl, rfl⟩
  | jr | jalr | j | jal | branch | branchZero | branchLink => exact absurd trivial hi

/-- Without branch and jump the instruction is plain. -/
theorem plain_of_decodes (h : Decodes σ.fetch i) (hi : ¬ i.Transfers) : σ.Plain := by
  have hplain := Instr.plain_ctl hi
  rw [← ctl_of_decodes h] at hplain
  exact ⟨hplain.jump, hplain.branch, hplain.link⟩

/-- The address of a load or store is the sum of its base and its offset. -/
theorem result_of_access (hacc : σ.ex.dataAccess = true) (h : Decodes σ.fetch i) :
    σ.result = σ.toIsa.get (rs σ.fetch) + (imm σ.fetch).signExtend 32 := by
  have hctl := ctl_of_decodes h
  rw [Execute.dataAccess, hctl] at hacc
  cases h with
  | load | store =>
    exact result_access (by rw [hctl]; rfl) (by rw [hctl]; rfl) (by rw [hctl]; rfl)
      (by rw [hctl]; rfl)
  | _ => cases hacc

/-- The data address of a well-behaved instruction. -/
theorem ramSel_of_decodes (h : Decodes σ.fetch i) (hok : AccessOk σ.toIsa i)
    (hacc : σ.ex.dataAccess = true) : ramSel σ.result = true := by
  rw [result_of_access hacc h]
  rw [Execute.dataAccess, ctl_of_decodes h] at hacc
  cases h with
  | load | store => exact hok.1
  | _ => cases hacc

/-! ## The two views of an instruction -/

/-- The state of the execute stage, with the program counter behind it. -/
def ofSeq (σ : Seq n) (next : Word) : Delayed n := ⟨σ.toIsa, next⟩

theorem fetch_ofSeq (next : Word) (h : Aligned 4 σ.pc) : (ofSeq σ next).fetch = σ.fetch :=
  loadValue_word h

/-- A bus write without lanes is none. -/
theorem commitMem_eq (address : Word) (lanes : BitVec 4) (data : Word) :
    commitMem address lanes data =
      if laneBytes address lanes data = [] then [] else [.mem (laneBytes address lanes data)] := by
  have hlanes : ∀ l : BitVec 4, (l.getLsbD 3 = false ∧ l.getLsbD 2 = false ∧ l.getLsbD 1 = false ∧
      l.getLsbD 0 = false) ↔ l = 0 := by decide
  have hempty : laneBytes address lanes data = [] ↔ lanes = 0 := by
    rw [← hlanes, laneBytes]
    simp
  rw [commitMem, ite_not]
  simp only [hempty]

/-- The writes of the execute stage are those of the outcome. -/
theorem effects_eq (σ : Seq n) : σ.effects = σ.outcome.commits := by
  have hreg : (if σ.writes then commitReg σ.ex.writeReg σ.value else []) =
      match (if σ.writes then written σ.ex.writeReg σ.value else none) with
      | some (k, v) => [Commit.reg k v]
      | none => [] := by
    cases σ.writes with
    | false => rfl
    | true =>
      by_cases hk : σ.ex.writeReg = 0
      · rw [if_pos rfl, if_pos rfl, commitReg, written, if_neg (not_not.mpr hk), if_pos hk]
      · rw [if_pos rfl, if_pos rfl, commitReg, written, if_pos hk, if_neg hk]
  have hmem : (if σ.ex.ctl.regToMem then commitMem σ.result σ.lanes σ.data else []) =
      if σ.outcome.bytes = [] then [] else [.mem σ.outcome.bytes] := by
    show _ = if (if σ.ex.ctl.regToMem then laneBytes σ.result σ.lanes σ.data else []) = [] then []
      else [Commit.mem (if σ.ex.ctl.regToMem then laneBytes σ.result σ.lanes σ.data else [])]
    cases σ.ex.ctl.regToMem with
    | false => rfl
    | true => exact commitMem_eq _ _ _
  rw [Seq.effects, hreg, hmem]
  rfl

/-- One instruction in the execute stage and in the instruction set. -/
theorem behind_ofSeq (next : Word) (hal : Aligned 4 σ.pc) (hdec : decodeInstr σ.fetch = some i)
    (hok : AccessOk σ.toIsa i) :
    ofSeq (σ.behind next) (σ.following next) = (ofSeq σ next).step ∧
      σ.effects = (ofSeq σ next).effects ∧
      ((ofSeq σ next).leads = σ.outcome.target.isSome) := by
  have hout := outcome_of_decodes (decodes_of_decodeInstr hdec) hok
  have hfetch := fetch_ofSeq next hal
  refine ⟨?_, ?_, ?_⟩
  · rw [Delayed.step, hfetch, hdec]
    show _ = Delayed.after _ (circuitOutcome σ.toIsa i)
    rw [← hout]
    have hregs := σ.nextRegs_eq
    have hmem := σ.nextRam_eq
    simp only [ofSeq, Seq.toIsa, Seq.behind, Seq.following, Delayed.after, hregs, hmem]
  · rw [effects_eq, hout, Delayed.effects, hfetch, hdec]
    rfl
  · rw [Delayed.leads, hfetch, hdec, hout]
    rfl

end HfRisc.Mips
