import HfRisc.Isa.Memory
import HfRisc.Mips.Datapath
import HfRisc.Mips.Spec

/-!
# One instruction in the MIPS datapath

`Seq` is the architectural state, and `outcome` what the execute stage does with
the instruction at its program counter: the port of the register bank, `pc_next`
and the byte lanes of the bus. The clocked datapath does the same with the instruction
in the stage, in one cycle, or in two for a load or store, the first of which has the
bus (`Mips.Pipeline`).
-/

namespace HfRisc.Mips

open HfRisc.Rtl (readReg laneBytes writeRam wordIndex DatapathIn)
open HfRisc.Isa (memOf)

/-- The architectural state. -/
@[ext] structure Seq (n : ℕ) where
  regs : BitVec 5 → Word
  pc : Word
  ram : BitVec n → Word

namespace Seq

variable {n : ℕ} (σ : Seq n)

/-- The same state with its RAM read as bytes. -/
def toIsa : Isa.State n where
  regs := σ.regs
  pc := σ.pc
  mem := memOf σ.ram

/-- The instruction word at the program counter. -/
def fetch : Word := σ.ram (wordIndex n σ.pc)

/-- The decoded instruction. -/
def ex : Execute := decode σ.fetch

/-- `result`: for a load or store the data address. -/
def result : Word := (σ.ex.aluOut σ.regs).result

/-- The bus word at the data address. -/
def loadWord : Word := σ.ram (wordIndex n σ.result)

/-- Whether the instruction writes its register. -/
def writes : Bool := σ.ex.ctl.regWrite || σ.ex.ctl.memToReg

/-- `write_data`; in the execute stage `pc` is two words ahead. -/
def value : Word := σ.ex.writeData σ.result σ.loadWord (σ.pc + 8)

/-- `data_w` and `data_out`. -/
def lanes : BitVec 4 := σ.ex.dataW σ.result

@[inherit_doc lanes]
def data : Word := σ.ex.dataOut (readReg σ.regs σ.ex.readReg2)

/-- What the instruction does. -/
def outcome : Outcome where
  write := if σ.writes then written σ.ex.writeReg σ.value else none
  target := σ.ex.redirect σ.regs (σ.pc + 4)
  bytes := if σ.ex.ctl.regToMem then laneBytes σ.result σ.lanes σ.data else []

/-- The register bank after the instruction. -/
def nextRegs : BitVec 5 → Word :=
  if σ.writes then Rtl.writeReg σ.regs σ.ex.writeReg σ.value else σ.regs

/-- The RAM after the instruction. -/
def nextRam : BitVec n → Word :=
  if σ.ex.ctl.regToMem then writeRam σ.ram σ.result σ.lanes σ.data else σ.ram

/-- The register bank is changed by the write of the outcome and nothing else. -/
theorem nextRegs_eq : σ.nextRegs = σ.outcome.regs σ.regs := by
  rw [nextRegs, Outcome.regs, outcome]
  by_cases hw : σ.writes = true
  · rw [if_pos hw, if_pos hw, written]
    funext r
    by_cases hk : σ.ex.writeReg = 0
    · rw [if_pos hk, hk]
      exact if_neg fun h => h.1 rfl
    · rw [if_neg hk]
      simp only [Rtl.writeReg, ne_eq, hk, not_false_eq_true, true_and]
  · rw [if_neg hw, if_neg hw]

/-- The RAM is changed by the bytes of the outcome and nothing else. -/
theorem nextRam_eq : memOf σ.nextRam = σ.outcome.bytes.foldl Isa.State.poke (memOf σ.ram) := by
  rw [nextRam, outcome]
  by_cases hst : σ.ex.ctl.regToMem = true
  · rw [if_pos hst, if_pos hst]
    exact Isa.memOf_writeRam_eq _ _ _ _
  · rw [if_neg hst, if_neg hst]
    rfl

/-! ## The clocked datapath -/

/-- A cycle without stall and interrupt. -/
structure Quiet (i : DatapathIn) : Prop where
  stall : i.stall = false
  irq : i.irq = false

variable {σ}

theorem regular_ex (σ : Seq n) : σ.ex.ctl.Regular := regular_control _ _ _

/-- The value is the bus word's only for a load. -/
theorem writeData_of_memRead {e : Execute} (h : e.ctl.memRead = 0) (a d d' pc : Word) :
    e.writeData a d pc = e.writeData a d' pc := by
  simp only [Execute.writeData, h]
  rfl

/-- A load does not look at the program counter. -/
theorem writeData_of_load {e : Execute} (h : e.ctl.memRead ≠ 0) (a d pc pc' : Word) :
    e.writeData a d pc = e.writeData a d pc' := by
  have hcases : ∀ r : BitVec 2, r ≠ 0 → r = 0b11 ∨ r = 0b01 ∨ r = 0b10 := by decide
  rcases hcases _ h with h | h | h <;> simp only [Execute.writeData, h] <;> rfl

end Seq

end HfRisc.Mips
