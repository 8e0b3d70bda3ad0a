import HfRisc.Results.Programs
import HfRisc.Rtl.Stall

/-!
# Stalls of the rv32i core

A stall is transparent in the cycle in which a load or store owns the memory
port. In any other cycle the fetch is replayed one word too early: the next
instruction is skipped, its successor executes, and then both execute.
-/

namespace HfRisc.Results

open HfRisc.Rtl HfRisc.Lib HfRisc.Pipe

variable {n : ℕ}

/-- Transparent stalls only delay: the stalled run commits what the run without
the stalled cycles does. -/
theorem rv32i_stall_transparent {s : System n Unit} (hd : Decoded s) {ins : List Input}
    (h : (System.rawMachine rv32i).Along StallsTransparently s ins) :
    (System.rawMachine rv32i).trace s ins =
      (System.rawMachine rv32i).trace s (ins.filter fun i => !i.stall) :=
  trace_stalled (.inl (.refl s)) hd h

/-- The state in which a program starts. -/
def programState (ws : List Word) : System 14 Unit := boot rv32i () idleIntc (program ws)

theorem decoded_programState (ws : List Word) : Decoded (programState ws) := ⟨0, rfl⟩

instance (s : System n Unit) : Decidable (Transparent s) :=
  decidable_of_iff
    (s.core.mwait = true ∧ s.core.irqAckDly = false ∧
      (IntControl.writes (s.bus rv32i) 0b0010 = false ∧
        IntControl.writes (s.bus rv32i) 0b0011 = false) ∧
      ((s.bus rv32i).periphAccess = true → (s.bus rv32i).dataW = 0 →
        s.periphDly = false ∧ (s.intc.irq = true → (s.bus rv32i).periphReg ≠ 0b0100)))
    ⟨fun ⟨h₁, h₂, h₃, h₄⟩ => ⟨h₁, h₂, h₃, h₄⟩, fun ⟨h₁, h₂, h₃, h₄⟩ => ⟨h₁, h₂, h₃, h₄⟩⟩

instance (s : System n Unit) (i : Input) : Decidable (StallsTransparently s i) :=
  inferInstanceAs (Decidable (i.stall = true → Transparent s))

/-- `lui x1, 0x40000`, `sw x1, 64(x1)`, `addi x2, x0, 2`. -/
def storing : List Word := [0x400000b7, 0x0410a023, 0x00200113]

/-- Seven calm cycles, with two stalls in the fourth, where the store owns the
memory port. -/
def stallFourth : List Input :=
  List.replicate 3 calmInput ++ [stallInput, stallInput] ++ List.replicate 4 calmInput

theorem rv32i_stall_transparent_store :
    (System.rawMachine rv32i).trace (programState storing) stallFourth =
      (System.rawMachine rv32i).trace (programState storing)
        (stallFourth.filter fun i => !i.stall) := by
  refine rv32i_stall_transparent (decoded_programState storing) ?_
  unfold stallFourth
  simp only [List.replicate, List.cons_append, List.nil_append, Mealy.Along]
  decide +kernel

/-- `addi x1, x0, 1`, `addi x2, x0, 2`, `addi x3, x0, 3`, `addi x4, x0, 4`. -/
def adding : List Word := [0x00100093, 0x00200113, 0x00300193, 0x00400213]

/-- Seven calm cycles, with a stall in the third, where the first addition is in
execute. -/
def stallThird : List Input :=
  [calmInput, calmInput, stallInput] ++ List.replicate 5 calmInput

/-- The third addition commits before the second, and once more behind it. -/
theorem rv32i_stall_replay :
    Decoded (programState adding) ∧
      (System.rawMachine rv32i).trace (programState adding) stallThird =
        [.reg 1 1, .reg 3 3, .reg 2 2, .reg 3 3] ∧
      (System.rawMachine rv32i).trace (programState adding)
        (stallThird.filter fun i => !i.stall) = [.reg 1 1, .reg 2 2, .reg 3 3, .reg 4 4] := by
  refine ⟨decoded_programState adding, ?_⟩
  decide +kernel

end HfRisc.Results
