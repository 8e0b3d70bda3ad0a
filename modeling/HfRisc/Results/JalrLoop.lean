import HfRisc.Isa.Refine
import HfRisc.Results.Programs

/-!
# A `JALR` that jumps to itself

The one-instruction loops `jalr x1, 0(x2)` and `jalr x1, 1(x2)`: in the instruction
set both write the same link over and over, since bit 0 of the target is cleared.
-/

namespace HfRisc.Results

open HfRisc.Rtl HfRisc.Lib HfRisc.Isa HfRisc.Pipe

/-- One word of program at the start of the RAM, and its address in `x2`. -/
def single (w : Word) : Seq 14 where
  regs := fun r => if r = 2 then base else 0
  pc := base
  ram := fun k => if k = 0 then swapBytes w else 0

/-- The states of the loop `jalr x1, imm(x2)` at the start of the RAM. -/
structure InLoop (w : Word) (a : State 14) : Prop where
  pc : a.pc = base
  mem : a.mem = memOf (single w).ram
  x2 : a.regs 2 = base

/-- `jalr x1, 0(x2)`. -/
def jalrEven : Word := 0x000100e7

/-- `jalr x1, 1(x2)`. -/
def jalrOdd : Word := 0x001100e7

section Loop

variable {m : Bool} {w imm : Word} {a : State 14}

theorem inLoop_single (w : Word) : InLoop w (ofSeq (single w)) := ⟨rfl, rfl, rfl⟩

theorem InLoop.fetch (h : InLoop w a) : a.fetch = w := by
  obtain ⟨regs, pc, mem⟩ := a
  obtain ⟨hpc, hmem, -⟩ := h
  subst hpc hmem
  show LoadOp.lw.value (State.byte ⟨regs, base, memOf (single w).ram⟩) base = w
  rw [lw_value regs base (single w).ram (by decide)]
  exact swapBytes_swapBytes w

variable (hdec : decode m w = some (.jalr 1 2 imm))
  (himm : (base + imm) &&& ~~~1#32 = base)

include himm in
theorem InLoop.outcome (h : InLoop w a) :
    a.outcome (.jalr 1 2 imm) = ⟨some (1, base + 4), base, []⟩ := by
  have hget : a.get 2 = base := h.x2
  simp only [State.outcome, h.pc, hget, himm]

include hdec himm

theorem InLoop.step (h : InLoop w a) : InLoop w (a.step m) := by
  rw [State.step_of_decode (by rw [h.fetch, hdec]), h.outcome himm]
  exact ⟨rfl, h.mem, h.x2⟩

theorem InLoop.ok (h : InLoop w a) : a.Ok m where
  ram := by
    rw [h.pc]
    decide
  aligned := by
    rw [h.pc]
    decide
  legal := by
    refine ⟨.jalr 1 2 imm, by rw [h.fetch, hdec], trivial, ?_⟩
    rw [h.outcome himm]
    decide

theorem InLoop.effects (h : InLoop w a) : a.effects m = [.reg 1 (base + 4)] := by
  rw [State.effects_of_decode (by rw [h.fetch, hdec]), h.outcome himm]
  rfl

/-- The loop writes the same link over and over. -/
theorem InLoop.mem_trace (h : InLoop w a) (k : ℕ) :
    ∀ e ∈ Isa.trace m a k, e = .reg 1 (base + 4) := by
  induction k generalizing a with
  | zero => exact fun e he => nomatch he
  | succ k ih =>
    intro e he
    have he' : e ∈ a.effects m ++ Isa.trace m (a.step m) k := he
    rw [h.effects hdec himm, List.mem_append, List.mem_singleton] at he'
    rcases he' with he' | he'
    · exact he'
    · exact ih (h.step hdec himm) e he'

end Loop

variable (m : Bool)

theorem decode_jalrEven : decode m jalrEven = some (.jalr 1 2 0) := by
  cases m <;> decide

theorem decode_jalrOdd : decode m jalrOdd = some (.jalr 1 2 1) := by
  cases m <;> decide

theorem ok_jalrEven (k : ℕ) : (Isa.run m (ofSeq (single jalrEven)) k).Ok m :=
  (run_invariant (fun _ h => h.step (decode_jalrEven m) (by decide))
    (inLoop_single jalrEven) k).ok (decode_jalrEven m) (by decide)

theorem ok_jalrOdd (k : ℕ) : (Isa.run m (ofSeq (single jalrOdd)) k).Ok m :=
  (run_invariant (fun _ h => h.step (decode_jalrOdd m) (by decide))
    (inLoop_single jalrOdd) k).ok (decode_jalrOdd m) (by decide)

theorem even_jalrEven (k : ℕ) : (Isa.run m (ofSeq (single jalrEven)) k).EvenTarget m := by
  have h := run_invariant (fun _ h => InLoop.step (decode_jalrEven m) (by decide) h)
    (inLoop_single jalrEven) k
  intro rd rs1 imm hd
  rw [h.fetch, decode_jalrEven m] at hd
  cases hd
  rw [show (Isa.run m (ofSeq (single jalrEven)) k).get 2 = base from h.x2]
  decide

end HfRisc.Results
