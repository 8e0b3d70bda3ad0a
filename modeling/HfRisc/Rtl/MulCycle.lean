import HfRisc.Rtl.MulSpec

/-!
# The life of a multiply

The codes from `1100` on are slow: the instruction stays in execute while the
multiplier goes through the bits of its second operand. The operands are captured
in the first cycle, so the transient values written to the destination do not
reach the product.
-/

namespace HfRisc.Rtl

/-- What a multiply leaves: the low half of the product, or the high half with both
operands signed or both unsigned. -/
def mulResult (x y : Word) (aluOp : BitVec 4) : Word :=
  if aluOp = 0b1100 then x * y
  else BitVec.ofInt 32
    (Mul.factor (MulAlu.mulSig0 aluOp) x * Mul.factor (MulAlu.mulSig0 aluOp) y / 2 ^ 32)

namespace MulAlu

variable {a : MulAlu} {x y x' y' : Word} {op : BitVec 4} {k : ℕ}

/-- A multiply. -/
def slow (op : BitVec 4) : Bool := decide (0b1100 ≤ op)

theorem slow_cases (h : slow op = true) :
    op = 0b1100 ∨ op = 0b1101 ∨ op = 0b1110 ∨ op = 0b1111 := by
  revert op
  decide

/-- The multiplier is ready for a multiply. -/
structure Idle (a : MulAlu) : Prop where
  state : a.mul.currentState = .start
  rdy : a.mul.rdySig = true
  rdy2 : a.mulRdy2 = true
  hold : a.mulHold = false
  wait2 : a.aluWait2 = false
  wait3 : a.aluWait3 = false

/-- A multiply of `x` and `y` will be done in `k` cycles. -/
structure Busy (a : MulAlu) (x y : Word) (op : BitVec 4) (k : ℕ) : Prop where
  slow : slow op = true
  wait : a.mul.rdySig = false ∨ k ≠ 0 ∧ a.mulHold = true
  doneIn : Mul.DoneIn (mulSig0 op) k a.mul
  product : k = 0 → Mul.Product a.mul (mulSig0 op) x y
  partial' : k ≠ 0 → Mul.Partial a.mul (mulSig0 op) x y

/-- The cycle after the product has been written. -/
structure Released (a : MulAlu) : Prop where
  state : a.mul.currentState = .start
  rdy : a.mul.rdySig = true
  rdy2 : a.mulRdy2 = false
  hold : a.mulHold = false
  wait2 : a.aluWait2 = true

/-- And the cycle after that, in which decode is held. -/
structure Cooling (a : MulAlu) : Prop where
  state : a.mul.currentState = .start
  rdy : a.mul.rdySig = true
  rdy2 : a.mulRdy2 = true
  hold : a.mulHold = false
  wait2 : a.aluWait2 = false
  wait3 : a.aluWait3 = true

/-- The registers two cycles after a reset. -/
def idle : MulAlu where
  mul := { currentState := .start, reg := 0, i0Reg := 0, rdySig := true, counter := 0 }
  mulHold := false
  mulRdy2 := true
  aluWait2 := false
  aluWait3 := false

theorem idle_idle : Idle idle := ⟨rfl, rfl, rfl, rfl, rfl, rfl⟩

theorem mulTrg_of_fast (h : slow op = false) : a.mulTrg op = false := by
  have hop : decide (op ≥ 0b1100) = false := h
  rw [mulTrg, hop, Bool.false_and, Bool.false_and]

/-- An untriggered multiplier stays at the start. -/
theorem mul_step_start (hstate : a.mul.currentState = .start) (hrdy : a.mul.rdySig = true)
    (sig0 : Bool) :
    (a.mul.step false sig0 x y).currentState = .start ∧
      (a.mul.step false sig0 x y).rdySig = true := by
  rw [Mul.step, hstate]
  exact ⟨by rw [Mul.nextState, hstate]; rfl, hrdy⟩

theorem Idle.wait (h : Idle a) : a.aluWait op = slow op := by
  rw [aluWait, mulTrg, h.rdy, h.rdy2, h.hold]
  simp [slow]

theorem Idle.step (h : Idle a) (hop : slow op = false) : Idle (a.step x y op) := by
  have htrg : a.mulTrg op = false := mulTrg_of_fast hop
  have hmul := mul_step_start (x := x) (y := y) h.state h.rdy (mulSig0 op)
  have hwait : a.aluWait op = false := by rw [h.wait, hop]
  refine ⟨?_, ?_, h.rdy, htrg, hwait, h.wait2⟩
  · show (a.mul.step (a.mulTrg op) _ x y).currentState = _
    rw [htrg]
    exact hmul.1
  · show (a.mul.step (a.mulTrg op) _ x y).rdySig = _
    rw [htrg]
    exact hmul.2

theorem Idle.start (h : Idle a) (hop : slow op = true) :
    ∃ k ≤ 32, Busy (a.step x y op) x y op k := by
  have htrg : a.mulTrg op = true := by
    rw [mulTrg, h.rdy, h.rdy2, Bool.and_true, Bool.and_true]
    exact hop
  have hpart : Mul.Partial (a.step x y op).mul (mulSig0 op) x y := by
    show Mul.Partial (a.mul.step (a.mulTrg op) (mulSig0 op) x y) _ x y
    rw [htrg]
    exact Mul.partial_start h.state x y
  obtain ⟨k, hpos, hk, hdone⟩ := hpart.doneIn (b := 32) (by omega)
  exact ⟨k, hk, hop, .inr ⟨by omega, htrg⟩, hdone, by omega, fun _ => hpart⟩

theorem Busy.wait_eq (h : Busy a x y op k) : a.aluWait op = true := by
  rw [aluWait]
  rcases h.wait with hw | hw
  · simp [hw]
  · simp [hw.2]

theorem Busy.step (h : Busy a x y op (k + 1)) : Busy (a.step x' y' op) x y op k := by
  have hpart := h.partial' (Nat.succ_ne_zero k)
  obtain ⟨hdone, hproduct, hpartial⟩ := hpart.next h.doneIn (a.mulTrg op) x' y'
  exact ⟨h.slow, .inl (Mul.step_rdySig hpart.state _ _ _), hdone, hproduct, hpartial⟩

/-- The last of the values written to the destination is the product. -/
theorem Busy.result (h : Busy a x y op 0) : (aluRv32im a x' y' op).result = mulResult x y op := by
  have hproduct := h.product rfl
  rcases slow_cases h.slow with rfl | hop
  · show a.mul.o0 = _
    rw [hproduct.o0]
    rfl
  · have hhigh : (aluRv32im a x' y' op).result = a.mul.o1 := by
      rcases hop with rfl | rfl | rfl <;> rfl
    have hne : op ≠ 0b1100 := by rcases hop with rfl | rfl | rfl <;> decide
    rw [hhigh, hproduct.o1, mulResult, if_neg hne]

theorem Busy.done (h : Busy a x y op 0) : Released (a.step x' y' op) := by
  have hrdy : a.mul.rdySig = false := by
    rcases h.wait with hw | hw
    · exact hw
    · exact absurd rfl hw.1
  have hstate : a.mul.currentState = .done := h.doneIn
  have htrg : a.mulTrg op = false := by rw [mulTrg, hrdy, Bool.and_false, Bool.false_and]
  refine ⟨?_, ?_, hrdy, htrg, h.wait_eq⟩
  · show (a.mul.step _ _ _ _).currentState = _
    rw [Mul.step, hstate]
    simp only [Mul.nextState, hstate]
  · show (a.mul.step _ _ _ _).rdySig = _
    rw [Mul.step, hstate]

theorem Released.wait (h : Released a) : a.aluWait op = false := by
  rw [aluWait, mulTrg, h.rdy, h.rdy2, h.hold]
  simp

theorem Released.step (h : Released a) : Cooling (a.step x y op) := by
  have htrg : a.mulTrg op = false := by rw [mulTrg, h.rdy2, Bool.and_false]
  have hmul := mul_step_start (x := x) (y := y) h.state h.rdy (mulSig0 op)
  refine ⟨?_, ?_, h.rdy, htrg, h.wait, h.wait2⟩
  · show (a.mul.step (a.mulTrg op) _ x y).currentState = _
    rw [htrg]
    exact hmul.1
  · show (a.mul.step (a.mulTrg op) _ x y).rdySig = _
    rw [htrg]
    exact hmul.2

theorem Cooling.wait (h : Cooling a) (hop : slow op = false) : a.aluWait op = false := by
  rw [aluWait, mulTrg_of_fast hop, h.rdy, h.hold]
  rfl

theorem Cooling.step (h : Cooling a) (hop : slow op = false) : Idle (a.step x y op) := by
  have htrg : a.mulTrg op = false := mulTrg_of_fast hop
  have hmul := mul_step_start (x := x) (y := y) h.state h.rdy (mulSig0 op)
  refine ⟨?_, ?_, h.rdy, htrg, h.wait hop, h.wait2⟩
  · show (a.mul.step (a.mulTrg op) _ x y).currentState = _
    rw [htrg]
    exact hmul.1
  · show (a.mul.step (a.mulTrg op) _ x y).rdySig = _
    rw [htrg]
    exact hmul.2

end MulAlu

/-- The other codes do not look at the multiplier. -/
theorem aluRv32im_congr {a b : MulAlu} {x y : Word} {op : BitVec 4} (h : MulAlu.slow op = false)
    (hop : op ≠ 0b0011) : aluRv32im a x y op = aluRv32im b x y op := by
  have hcases : ∀ op : BitVec 4, MulAlu.slow op = false → op ≠ 0b0011 →
      op = 0 ∨ op = 1 ∨ op = 2 ∨ op = 4 ∨ op = 5 ∨ op = 6 ∨ op = 7 ∨ op = 8 ∨ op = 9 ∨ op = 10 ∨
        op = 11 := by decide
  rcases hcases op h hop with rfl | rfl | rfl | rfl | rfl | rfl | rfl | rfl | rfl | rfl | rfl <;>
    rfl

end HfRisc.Rtl
