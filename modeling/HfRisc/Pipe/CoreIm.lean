import HfRisc.Pipe.CoreI
import HfRisc.Rtl.MulCycle

/-!
# The rv32im core implements RV32I and the multiplies
-/

namespace HfRisc.Pipe

open HfRisc.Rtl HfRisc.Lib HfRisc.Isa

/-- What the rv32im ALU computes in the end. -/
def finalRv32im (x y : Word) (op : BitVec 4) : AluOut :=
  if MulAlu.slow op then { aluRv32im MulAlu.idle x y op with result := mulResult x y op }
  else aluRv32im MulAlu.idle x y op

theorem finalRv32im_slow {x y : Word} {op : BitVec 4} (h : MulAlu.slow op = true) :
    (finalRv32im x y op).result = mulResult x y op := by rw [finalRv32im, if_pos h]

theorem finalRv32im_fast {x y : Word} {op : BitVec 4} (h : MulAlu.slow op = false) :
    finalRv32im x y op = aluRv32im MulAlu.idle x y op := by
  rw [finalRv32im, h]
  rfl

/-- The multiplies wait. -/
def contractRv32im : Contract rv32im where
  exclusive := exclusive_controlRv32im
  bubble := rfl
  nop := rfl
  final := finalRv32im
  slow := MulAlu.slow
  latency := 32
  Idle := MulAlu.Idle
  Busy := MulAlu.Busy
  Released := MulAlu.Released
  Cooling := MulAlu.Cooling
  slow_le := fun h => of_decide_eq_true h
  idle_wait := fun h => h.wait
  idle_kill := fun h => h.wait3
  fast_alu := fun h hop => by
    rw [finalRv32im_fast h]
    exact aluRv32im_congr h hop
  idle_step := fun h hop => h.step hop
  start := fun h hop => h.start hop
  busy_wait := fun h => h.wait_eq
  busy_step := fun h => h.step
  busy_alu := fun h => by
    rw [finalRv32im_slow h.slow]
    exact h.result
  busy_done := fun h => h.done
  released_wait := fun h => h.wait
  released_step := fun h => h.step
  cooling_wait := fun h hop => h.wait hop
  cooling_kill := fun h => h.wait3
  cooling_step := fun h hop => h.step hop

/-! ## Computations -/

section Codes

variable (x y : Word)

/-- The rv32im ALU computes what the instruction set says. -/
theorem finalRv32im_eval (o : AluOp) :
    (finalRv32im x y (aluCode 0b1011 o)).result = o.eval x y := by
  rw [finalRv32im_fast (by cases o <;> rfl)]
  by_cases h : o.IsShift
  · cases o <;> first | exact h.elim | skip
    · show bshift true true (y.extractLsb' 0 5) x = _
      rw [bshift_left, toNat_shamt]
      rfl
    · show bshift false true (y.extractLsb' 0 5) x = _
      rw [bshift_right_logical, toNat_shamt]
      rfl
    · show bshift false false (y.extractLsb' 0 5) x = _
      rw [bshift_right_arithmetic, toNat_shamt]
      rfl
  · exact aluResult_eval x y _ _ h

/-- The code of a multiply. -/
def mulCode : MulOp → BitVec 4
  | .mul => 0b1100
  | .mulh => 0b1101
  | .mulhu => 0b1111

/-- The high half of a signed product. -/
theorem mulh_eval : BitVec.ofInt 32 (x.toInt * y.toInt / 2 ^ 32) = MulOp.mulh.eval x y := by
  rw [MulOp.eval, signExtend_mul_signExtend, extract_ofInt]

/-- The high half of an unsigned product. -/
theorem mulhu_eval :
    BitVec.ofInt 32 ((x.toNat : ℤ) * y.toNat / 2 ^ 32) = MulOp.mulhu.eval x y := by
  rw [MulOp.eval, setWidth_mul_setWidth, extract_ofInt]

theorem finalRv32im_mul (o : MulOp) : (finalRv32im x y (mulCode o)).result = o.eval x y := by
  rw [finalRv32im_slow (by cases o <;> rfl)]
  cases o with
  | mul => rfl
  | mulh => exact mulh_eval x y
  | mulhu => exact mulhu_eval x y

theorem finalRv32im_zero : (finalRv32im x y 0b0101).zero = (x == y) := aluRv32i_zero x y

end Codes

/-! ## Rows -/

theorem row_opIm {f₃ : BitVec 3} {f₇ : BitVec 7} {o : AluOp} (h : decodeOp f₃ f₇ = some o) :
    controlOpIm f₃ f₇ = .compute 0b101 (aluCode 0b1011 o) := by
  rcases decodeOp_funct7 h with rfl | ⟨rfl, rfl | rfl⟩
  · rcases funct3_cases f₃ with rfl | rfl | rfl | rfl | rfl | rfl | rfl | rfl <;> cases h <;> rfl
  · cases h
    rfl
  · cases h
    rfl

theorem row_mul {f₃ : BitVec 3} {f₇ : BitVec 7} {o : MulOp} (h : decodeMul f₃ f₇ = some o) :
    controlOpIm f₃ f₇ = .compute 0b101 (mulCode o) := by
  rw [decodeMul] at h
  split at h
  · rename_i hf
    rw [hf]
    rcases funct3_cases f₃ with rfl | rfl | rfl | rfl | rfl | rfl | rfl | rfl <;> cases h <;> rfl
  · cases h

/-- The rv32im core implements RV32I and the multiplies. -/
theorem implementsRv32im : Implements contractRv32im true where
  rows _ f₃ f₇ hImm hOp := controlRows_congr hImm hOp f₃ f₇
  opImm h := ⟨_, _, row_opImm 0b1011 h, immSrc_spec _, fun x y => finalRv32im_eval x y _⟩
  op h := ⟨_, row_opIm h, fun x y => finalRv32im_eval x y _⟩
  mul _ _ _ _ h := ⟨_, row_mul h, fun x y => finalRv32im_mul x y _⟩
  move _ _ := rfl
  add x y := addsub_add x y
  zero := finalRv32im_zero
  slt x y := less_signed x y
  ult x y := less_unsigned x y

end HfRisc.Pipe
