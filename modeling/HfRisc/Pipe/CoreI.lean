import HfRisc.Isa.Refine
import HfRisc.Rtl.AluSpec

/-!
# The rv32i core implements RV32I

Every computation of this core takes one cycle: its contract has no slow codes.
-/

namespace HfRisc.Pipe

open HfRisc.Rtl HfRisc.Lib HfRisc.Isa

/-- No code of the rv32i core waits. -/
def contractRv32i : Contract rv32i where
  exclusive := exclusive_controlRv32i
  bubble := rfl
  nop := rfl
  final := aluRv32i
  slow := fun _ => false
  latency := 0
  Idle := fun _ => True
  Busy := fun _ _ _ _ _ => False
  Released := fun _ => False
  Cooling := fun _ => False
  slow_le := fun h => nomatch h
  idle_wait := fun _ => rfl
  idle_kill := fun _ => rfl
  fast_alu := fun _ _ => rfl
  idle_step := fun _ _ => trivial
  start := fun _ h => nomatch h
  busy_wait := fun h => h.elim
  busy_step := fun h => h.elim
  busy_alu := fun h => h.elim
  busy_done := fun h => h.elim
  released_wait := fun h => h.elim
  released_step := fun h => h.elim
  cooling_wait := fun h => h.elim
  cooling_kill := fun h => h.elim
  cooling_step := fun h => h.elim

/-! ## Computations -/

section Codes

variable (x y rest : Word)

/-- The ALU code of a computation; `sra` is the core's code of the arithmetic
right shift. -/
def aluCode (sra : BitVec 4) : AluOp → BitVec 4
  | .add => 0b0100
  | .sub => 0b0101
  | .sll => 0b1001
  | .slt => 0b0111
  | .sltu => 0b1000
  | .xor => 0b0010
  | .srl => 0b1010
  | .sra => sra
  | .or => 0b0001
  | .and => 0b0000

/-- The codes below the shifts are the same on both cores. -/
theorem aluResult_eval (sra : BitVec 4) {o : AluOp} (h : ¬ o.IsShift) :
    aluResult x y (aluCode sra o) rest = o.eval x y := by
  cases o with
  | add => exact addsub_add x y
  | sub => exact addsub_sub x y (show (0b0101#4) > 0b0100 by decide)
  | slt =>
    show 0#31 ++ BitVec.ofBool (less x y 0b0111) = _
    rw [append_ofBool, less_signed]
    rfl
  | sltu =>
    show 0#31 ++ BitVec.ofBool (less x y 0b1000) = _
    rw [append_ofBool, less_unsigned]
    rfl
  | xor => rfl
  | or => rfl
  | and => rfl
  | sll => exact absurd trivial h
  | srl => exact absurd trivial h
  | sra => exact absurd trivial h

/-- The rv32i ALU computes what the instruction set says. -/
theorem aluRv32i_eval (o : AluOp) : (aluRv32i x y (aluCode 0b1100 o)).result = o.eval x y := by
  by_cases h : o.IsShift
  · cases o <;> first | exact h.elim | skip
    · show bshift true true (y.extractLsb' 0 5) x = _
      rw [bshift_left, toNat_shamt]
      rfl
    · show bshift false true (y.extractLsb' 0 5) x = _
      rw [bshift_right_logical, toNat_shamt]
      rfl
    · show bshift false false (y.extractLsb' 0 5) x = _
      rw [bshift_right_arithmetic, toNat_shamt]
      rfl
  · exact aluResult_eval x y _ _ h

end Codes

/-! ## Rows -/

/-- The operand select of an immediate computation. -/
def immSrc : AluOp → BitVec 3
  | .sll | .srl | .sra => 0b100
  | _ => 0b001

theorem immSrc_spec (o : AluOp) : immSrc o = 0b001 ∨ immSrc o = 0b100 ∧ o.IsShift := by
  cases o <;> first | exact .inl rfl | exact .inr ⟨rfl, trivial⟩

theorem row_opImm (sra : BitVec 4) {f₃ : BitVec 3} {f₇ : BitVec 7} {o : AluOp}
    (h : decodeOpImm f₃ f₇ = some o) :
    controlOpImm sra f₃ f₇ = .compute (immSrc o) (aluCode sra o) := by
  rcases funct3_cases f₃ with rfl | rfl | rfl | rfl | rfl | rfl | rfl | rfl
  · cases h
    rfl
  · replace h : (if f₇ = 0b0000000 then some AluOp.sll else none) = some o := h
    split at h <;> cases h
    rfl
  · cases h
    rfl
  · cases h
    rfl
  · cases h
    rfl
  · replace h : (if f₇ = 0b0000000 then some AluOp.srl
      else if f₇ = 0b0100000 then some AluOp.sra else none) = some o := h
    split at h
    · rename_i hf
      cases h
      rw [hf]
      rfl
    · split at h <;> cases h
      rename_i hf
      rw [hf]
      rfl
  · cases h
    rfl
  · cases h
    rfl

/-- A row of `OP` has `funct7` zero or the bit that selects `sub` and `sra`. -/
theorem decodeOp_funct7 {f₃ : BitVec 3} {f₇ : BitVec 7} {o : AluOp} (h : decodeOp f₃ f₇ = some o) :
    f₇ = 0b0000000 ∨ f₇ = 0b0100000 ∧ (f₃ = 0 ∨ f₃ = 5) := by
  rw [decodeOp] at h
  split at h
  · exact .inl ‹_›
  · split at h
    · rename_i hf
      refine .inr ⟨hf, ?_⟩
      split at h
      · exact .inl ‹_›
      · split at h
        · exact .inr ‹_›
        · cases h
    · cases h

theorem row_op {f₃ : BitVec 3} {f₇ : BitVec 7} {o : AluOp} (h : decodeOp f₃ f₇ = some o) :
    controlOpI f₃ f₇ = .compute 0b101 (aluCode 0b1100 o) := by
  rcases decodeOp_funct7 h with rfl | ⟨rfl, rfl | rfl⟩
  · rcases funct3_cases f₃ with rfl | rfl | rfl | rfl | rfl | rfl | rfl | rfl <;> cases h <;> rfl
  · cases h
    rfl
  · cases h
    rfl

/-- The shared rows do not depend on the computation rows. -/
theorem controlRows_congr {opImm op opImm' op' : BitVec 3 → BitVec 7 → Control} {o : BitVec 7}
    (hImm : o ≠ 0b0010011) (hOp : o ≠ 0b0110011) (f₃ : BitVec 3) (f₇ : BitVec 7) :
    controlRows opImm op o f₃ f₇ = controlRows opImm' op' o f₃ f₇ := by
  simp only [controlRows, if_neg hImm, if_neg hOp]

theorem aluRv32i_zero (x y : Word) : (aluRv32i x y 0b0101).zero = (x == y) := by
  show ((addsub x y 0b0101).extractLsb' 0 32 == 0) = _
  rw [addsub_sub x y (by decide), Bool.eq_iff_iff, beq_iff_eq, beq_iff_eq, BitVec.sub_eq_iff_eq_add]
  simp

/-- The rv32i core implements RV32I. -/
theorem implementsRv32i : Implements contractRv32i false where
  rows _ f₃ f₇ hImm hOp := controlRows_congr hImm hOp f₃ f₇
  opImm h := ⟨_, _, row_opImm 0b1100 h, immSrc_spec _, fun x y => aluRv32i_eval x y _⟩
  op h := ⟨_, row_op h, fun x y => aluRv32i_eval x y _⟩
  mul h := nomatch h
  move _ _ := rfl
  add x y := addsub_add x y
  zero := aluRv32i_zero
  slt x y := less_signed x y
  ult x y := less_unsigned x y

end HfRisc.Pipe
