import HfRisc.Isa.Spec
import HfRisc.Lib.Bits
import HfRisc.Sim.Decode
import Mathlib.Tactic.IntervalCases

/-!
# The fields the simulators extract

Masks and shifts cut out the fields of the instruction set, and the immediates
put together from them, with the sign bit copied by one `if`, are the sign
extended immediates of the instruction set.
-/

namespace HfRisc.Sim

open HfRisc.Lib

variable (w : Word)

/-! ## Numbers -/

/-- A mask of low bits is a remainder. -/
theorem toNat_and_low (x : Word) {k : ℕ} (hk : k ≤ 32) :
    (x &&& BitVec.ofNat 32 (2 ^ k - 1)).toNat = x.toNat % 2 ^ k := by
  have hlt : 2 ^ k - 1 < 2 ^ 32 := by
    have hle := Nat.pow_le_pow_right (show 0 < 2 by decide) hk
    have hpos := Nat.two_pow_pos k
    omega
  rw [BitVec.toNat_and, BitVec.toNat_ofNat, Nat.mod_eq_of_lt hlt, Nat.and_two_pow_sub_one_eq_mod]

/-- A shift and a mask are a slice. -/
theorem slice_eq (j k : ℕ) (hk : k ≤ 32) :
    (w >>> j) &&& BitVec.ofNat 32 (2 ^ k - 1) = (w.extractLsb' j k).setWidth 32 := by
  have hlt : (w.extractLsb' j k).toNat < 2 ^ 32 :=
    Nat.lt_of_lt_of_le (w.extractLsb' j k).isLt (Nat.pow_le_pow_right (by decide) hk)
  apply BitVec.eq_of_toNat_eq
  rw [toNat_and_low _ hk, BitVec.toNat_setWidth, Nat.mod_eq_of_lt hlt, toNat_extract,
    BitVec.toNat_ushiftRight, Nat.shiftRight_eq_div_pow]

theorem opcode_eq : opcode w = (Isa.opcode w).setWidth 32 := by
  have h := slice_eq w 0 7 (by decide)
  rw [BitVec.ushiftRight_zero] at h
  exact h

theorem funct3_eq : funct3 w = (Isa.funct3 w).setWidth 32 := slice_eq w 12 3 (by decide)

theorem funct7_eq : funct7 w = (Isa.funct7 w).setWidth 32 := slice_eq w 25 7 (by decide)

theorem rs2_eq : rs2 w = (Isa.rs2 w).setWidth 32 := slice_eq w 20 5 (by decide)

/-- Widening a register number and cutting it off again. -/
theorem index_setWidth (k : BitVec 5) : index (k.setWidth 32) = k := by
  rw [index, BitVec.setWidth_setWidth_of_le _ (by decide), BitVec.setWidth_eq]

@[simp] theorem index_rd : index (rd w) = Isa.rd w := by
  rw [show rd w = (Isa.rd w).setWidth 32 from slice_eq w 7 5 (by decide), index_setWidth]

@[simp] theorem index_rs1 : index (rs1 w) = Isa.rs1 w := by
  rw [show rs1 w = (Isa.rs1 w).setWidth 32 from slice_eq w 15 5 (by decide), index_setWidth]

@[simp] theorem index_rs2 : index (rs2 w) = Isa.rs2 w := by rw [rs2_eq, index_setWidth]

/-! ## Immediates -/

theorem sign_iff : w &&& 0x80000000 ≠ 0 ↔ w[31] = true := by
  have hbit : w &&& 0x80000000#32 = if w[31] then 0x80000000#32 else 0#32 := by
    cases h : w[31] <;> apply BitVec.eq_of_getLsbD_eq <;> intro i hi <;>
      interval_cases i <;> simp [h]
  show w &&& 0x80000000#32 ≠ 0#32 ↔ _
  rw [hbit]
  split <;> simp_all

/-- `extend` looks at the sign bit. -/
theorem extend_eq (ones imm : Word) : extend w ones imm = if w[31] then imm ||| ones else imm := by
  simp only [extend, sign_iff]

theorem immU_eq : immU w = Isa.immU w := by
  apply BitVec.eq_of_getLsbD_eq
  intro i hi
  rw [immU, Isa.immU, BitVec.getLsbD_append]
  interval_cases i <;> simp

-- Bit by bit: the low bits come from the slices, the others from the sign.
theorem immI_eq : immI w = Isa.immI w := by
  rw [immI, extend_eq, Isa.immI]
  cases h : w[31] <;> apply BitVec.eq_of_getLsbD_eq <;> intro i hi <;>
    rw [BitVec.getLsbD_signExtend, BitVec.msb_eq_getLsbD_last] <;>
    interval_cases i <;> simp [h]

theorem immS_eq : immS w = Isa.immS w := by
  rw [immS, extend_eq, Isa.immS]
  cases h : w[31] <;> apply BitVec.eq_of_getLsbD_eq <;> intro i hi <;>
    simp only [BitVec.getLsbD_signExtend, BitVec.msb_eq_getLsbD_last, BitVec.getLsbD_append] <;>
    interval_cases i <;> simp [h]

theorem immSb_eq : immSb w = Isa.immB w := by
  rw [immSb, extend_eq, Isa.immB]
  cases h : w[31] <;> apply BitVec.eq_of_getLsbD_eq <;> intro i hi <;>
    simp only [BitVec.getLsbD_signExtend, BitVec.msb_eq_getLsbD_last, BitVec.getLsbD_append] <;>
    interval_cases i <;> simp [h]

theorem immUj_eq : immUj w = Isa.immJ w := by
  rw [immUj, extend_eq, Isa.immJ]
  cases h : w[31] <;> apply BitVec.eq_of_getLsbD_eq <;> intro i hi <;>
    simp only [BitVec.getLsbD_signExtend, BitVec.msb_eq_getLsbD_last, BitVec.getLsbD_append] <;>
    interval_cases i <;> simp [h]

end HfRisc.Sim
