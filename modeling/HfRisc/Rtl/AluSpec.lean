import HfRisc.Lib.Bits
import HfRisc.Rtl.Mul

/-!
# What the ALU computes

The barrel shifter is a shift by the number on its five select bits, one stage a
bit; the borrow of the subtractor is the unsigned comparison, and `less` the
signed one.
-/

namespace HfRisc.Rtl

open HfRisc.Lib

/-! ## The barrel shifter -/

/-- The stages add up to the number on the select bits. -/
theorem toNat_select (s : BitVec 5) :
    s.toNat = 1 * (s.getLsbD 0).toNat + 2 * (s.getLsbD 1).toNat + 4 * (s.getLsbD 2).toNat +
      8 * (s.getLsbD 3).toNat + 16 * (s.getLsbD 4).toNat := by
  revert s
  decide

theorem bshiftLeft_eq (s : BitVec 5) (x : Word) : bshiftLeft s x = x <<< s.toNat := by
  simp only [bshiftLeft]
  rw [stage_left (m := 31) (k := 1) rfl (s.getLsbD 0) x _ rfl,
    stage_left (m := 30) (k := 2) rfl (s.getLsbD 1) _ _ rfl, ← BitVec.shiftLeft_add,
    stage_left (m := 28) (k := 4) rfl (s.getLsbD 2) _ _ rfl, ← BitVec.shiftLeft_add,
    stage_left (m := 24) (k := 8) rfl (s.getLsbD 3) _ _ rfl, ← BitVec.shiftLeft_add,
    stage_left (m := 16) (k := 16) rfl (s.getLsbD 4) _ _ rfl, ← BitVec.shiftLeft_add,
    ← toNat_select]

/-- Filling in zeros. -/
theorem bshiftRight_zero (s : BitVec 5) (x : Word) : bshiftRight 0#16 s x = x >>> s.toNat := by
  simp only [bshiftRight, show (0#16).extractLsb' 15 1 = 0#1 from rfl,
    show (0#16).extractLsb' 14 2 = 0#2 from rfl, show (0#16).extractLsb' 12 4 = 0#4 from rfl,
    show (0#16).extractLsb' 8 8 = 0#8 from rfl]
  rw [stage_right (m := 31) (k := 1) rfl (s.getLsbD 0) x _ rfl,
    stage_right (m := 30) (k := 2) rfl (s.getLsbD 1) _ _ rfl, ← BitVec.shiftRight_add,
    stage_right (m := 28) (k := 4) rfl (s.getLsbD 2) _ _ rfl, ← BitVec.shiftRight_add,
    stage_right (m := 24) (k := 8) rfl (s.getLsbD 3) _ _ rfl, ← BitVec.shiftRight_add,
    stage_right (m := 16) (k := 16) rfl (s.getLsbD 4) _ _ rfl, ← BitVec.shiftRight_add,
    ← toNat_select]

/-- Filling in ones, which keeps the sign. -/
theorem bshiftRight_ones (s : BitVec 5) {x : Word} (h : x.msb = true) :
    bshiftRight 0xffff#16 s x = x.sshiftRight s.toNat := by
  have hmsb : ∀ k, (x.sshiftRight k).msb = true := fun k => by rw [BitVec.msb_sshiftRight, h]
  rw [show 0xffff#16 = BitVec.allOnes 16 from rfl]
  simp only [bshiftRight, show (BitVec.allOnes 16).extractLsb' 15 1 = BitVec.allOnes 1 from rfl,
    show (BitVec.allOnes 16).extractLsb' 14 2 = BitVec.allOnes 2 from rfl,
    show (BitVec.allOnes 16).extractLsb' 12 4 = BitVec.allOnes 4 from rfl,
    show (BitVec.allOnes 16).extractLsb' 8 8 = BitVec.allOnes 8 from rfl]
  rw [stage_ones (m := 31) (k := 1) rfl (s.getLsbD 0) x _ h rfl,
    stage_ones (m := 30) (k := 2) rfl (s.getLsbD 1) _ _ (hmsb _) rfl, ← BitVec.sshiftRight_add,
    stage_ones (m := 28) (k := 4) rfl (s.getLsbD 2) _ _ (hmsb _) rfl, ← BitVec.sshiftRight_add,
    stage_ones (m := 24) (k := 8) rfl (s.getLsbD 3) _ _ (hmsb _) rfl, ← BitVec.sshiftRight_add,
    stage_ones (m := 16) (k := 16) rfl (s.getLsbD 4) _ _ (hmsb _) rfl, ← BitVec.sshiftRight_add,
    ← toNat_select]

/-- Left: a logical shift whatever the fill. -/
theorem bshift_left (logical : Bool) (s : BitVec 5) (x : Word) :
    bshift true logical s x = x <<< s.toNat := bshiftLeft_eq s x

theorem bshift_right_logical (s : BitVec 5) (x : Word) :
    bshift false true s x = x >>> s.toNat := bshiftRight_zero s x

theorem bshift_right_arithmetic (s : BitVec 5) (x : Word) :
    bshift false false s x = x.sshiftRight s.toNat := by
  show bshiftRight (bshiftFill false x) s x = _
  rw [bshiftFill, if_pos rfl]
  by_cases h : x.getLsbD 31 = true
  · rw [if_pos h]
    exact bshiftRight_ones s (by rw [BitVec.msb_eq_getLsbD_last]; exact h)
  · have hmsb : x.msb = false := by
      rw [BitVec.msb_eq_getLsbD_last]
      exact Bool.eq_false_of_not_eq_true h
    rw [if_neg h, BitVec.sshiftRight_eq_of_msb_false hmsb]
    exact bshiftRight_zero s x

/-- The select bits are the low five bits of the operand. -/
theorem toNat_shamt (y : Word) : (y.extractLsb' 0 5).toNat = y.toNat % 32 := by
  rw [toNat_extract, Nat.pow_zero, Nat.div_one]
  rfl

/-! ## Adder and comparison -/

section Adder

variable (x y : Word)

theorem addsub_add : (addsub x y 0b0100).extractLsb' 0 32 = x + y := by
  apply BitVec.eq_of_toNat_eq
  rw [addsub, if_neg (by decide), toNat_extract, BitVec.toNat_add, toNat_append, toNat_append,
    BitVec.toNat_add]
  simp

theorem addsub_sub {op : BitVec 4} (h : op > 0b0100) :
    (addsub x y op).extractLsb' 0 32 = x - y := by
  apply BitVec.eq_of_toNat_eq
  rw [addsub, if_pos h, toNat_extract, BitVec.toNat_sub, toNat_append, toNat_append,
    BitVec.toNat_sub]
  have hx := x.isLt
  have hy := y.isLt
  simp
  omega

/-- The borrow. -/
theorem addsub_borrow {op : BitVec 4} (h : op > 0b0100) :
    (addsub x y op).getLsbD 32 = x.ult y := by
  have hx := x.isLt
  have hy := y.isLt
  have hnat : (addsub x y op).toNat = (x.toNat + (2 ^ 33 - y.toNat)) % 2 ^ 33 := by
    rw [addsub, if_pos h, BitVec.toNat_sub, toNat_append, toNat_append]
    simp
    omega
  rw [BitVec.getLsbD, hnat, Nat.testBit_eq_decide_div_mod_eq, BitVec.ult]
  by_cases hlt : x.toNat < y.toNat
  · simp only [hlt, decide_true, decide_eq_true_eq]
    omega
  · simp only [hlt, decide_false, decide_eq_false_iff_not]
    omega

theorem less_unsigned : less x y 0b1000 = x.ult y := by
  rw [less, if_pos (.inr rfl), addsub_borrow x y (by decide)]

theorem less_signed : less x y 0b0111 = x.slt y := by
  have hx : x.getLsbD 31 = x.msb := (BitVec.msb_eq_getLsbD_last x).symm
  have hy : y.getLsbD 31 = y.msb := (BitVec.msb_eq_getLsbD_last y).symm
  rw [less, addsub_borrow x y (by decide), hx, hy, BitVec.slt_eq_ult]
  by_cases h : x.msb = y.msb
  · rw [if_pos (.inl h), h]
    simp
  · rw [if_neg (by simp [h]), BitVec.ult_eq_msb_of_msb_neq h]
    cases hxm : x.msb <;> cases hym : y.msb <;> simp_all

/-- A comparison result as a word. -/
theorem append_ofBool (b : Bool) : 0#31 ++ BitVec.ofBool b = if b then 1#32 else 0#32 := by
  cases b <;> rfl

end Adder

end HfRisc.Rtl
