import HfRisc.Lib.Multiplication
import HfRisc.Mips.Simulator
import Mathlib.Tactic.Ring

/-!
# The multiplications of the MIPS simulator

`mult_unsigned` and `mult_signed` are one multiplication by halves. In the signed one the upper
halves are integers with a sign, and so are the mixed products, which still fit in a word.
-/

namespace HfRisc.Mips.Sim

open HfRisc.Lib

variable {a b : Word}

/-! ## Without a sign -/

theorem toNat_low (x : Word) : (x &&& 0xffff).toNat = x.toNat % 2 ^ 16 := toNat_and_mask (by decide)

theorem low_eq_ofInt (x : Word) : x &&& 0xffff = BitVec.ofInt 32 (x.toNat % 2 ^ 16 : ℕ) := by
  rw [← toNat_low, BitVec.ofInt_natCast, BitVec.ofNat_toNat, BitVec.setWidth_eq]

/-- A product of two halves fits in a word. -/
theorem half_mul_half_lt {m n : ℕ} (hm : m < 2 ^ 16) (hn : n < 2 ^ 16) : m * n < 2 ^ 32 :=
  (Nat.mul_lt_mul'' hm hn).trans_eq rfl

theorem low_mul_low (a b : Word) : ((a &&& 0xffff) * (b &&& 0xffff)).toNat =
    a.toNat % 2 ^ 16 * (b.toNat % 2 ^ 16) := by
  rw [BitVec.toNat_mul, toNat_low, toNat_low,
    Nat.mod_eq_of_lt (half_mul_half_lt (by omega) (by omega))]

/-- What an integer without a sign is shifted to. -/
theorem ushiftRight_ofInt {x : Word} {m : ℕ} (hx : x = BitVec.ofInt 32 m) (h : m < 2 ^ 32) :
    x >>> (16 : ℕ) = BitVec.ofInt 32 (m / 2 ^ 16) := by
  apply BitVec.eq_of_toNat_eq
  rw [hx]
  rw [BitVec.toNat_ushiftRight, Nat.shiftRight_eq_div_pow, BitVec.toNat_ofInt, BitVec.toNat_ofInt]
  omega

theorem multUnsigned_eq (a b : Word) :
    (multUnsigned a b).1 ++ (multUnsigned a b).2 = BitVec.ofInt 64 (a.toNat * b.toNat) := by
  have ha := a.isLt
  have hb := b.isLt
  have hupper : ∀ x : Word, x >>> (16 : ℕ) = BitVec.ofInt 32 (x.toNat / 2 ^ 16 : ℕ) := fun x => by
    rw [BitVec.ofInt_natCast, ← Nat.shiftRight_eq_div_pow, ← BitVec.toNat_ushiftRight,
      BitVec.ofNat_toNat, BitVec.setWidth_eq]
  have hmixed : a >>> (16 : ℕ) * (b &&& 0xffff) =
      BitVec.ofInt 32 (a.toNat / 2 ^ 16 * (b.toNat % 2 ^ 16) : ℕ) := by
    rw [hupper, low_eq_ofInt, ← BitVec.ofInt_mul, Nat.cast_mul]
  have hmixed' : (a &&& 0xffff) * b >>> (16 : ℕ) =
      BitVec.ofInt 32 (a.toNat % 2 ^ 16 * (b.toNat / 2 ^ 16) : ℕ) := by
    rw [hupper, low_eq_ofInt, ← BitVec.ofInt_mul, Nat.cast_mul]
  have hupper' : a >>> (16 : ℕ) * b >>> (16 : ℕ) =
      BitVec.ofInt 32 (a.toNat / 2 ^ 16 * (b.toNat / 2 ^ 16) : ℕ) := by
    rw [hupper, hupper, ← BitVec.ofInt_mul, Nat.cast_mul]
  have hhalf := ushiftRight_ofInt hmixed (half_mul_half_lt (by omega) (by omega))
  have hhalf' := ushiftRight_ofInt hmixed' (half_mul_half_lt (by omega) (by omega))
  refine (Halves.columns hmixed hmixed' hhalf hhalf' hupper').trans
    (congrArg (BitVec.ofInt 64) ?_)
  have hsplit := Nat.div_add_mod' a.toNat (2 ^ 16)
  have hsplit' := Nat.div_add_mod' b.toNat (2 ^ 16)
  rw [low_mul_low]
  generalize a.toNat / 2 ^ 16 = ah at *
  generalize a.toNat % 2 ^ 16 = al at *
  generalize b.toNat / 2 ^ 16 = bh at *
  generalize b.toNat % 2 ^ 16 = bl at *
  rw [← hsplit, ← hsplit']
  push_cast
  ring

/-! ## With a sign -/

/-- A half with a sign, and one without it. -/
theorem mixed_eq_ofInt (a b : Word) :
    a.sshiftRight 16 * (b &&& 0xffff) =
        BitVec.ofInt 32 (a.toInt / 2 ^ 16 * (b.toNat % 2 ^ 16 : ℕ)) ∧
      (a.sshiftRight 16 * (b &&& 0xffff)).sshiftRight 16 =
        BitVec.ofInt 32 (a.toInt / 2 ^ 16 * (b.toNat % 2 ^ 16 : ℕ) / 2 ^ 16) := by
  have hmixed : a.sshiftRight 16 * (b &&& 0xffff) =
      BitVec.ofInt 32 (a.toInt / 2 ^ 16 * (b.toNat % 2 ^ 16 : ℕ)) := by
    rw [sshiftRight_eq_ofInt, low_eq_ofInt, ← BitVec.ofInt_mul]
  have hlow : -2 ^ 31 ≤ a.toInt := BitVec.le_toInt a
  have hhigh : a.toInt < 2 ^ 31 := BitVec.toInt_lt
  have hnonneg : (0 : ℤ) ≤ (b.toNat % 2 ^ 16 : ℕ) := Int.natCast_nonneg _
  have hle : ((b.toNat % 2 ^ 16 : ℕ) : ℤ) ≤ 2 ^ 16 - 1 := by omega
  -- the product of a half with a sign and one without fits in a word
  have hbelow : -2 ^ 15 * ((b.toNat % 2 ^ 16 : ℕ) : ℤ) ≤
      a.toInt / 2 ^ 16 * (b.toNat % 2 ^ 16 : ℕ) :=
    Int.mul_le_mul_of_nonneg_right (by omega) hnonneg
  have habove : a.toInt / 2 ^ 16 * (b.toNat % 2 ^ 16 : ℕ) ≤
      (2 ^ 15 - 1) * ((b.toNat % 2 ^ 16 : ℕ) : ℤ) :=
    Int.mul_le_mul_of_nonneg_right (by omega) hnonneg
  refine ⟨hmixed, ?_⟩
  rw [sshiftRight_eq_ofInt, hmixed, BitVec.toInt_ofInt_eq_self (by decide) (by omega) (by omega)]

theorem multSigned_eq (a b : Word) :
    (multSigned a b).1 ++ (multSigned a b).2 = BitVec.ofInt 64 (a.toInt * b.toInt) := by
  obtain ⟨hmixed, hhalf⟩ := mixed_eq_ofInt a b
  obtain ⟨hmixed', hhalf'⟩ := mixed_eq_ofInt b a
  rw [mul_comm] at hmixed' hhalf'
  have hupper : a.sshiftRight 16 * b.sshiftRight 16 =
      BitVec.ofInt 32 (a.toInt / 2 ^ 16 * (b.toInt / 2 ^ 16)) := by
    rw [sshiftRight_eq_ofInt, sshiftRight_eq_ofInt, ← BitVec.ofInt_mul]
  refine (Halves.columns hmixed hmixed' hhalf hhalf' hupper).trans
    (congrArg (BitVec.ofInt 64) ?_)
  -- the lower half is the same with a sign
  have hsplit : ∀ x : Word, x.toInt / 2 ^ 16 * 2 ^ 16 + (x.toNat % 2 ^ 16 : ℕ) = x.toInt :=
    fun x => by
      rw [BitVec.toInt_eq_toNat_cond]
      split <;> omega
  have ha := hsplit a
  have hb := hsplit b
  rw [low_mul_low, Nat.cast_mul]
  generalize a.toInt / 2 ^ 16 = ah at *
  generalize ((a.toNat % 2 ^ 16 : ℕ) : ℤ) = al at *
  generalize b.toInt / 2 ^ 16 = bh at *
  generalize ((b.toNat % 2 ^ 16 : ℕ) : ℤ) = bl at *
  rw [← ha, ← hb]
  ring

end HfRisc.Mips.Sim

namespace HfRisc.Results

open HfRisc.Mips.Sim

/-- `hi` and `lo` hold the exact products. -/
theorem mult_exact (a b : Word) :
    ((multUnsigned a b).1 ++ (multUnsigned a b).2).toNat = a.toNat * b.toNat ∧
      ((multSigned a b).1 ++ (multSigned a b).2).toInt = a.toInt * b.toInt := by
  constructor
  · have hlt : a.toNat * b.toNat < 2 ^ 32 * 2 ^ 32 :=
      Nat.mul_lt_mul'' a.isLt b.isLt
    rw [multUnsigned_eq, ← Nat.cast_mul, BitVec.ofInt_natCast, BitVec.toNat_ofNat, pow_add,
      Nat.mod_eq_of_lt hlt]
  · have hlow : -2 ^ 62 ≤ a.toInt * b.toInt := BitVec.le_toInt_mul_toInt
    have hhigh : a.toInt * b.toInt ≤ 2 ^ 62 := BitVec.toInt_mul_toInt_le
    rw [multSigned_eq]
    exact BitVec.toInt_ofInt_eq_self (by decide) (by omega) (by omega)

end HfRisc.Results
