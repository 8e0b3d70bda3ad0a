import Mathlib.Data.BitVec

/-!
# Concatenation and slicing as arithmetic

Hardware builds words by concatenating slices. Read as numbers, a concatenation
is `x * 2 ^ n + y` and a slice is a quotient followed by a remainder, so that
equations between such words are linear arithmetic with constant divisors.
The byte lemmas take a 32-bit word apart and put it together again.
-/

namespace HfRisc.Lib

theorem toNat_append {m n : ℕ} (x : BitVec m) (y : BitVec n) :
    (x ++ y).toNat = x.toNat * 2 ^ n + y.toNat := by
  rw [BitVec.toNat_append, Nat.shiftLeft_eq, Nat.mul_comm, Nat.two_pow_add_eq_or_of_lt y.isLt]

theorem toNat_extract {m : ℕ} (x : BitVec m) (k l : ℕ) :
    (x.extractLsb' k l).toNat = x.toNat / 2 ^ k % 2 ^ l := by
  rw [BitVec.extractLsb'_toNat, Nat.shiftRight_eq_div_pow]

/-- A sign extension is a number with copies of the sign on top. -/
theorem eq_signExtend {j k w : ℕ} (h : j + k = w) {v : BitVec k} {y : BitVec w}
    (hy : y.toNat = (if v.msb then 2 ^ j - 1 else 0) * 2 ^ k + v.toNat) :
    y = v.signExtend w := by
  subst h
  have hlt : v.toNat < 2 ^ (j + k) :=
    Nat.lt_of_lt_of_le v.isLt (Nat.pow_le_pow_right (by omega) (by omega))
  apply BitVec.eq_of_toNat_eq
  rw [BitVec.toNat_signExtend, hy, BitVec.toNat_setWidth, Nat.mod_eq_of_lt hlt]
  split
  · rw [Nat.sub_mul, Nat.one_mul, ← Nat.pow_add, Nat.add_comm]
  · omega

/-- A sign extension keeps the low bits. -/
theorem setWidth_signExtend {k l : ℕ} (x : BitVec k) (h : k ≤ l) :
    (x.signExtend l).setWidth k = x := by
  apply BitVec.eq_of_getLsbD_eq
  intro i hi
  have hl : i < l := Nat.lt_of_lt_of_le hi h
  simp [hi, BitVec.getElem_signExtend, hl]

/-! ## Products of words -/

section Products

variable (x y : BitVec 32)

/-- The upper half of a product. -/
theorem extract_ofInt (z : ℤ) :
    (BitVec.ofInt 64 z).extractLsb' 32 32 = BitVec.ofInt 32 (z / 2 ^ 32) := by
  apply BitVec.eq_of_toNat_eq
  rw [toNat_extract, BitVec.toNat_ofInt, BitVec.toNat_ofInt]
  omega

theorem signExtend_mul_signExtend :
    x.signExtend 64 * y.signExtend 64 = BitVec.ofInt 64 (x.toInt * y.toInt) := by
  rw [BitVec.ofInt_mul]
  rfl

theorem signExtend_mul_setWidth :
    x.signExtend 64 * y.setWidth 64 = BitVec.ofInt 64 (x.toInt * y.toNat) := by
  rw [BitVec.ofInt_mul, BitVec.ofInt_natCast, BitVec.ofNat_toNat]
  rfl

theorem setWidth_mul_setWidth :
    x.setWidth 64 * y.setWidth 64 = BitVec.ofInt 64 (x.toNat * y.toNat) := by
  rw [BitVec.ofInt_mul, BitVec.ofInt_natCast, BitVec.ofInt_natCast, BitVec.ofNat_toNat,
    BitVec.ofNat_toNat]

end Products

/-! ## One stage of a barrel shifter -/

section Shifts

variable {w m k : ℕ} (h : m + k = w) (b : Bool) (x y : BitVec w)
include h

/-- A left stage: the low bits move up over zeros. -/
theorem stage_left (hy : y.toNat = (x.extractLsb' 0 m ++ 0#k).toNat) :
    (if b then y else x) = x <<< (k * b.toNat) := by
  subst h
  cases b with
  | false => simp
  | true =>
    apply BitVec.eq_of_toNat_eq
    rw [if_pos rfl, hy, toNat_append, toNat_extract, BitVec.toNat_shiftLeft, Nat.shiftLeft_eq,
      BitVec.toNat_ofNat, Nat.zero_mod, Nat.add_zero, Nat.pow_zero, Nat.div_one, Nat.pow_add,
      Bool.toNat_true, Nat.mul_one, Nat.mul_mod_mul_right]

/-- The high bits, moved down. -/
theorem div_lt_of_split (z : ℕ) (hz : z < 2 ^ w) : z / 2 ^ k < 2 ^ m := by
  rw [Nat.div_lt_iff_lt_mul (Nat.two_pow_pos k), ← Nat.pow_add, h]
  exact hz

/-- A right stage that fills in zeros. -/
theorem stage_right (hy : y.toNat = (0#k ++ x.extractLsb' k m).toNat) :
    (if b then y else x) = x >>> (k * b.toNat) := by
  cases b with
  | false => simp
  | true =>
    apply BitVec.eq_of_toNat_eq
    rw [if_pos rfl, hy, toNat_append, toNat_extract, BitVec.toNat_ushiftRight,
      Nat.shiftRight_eq_div_pow, BitVec.toNat_ofNat, Nat.zero_mod, Nat.zero_mul, Nat.zero_add,
      Bool.toNat_true, Nat.mul_one, Nat.mod_eq_of_lt (div_lt_of_split h _ x.isLt)]

omit h in
/-- Complementing before and after a division fills the quotient with ones. -/
theorem complement_div {K M z : ℕ} (hz : z < M * K) :
    M * K - 1 - (M * K - 1 - z) / K = (K - 1) * M + z / K := by
  have hK : 0 < K := Nat.pos_of_mul_pos_left (Nat.zero_lt_of_lt hz)
  have hq : z / K < M := (Nat.div_lt_iff_lt_mul hK).mpr hz
  have hr : z % K < K := Nat.mod_lt z hK
  have hsplit : M * K - 1 - z = K * (M - 1 - z / K) + (K - 1 - z % K) := by
    have hz' := Nat.div_add_mod z K
    have hmul : K * (M - 1 - z / K) + K * (z / K) + K = M * K := by
      rw [← Nat.mul_add, ← Nat.mul_succ, Nat.mul_comm K]
      congr 1
      omega
    omega
  have hdiv : (M * K - 1 - z) / K = M - 1 - z / K := by
    have hrest : (K - 1 - z % K) / K = 0 := Nat.div_eq_of_lt (by omega)
    rw [hsplit, Nat.mul_add_div hK, hrest, Nat.add_zero]
  have hexp : (K - 1) * M + M = M * K := by
    rw [← Nat.succ_mul, Nat.succ_eq_add_one, Nat.sub_add_cancel hK, Nat.mul_comm]
  rw [hdiv, ← hexp]
  clear hdiv hsplit
  generalize z / K = q at hq ⊢
  omega

/-- A right stage that fills in ones, on a word with its top bit set. -/
theorem stage_ones (hx : x.msb = true)
    (hy : y.toNat = (BitVec.allOnes k ++ x.extractLsb' k m).toNat) :
    (if b then y else x) = x.sshiftRight (k * b.toNat) := by
  cases b with
  | false => simp
  | true =>
    have hlt : x.toNat < 2 ^ m * 2 ^ k := by rw [← Nat.pow_add, h]; exact x.isLt
    apply BitVec.eq_of_toNat_eq
    rw [if_pos rfl, hy, toNat_append, toNat_extract, BitVec.sshiftRight_eq_of_msb_true hx,
      BitVec.toNat_not, BitVec.toNat_ushiftRight, BitVec.toNat_not, Nat.shiftRight_eq_div_pow,
      Bool.toNat_true, Nat.mul_one, Nat.mod_eq_of_lt (div_lt_of_split h _ x.isLt),
      BitVec.toNat_allOnes, ← complement_div hlt, ← Nat.pow_add, h]

end Shifts

section Bytes

variable (a b c d : BitVec 8)

theorem byte0 : (a ++ b ++ c ++ d).extractLsb' 0 8 = d := by
  apply BitVec.eq_of_toNat_eq
  simp only [toNat_append, toNat_extract]
  omega

theorem byte1 : (a ++ b ++ c ++ d).extractLsb' 8 8 = c := by
  apply BitVec.eq_of_toNat_eq
  simp only [toNat_append, toNat_extract]
  omega

theorem byte2 : (a ++ b ++ c ++ d).extractLsb' 16 8 = b := by
  apply BitVec.eq_of_toNat_eq
  simp only [toNat_append, toNat_extract]
  omega

theorem byte3 : (a ++ b ++ c ++ d).extractLsb' 24 8 = a := by
  apply BitVec.eq_of_toNat_eq
  simp only [toNat_append, toNat_extract]
  omega

/-- A word is the concatenation of its bytes. -/
theorem append_bytes (w : BitVec 32) :
    w.extractLsb' 24 8 ++ w.extractLsb' 16 8 ++ w.extractLsb' 8 8 ++ w.extractLsb' 0 8 = w := by
  apply BitVec.eq_of_toNat_eq
  simp only [toNat_append, toNat_extract]
  omega

end Bytes

end HfRisc.Lib
