import HfRisc.Lib.Bits
import HfRisc.Lib.Mask
import Mathlib.Algebra.Order.Ring.Int
import Mathlib.Tactic.LinearCombination
import Mathlib.Tactic.Ring

/-!
# Multiplication one bit at a time and by halves

A serial multiplier of word size `k = 2 ^ w` shifts the second factor out of the
low half of a double word while it adds the first one to the high half. After `c`
bits the register holds `partialProduct k a u` with `u = b * 2 ^ (w - c)`: the
low digit of `u` in base `k` has been multiplied, its high digit has not. One bit
halves `u`. Dropping an even number halves the register (`two_mul_shift`), an odd
one adds the first factor before (`two_mul_add`), and the last bit of a signed
factor subtracts it (`two_mul_sub`).

A product of two words of 32 bits from the four products of their halves. The columns are added
with their carries, and each of the mixed products is cut into what belongs to the upper word and
what belongs to the lower one. This is the same for words with a sign and without one: only the
integers that the mixed products stand for are different.
-/

namespace HfRisc.Lib

/-- The low digit of `u` multiplied by `a`, and the high digit as it is. -/
def partialProduct (k : ℕ) (a : ℤ) (u : ℕ) : ℤ := a * (u % k : ℕ) + (u / k : ℕ)

namespace PartialProduct

variable {k u : ℕ} {a : ℤ}

/-- At first nothing is multiplied. -/
theorem start (hk : 0 < k) (a : ℤ) (b : ℕ) : partialProduct k a (b * k) = b := by
  rw [partialProduct, Nat.mul_mod_left, Nat.mul_div_cancel b hk]
  simp

/-- In the end everything is. -/
theorem done (h : u < k) : partialProduct k a u = a * u := by
  rw [partialProduct, Nat.mod_eq_of_lt h, Nat.div_eq_of_lt h]
  simp

/-- The bit that leaves the high digit when `u` is halved. -/
def carry (k v : ℕ) : ℕ := 2 * v / (2 * k) % 2

variable (k a) (v : ℕ)

/-- Halving `u` halves the register, after adding `a` to its high half for a one
bit. -/
theorem halve :
    2 * partialProduct (2 * k) a v =
      partialProduct (2 * k) a (2 * v) + carry k v * (a * (2 * k : ℕ) - 1) := by
  have hdiv : 2 * v / (2 * k) = v / k := Nat.mul_div_mul_left v k (by omega)
  have hlow : 2 * v % (2 * k) = 2 * (v % k) := Nat.mul_mod_mul_left 2 v k
  have hmod : v % (2 * k) = v % k + k * (v / k % 2) := by rw [Nat.mul_comm 2 k, Nat.mod_mul]
  have hhigh : v / (2 * k) = v / k / 2 := by rw [Nat.mul_comm 2 k, Nat.div_div_eq_div_mul]
  rw [partialProduct, partialProduct, carry, hdiv, hlow, hmod, hhigh]
  generalize v / k = t
  have ht : (t : ℤ) = 2 * (t / 2 : ℕ) + (t % 2 : ℕ) := by omega
  push_cast at ht ⊢
  linear_combination -ht

/-- The lowest bit of the register is the next bit of the second factor. -/
theorem emod_two : partialProduct (2 * k) a (2 * v) % 2 = carry k v := by
  have h := halve k a v
  have hlt : carry k v < 2 := Nat.mod_lt _ (by omega)
  push_cast at h
  have heven : (carry k v : ℤ) * (a * (2 * k) - 1) = 2 * (carry k v * a * k) - carry k v := by ring
  omega

/-- A run of zero bits. -/
theorem shift (j : ℕ) (h : (2 : ℤ) ^ j ∣ partialProduct (2 * k) a (2 ^ j * v)) :
    2 ^ j * partialProduct (2 * k) a v = partialProduct (2 * k) a (2 ^ j * v) := by
  induction j with
  | zero => simp
  | succ j ih =>
    have hsplit : 2 ^ (j + 1) * v = 2 * (2 ^ j * v) := by rw [pow_succ']; ring
    rw [hsplit] at h ⊢
    have hzero : carry k (2 ^ j * v) = 0 := by
      have h2 : (2 : ℤ) ∣ partialProduct (2 * k) a (2 * (2 ^ j * v)) :=
        (Dvd.intro_left (2 ^ j) (pow_succ 2 j).symm).trans h
      have hmod := emod_two k a (2 ^ j * v)
      omega
    have hhalf := halve k a (2 ^ j * v)
    rw [hzero, Nat.cast_zero, zero_mul, add_zero] at hhalf
    rw [← hhalf, pow_succ'] at h
    rw [← hhalf, ← ih (Int.dvd_of_mul_dvd_mul_left (by norm_num) h), pow_succ', mul_assoc]

end PartialProduct

end HfRisc.Lib

/-! ## Multiplication by halves -/

namespace HfRisc.Lib

namespace Halves

/-- The middle column: the lower halves of the mixed products, and what the lowest one carries. -/
def middle (c0 mixed mixed' : BitVec 32) : BitVec 32 :=
  (mixed &&& 0xffff) + (mixed' &&& 0xffff) + (c0 >>> (16 : ℕ))

/-- The upper word: the highest product, the upper halves of the mixed ones and the carry. -/
def upper (c2 half half' c1 : BitVec 32) : BitVec 32 := c2 + (half + half') + (c1 >>> (16 : ℕ))

/-- The lower word. -/
def lower (c0 c1 : BitVec 32) : BitVec 32 := (c1 <<< (16 : ℕ)) + (c0 &&& 0xffff)

theorem toNat_and_ofInt (z : ℤ) :
    ((BitVec.ofInt 32 z &&& 0xffff).toNat : ℤ) = z % 2 ^ 16 := by
  rw [toNat_and_mask (k := 16) (by decide), BitVec.toNat_ofInt]
  omega

/-- An upper word with an integer, and the lower one. -/
theorem append_ofInt (z : ℤ) (lo : BitVec 32) :
    BitVec.ofInt 32 z ++ lo = BitVec.ofInt 64 (z * 2 ^ 32 + lo.toNat) := by
  have hlt := lo.isLt
  apply BitVec.eq_of_toNat_eq
  rw [toNat_append, BitVec.toNat_ofInt, BitVec.toNat_ofInt]
  omega

/-- The columns add up to the product. -/
theorem columns {c0 mixed mixed' c2 half half' : BitVec 32} {m m' h : ℤ}
    (hmixed : mixed = BitVec.ofInt 32 m) (hmixed' : mixed' = BitVec.ofInt 32 m')
    (hhalf : half = BitVec.ofInt 32 (m / 2 ^ 16)) (hhalf' : half' = BitVec.ofInt 32 (m' / 2 ^ 16))
    (hc2 : c2 = BitVec.ofInt 32 h) :
    upper c2 half half' (middle c0 mixed mixed') ++ lower c0 (middle c0 mixed mixed') =
      BitVec.ofInt 64 (h * 2 ^ 32 + (m + m') * 2 ^ 16 + c0.toNat) := by
  have hlow := toNat_and_ofInt m
  have hlow' := toNat_and_ofInt m'
  have hc0 := c0.isLt
  -- three summands of 16 bits do not overflow
  have hmiddle : ((middle c0 mixed mixed').toNat : ℤ) =
      m % 2 ^ 16 + m' % 2 ^ 16 + c0.toNat / 2 ^ 16 := by
    rw [middle, hmixed, hmixed', BitVec.toNat_add, BitVec.toNat_add, BitVec.toNat_ushiftRight,
      Nat.shiftRight_eq_div_pow]
    omega
  have hcarry : middle c0 mixed mixed' >>> (16 : ℕ) =
      BitVec.ofInt 32 ((m % 2 ^ 16 + m' % 2 ^ 16 + c0.toNat / 2 ^ 16) / 2 ^ 16) := by
    apply BitVec.eq_of_toNat_eq
    rw [BitVec.toNat_ushiftRight, Nat.shiftRight_eq_div_pow, BitVec.toNat_ofInt]
    omega
  have hlower : ((lower c0 (middle c0 mixed mixed')).toNat : ℤ) =
      (m % 2 ^ 16 + m' % 2 ^ 16 + c0.toNat / 2 ^ 16) % 2 ^ 16 * 2 ^ 16 + c0.toNat % 2 ^ 16 := by
    have hmask : (c0 &&& 0xffff).toNat = c0.toNat % 2 ^ 16 := toNat_and_mask (by decide)
    rw [lower, BitVec.toNat_add, BitVec.toNat_shiftLeft, Nat.shiftLeft_eq, hmask]
    omega
  rw [upper, hc2, hhalf, hhalf', hcarry, ← BitVec.ofInt_add, ← BitVec.ofInt_add,
    ← BitVec.ofInt_add, append_ofInt, hlower]
  congr 1
  omega

end Halves

end HfRisc.Lib
