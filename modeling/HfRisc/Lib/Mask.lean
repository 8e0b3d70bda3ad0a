import Mathlib.Data.BitVec

/-!
# Masks

C takes the fields of a word out with shifts and masks, and puts them together again with `|`.
Where the fields do not overlap these are quotients, remainders and sums.
-/

namespace HfRisc.Lib

variable {w i n k : ℕ} {x y m : BitVec w}

theorem toNat_or_of_dvd (hx : 2 ^ i ∣ x.toNat) (hy : y.toNat < 2 ^ i) :
    (x ||| y).toNat = x.toNat + y.toNat := by
  obtain ⟨q, hq⟩ := hx
  rw [BitVec.toNat_or, hq, Nat.two_pow_add_eq_or_of_lt hy]

theorem toNat_and_mask (hm : m.toNat = 2 ^ k - 1) : (x &&& m).toNat = x.toNat % 2 ^ k := by
  rw [BitVec.toNat_and, hm, Nat.and_two_pow_sub_one_eq_mod]

theorem getLsbD_mask (hm : m.toNat = 2 ^ k - 1) : m.getLsbD i = decide (i < k) := by
  rw [BitVec.getLsbD, hm, Nat.testBit_two_pow_sub_one]

/-- Under a mask that leaves out the bits shifted in it does not matter what they are. -/
theorem sshiftRight_and_mask (hm : m.toNat = 2 ^ k - 1) (h : n + k ≤ w) :
    x.sshiftRight n &&& m = x >>> n &&& m := by
  apply BitVec.eq_of_getLsbD_eq
  intro i hi
  rw [BitVec.getLsbD_and, BitVec.getLsbD_and, getLsbD_mask hm, BitVec.getLsbD_sshiftRight,
    BitVec.getLsbD_ushiftRight]
  rcases Nat.lt_or_ge i k with hlt | hge
  · rw [if_pos (by omega), decide_eq_false (Nat.not_le_of_lt hi), Bool.not_false, Bool.true_and]
  · rw [decide_eq_false (Nat.not_lt_of_le hge), Bool.and_false, Bool.and_false]

/-- A field of a signed word. -/
theorem toNat_field (hm : m.toNat = 2 ^ k - 1) (h : n + k ≤ w) :
    (x.sshiftRight n &&& m).toNat = x.toNat / 2 ^ n % 2 ^ k := by
  rw [sshiftRight_and_mask hm h, toNat_and_mask hm, BitVec.toNat_ushiftRight,
    Nat.shiftRight_eq_div_pow]

/-- A value below the bit cleared and this bit. -/
theorem toNat_clear (hm : m.toNat = 2 ^ k) (hx : x.toNat < 2 ^ (k + 1)) :
    (x &&& ~~~m).toNat = x.toNat % 2 ^ k := by
  have hk : 2 ^ k < 2 ^ w := hm ▸ m.isLt
  have hmask : (BitVec.ofNat w (2 ^ k - 1)).toNat = 2 ^ k - 1 := by
    rw [BitVec.toNat_ofNat, Nat.mod_eq_of_lt (by omega)]
  have hbit : ∀ i, m.getLsbD i = decide (k = i) := fun i => by
    rw [BitVec.getLsbD, hm, Nat.testBit_two_pow]
  rw [← toNat_and_mask hmask]
  congr 1
  apply BitVec.eq_of_getLsbD_eq
  intro i hi
  rw [BitVec.getLsbD_and, BitVec.getLsbD_and, BitVec.getLsbD_not, getLsbD_mask hmask,
    decide_eq_true hi, Bool.true_and, hbit]
  rcases Nat.lt_trichotomy i k with hlt | rfl | hgt
  · rw [decide_eq_false hlt.ne', decide_eq_true hlt, Bool.not_false]
  · simp
  · have hclear : x.getLsbD i = false := Nat.testBit_lt_two_pow
      (Nat.lt_of_lt_of_le hx (Nat.pow_le_pow_right (by decide) hgt))
    rw [hclear, Bool.false_and, Bool.false_and]

/-- A field with a bit set above it. -/
theorem toNat_or_hidden {h : BitVec w} (hm : m.toNat = 2 ^ k - 1) (hh : h.toNat = 2 ^ k) :
    ((x &&& m) ||| h).toNat = 2 ^ k + x.toNat % 2 ^ k := by
  have hfield := toNat_and_mask (x := x) hm
  have hlt : (x &&& m).toNat < 2 ^ k := by
    rw [hfield]
    exact Nat.mod_lt _ (Nat.two_pow_pos k)
  rw [BitVec.or_comm, toNat_or_of_dvd (by rw [hh]) hlt, hfield, hh]

/-- The test whether a value fits below a place. -/
theorem and_not_mask (hm : m.toNat = 2 ^ k - 1) : x &&& ~~~m = 0#w ↔ x.toNat < 2 ^ k := by
  have hbit : ∀ i < w, (x &&& ~~~m).getLsbD i = (x.getLsbD i && !decide (i < k)) := fun i hi => by
    rw [BitVec.getLsbD_and, BitVec.getLsbD_not, getLsbD_mask hm, decide_eq_true hi, Bool.true_and]
  constructor
  · intro h
    have hle : x &&& m = x := by
      apply BitVec.eq_of_getLsbD_eq
      intro i hi
      have hclear := hbit i hi
      rw [h, BitVec.getLsbD_zero] at hclear
      rw [BitVec.getLsbD_and, getLsbD_mask hm]
      cases hx : x.getLsbD i with
      | false => rfl
      | true => rwa [hx, Bool.true_and, eq_comm, Bool.not_eq_false'] at hclear
    rw [← hle, toNat_and_mask hm]
    exact Nat.mod_lt _ (Nat.two_pow_pos k)
  · intro h
    apply BitVec.eq_of_getLsbD_eq
    intro i hi
    rw [hbit i hi, BitVec.getLsbD_zero]
    rcases Nat.lt_or_ge i k with hlt | hge
    · rw [decide_eq_true hlt, Bool.not_true, Bool.and_false]
    · have hclear : x.getLsbD i = false := Nat.testBit_lt_two_pow
        (Nat.lt_of_lt_of_le h (Nat.pow_le_pow_right (by decide) hge))
      rw [hclear, Bool.false_and]

/-- A value without a sign is shifted as an unsigned one. -/
theorem toNat_sshiftRight (h : 2 * x.toNat < 2 ^ w) :
    (x.sshiftRight n).toNat = x.toNat / 2 ^ n := by
  rw [BitVec.sshiftRight_eq_of_msb_false (BitVec.msb_eq_false_iff_two_mul_lt.mpr h),
    BitVec.toNat_ushiftRight, Nat.shiftRight_eq_div_pow]

/-- A value with a sign is rounded down. -/
theorem sshiftRight_eq_ofInt (x : BitVec w) (n : ℕ) :
    x.sshiftRight n = BitVec.ofInt w (x.toInt / 2 ^ n) := by
  rw [BitVec.sshiftRight, Int.shiftRight_eq_div_pow]
  rfl

/-- Values without a sign are compared as unsigned ones. -/
theorem slt_of_nonneg (hx : 2 * x.toNat < 2 ^ w) (hy : 2 * y.toNat < 2 ^ w) :
    x.slt y = true ↔ x.toNat < y.toNat := by
  rw [BitVec.slt, decide_eq_true_eq, BitVec.toInt_eq_toNat_of_lt hx,
    BitVec.toInt_eq_toNat_of_lt hy, Int.ofNat_lt]

/-- The opposite of a value without a sign. -/
theorem toInt_signed (h : 2 * x.toNat < 2 ^ w) (neg : Bool) :
    (if neg then -x else x).toInt = if neg then -(x.toNat : ℤ) else x.toNat := by
  have hmsb := BitVec.msb_eq_false_iff_two_mul_lt.mpr h
  cases neg with
  | false => exact BitVec.toInt_eq_toNat_of_msb hmsb
  | true =>
    rw [if_pos rfl, if_pos rfl, BitVec.toInt_neg_eq_of_msb hmsb,
      BitVec.toInt_eq_toNat_of_msb hmsb]

/-- A value without its sign. -/
theorem toNat_without_sign (x : BitVec w) :
    (if x.slt 0#w then -x else x).toNat = x.toInt.natAbs := by
  have hlt := x.isLt
  rw [BitVec.slt, BitVec.toInt_zero, BitVec.toInt_eq_toNat_cond]
  split
  · rw [decide_eq_false (by omega), if_neg Bool.false_ne_true, Int.natAbs_natCast]
  · rw [decide_eq_true (by omega), if_pos rfl, BitVec.toNat_neg, Nat.mod_eq_of_lt (by omega)]
    omega

/-- A value from its sign and the rest. -/
theorem eq_of_sign (x : BitVec w) :
    (if x.slt 0#w then -BitVec.ofNat w x.toInt.natAbs else BitVec.ofNat w x.toInt.natAbs) = x := by
  rw [BitVec.slt, BitVec.toInt_zero, ← BitVec.ofInt_natCast]
  by_cases hneg : x.toInt < 0
  · have habs : (x.toInt.natAbs : ℤ) = -x.toInt := by omega
    rw [decide_eq_true hneg, if_pos rfl, habs, BitVec.ofInt_neg, BitVec.neg_neg, BitVec.ofInt_toInt]
  · have habs : (x.toInt.natAbs : ℤ) = x.toInt := by omega
    rw [decide_eq_false hneg, if_neg Bool.false_ne_true, habs, BitVec.ofInt_toInt]

/-- The test of one bit. -/
theorem and_twoPow (hn : n < w) : x &&& BitVec.twoPow w n = 0#w ↔ x.toNat / 2 ^ n % 2 = 0 := by
  have hne : BitVec.twoPow w n ≠ 0#w := fun h => by
    have hnat := congrArg BitVec.toNat h
    rw [BitVec.toNat_twoPow_of_lt hn, BitVec.toNat_ofNat, Nat.zero_mod] at hnat
    exact absurd hnat (Nat.two_pow_pos _).ne'
  rw [BitVec.and_twoPow, BitVec.getLsbD, Nat.testBit_eq_decide_div_mod_eq]
  rcases Nat.mod_two_eq_zero_or_one (x.toNat / 2 ^ n) with heven | hodd
  · rw [heven]
    exact iff_of_true rfl rfl
  · rw [hodd]
    exact iff_of_false hne Nat.one_ne_zero

/-- The test of the highest bit that a value can have. -/
theorem and_twoPow_of_lt (hn : n < w) (hx : x.toNat < 2 ^ (n + 1)) :
    x &&& BitVec.twoPow w n = 0#w ↔ x.toNat < 2 ^ n := by
  have hhalf : x.toNat / 2 ^ n < 2 := by
    rw [Nat.div_lt_iff_lt_mul (Nat.two_pow_pos n), ← Nat.pow_succ']
    exact hx
  rw [and_twoPow hn, Nat.mod_eq_of_lt hhalf, Nat.div_eq_zero_iff]
  have hpos := Nat.two_pow_pos n
  omega

/-- The test of the top bit. -/
theorem and_top (hm : m = BitVec.twoPow w (w - 1)) (hw : 0 < w) : x &&& m = 0 ↔ x.msb = false := by
  have hlt : w - 1 < w := Nat.sub_lt hw Nat.one_pos
  have hword : 2 ^ (w - 1 + 1) = 2 ^ w := by rw [Nat.sub_add_cancel hw]
  have htop : x.toNat < 2 ^ (w - 1 + 1) := hword ▸ x.isLt
  have htest : x &&& m = 0 ↔ x.toNat < 2 ^ (w - 1) := hm ▸ and_twoPow_of_lt hlt htop
  rw [htest, BitVec.msb_eq_false_iff_two_mul_lt, ← hword, Nat.pow_succ']
  omega

end HfRisc.Lib
