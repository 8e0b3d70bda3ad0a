import HfRisc.Results.SoftFloatProduct
import HfRisc.Results.SoftFloatQuotient
import HfRisc.Soft.Float

/-!
# Signs and comparisons of floating-point numbers

The exponent is packed next to the sign without a test of its range. In a `float` what goes beyond
its field is or-ed into the sign, in a `double` it is added to it. The exponents of products and
quotients reach from one range below that of the field to one above it, and in both of them the bit
that lies on the sign is set.

`__cmpsf2` compares the bits of two floats as integers, and the other way round where both are
negative, which is the order of the numbers. `__cmpdf2` does not turn the result round. The
functions on doubles compare with it what is left of their arguments as floats.
-/

namespace HfRisc.Soft

open HfRisc.Lib (Format)

/-! ## The bit that lies on the sign -/

/-- The bit next to a field of `k` bits. -/
theorem getLsbD_ofInt {e : ℤ} {k : ℕ} (hk : k < 32) (hlow : -2 ^ k ≤ e) (hhigh : e < 2 ^ (k + 1)) :
    (BitVec.ofInt 32 e).getLsbD k = !decide (0 ≤ e ∧ e < 2 ^ k) := by
  have hbit : ∀ n q : ℕ, q * 2 ^ k ≤ n → n < (q + 1) * 2 ^ k → n.testBit k = decide (q % 2 = 1) :=
    fun n q hle hlt => by
      rw [Nat.testBit_eq_decide_div_mod_eq, Nat.div_eq_of_lt_le hle hlt]
  have hnat : (2 : ℤ) ^ k = (2 ^ k : ℕ) := by push_cast; rfl
  have hword : 2 ^ 32 = 2 * 2 ^ (31 - k) * 2 ^ k := by
    rw [Nat.mul_assoc, ← Nat.pow_add, Nat.sub_add_cancel (by omega)]
    rfl
  have hsmall : 2 ^ k ≤ 2 ^ 31 := Nat.pow_le_pow_right (by decide) (by omega)
  have hpos := Nat.two_pow_pos (31 - k)
  rw [BitVec.getLsbD, BitVec.toNat_ofInt]
  rw [hnat] at hlow
  rw [pow_succ, hnat] at hhigh
  rw [hnat]
  rcases lt_or_ge e 0 with hneg | hnonneg
  · -- one below the word, all of its upper bits are set
    have hmod : (e % (2 ^ 32 : ℕ)).toNat = (e + (2 ^ 32 : ℕ)).toNat := by omega
    have hupper : (2 * 2 ^ (31 - k) - 1 + 1) * 2 ^ k = 2 ^ 32 := by
      rw [Nat.sub_add_cancel (by omega), ← hword]
    have hlower : (2 * 2 ^ (31 - k) - 1) * 2 ^ k + 2 ^ k = 2 ^ 32 := by
      rw [← hupper, Nat.add_mul, Nat.one_mul]
    rw [hmod, hbit _ (2 * 2 ^ (31 - k) - 1) (by omega) (by omega),
      decide_eq_false (show ¬(0 ≤ e ∧ _) by omega), decide_eq_true (by omega)]
    rfl
  · have hmod : (e % (2 ^ 32 : ℕ)).toNat = e.toNat := by omega
    rw [hmod]
    by_cases hlt : e < (2 ^ k : ℕ)
    · rw [hbit _ 0 (by omega) (by omega), decide_eq_true (show 0 ≤ e ∧ _ from ⟨hnonneg, hlt⟩)]
      rfl
    · rw [hbit _ 1 (by omega) (by omega), decide_eq_false (show ¬(0 ≤ e ∧ _) by omega)]
      rfl

/-- The sign of a packed `float`. -/
theorem msb_pack_single {neg : Bool} {e : ℤ} {m : Word} (hm : m.toNat < 2 ^ 23)
    (hlow : -2 ^ 8 ≤ e) (hhigh : e < 2 ^ 9) :
    (single.pack (signOf neg) e m).msb = (neg || !decide (0 ≤ e ∧ e < 2 ^ 8)) := by
  have hpack : single.pack (signOf neg) e m = signOf neg ||| BitVec.ofInt 32 e <<< 23 ||| m := rfl
  have hsign : (signOf neg).msb = neg := by cases neg <;> rfl
  have hfraction : m.msb = false := by
    rw [BitVec.msb_eq_decide]
    exact decide_eq_false (by omega)
  have hexp : (BitVec.ofInt 32 e <<< 23).msb = (BitVec.ofInt 32 e).getLsbD 8 := by
    rw [BitVec.msb_shiftLeft, BitVec.getMsbD]
    rfl
  rw [hpack, BitVec.msb_or, BitVec.msb_or, hsign, hfraction, hexp,
    getLsbD_ofInt (by decide) hlow hhigh, Bool.or_false]

/-- The sign of a packed `double`. -/
theorem msb_pack_double {neg : Bool} {e : ℤ} {m : BitVec 64} (hm : m.toNat < 2 ^ 52)
    (hlow : -2 ^ 11 ≤ e) (hhigh : e < 2 ^ 12) :
    (double.pack (signOf neg) e m).msb = (neg ^^ !decide (0 ≤ e ∧ e < 2 ^ 11)) := by
  have hpack : double.pack (signOf neg) e m = packdLl (signOf neg) (BitVec.ofInt 32 e) m := rfl
  have hnat := toNat_packdLl (signOf neg) (BitVec.ofInt 32 e) (by cases neg <;> decide) hm
  have hexp := getLsbD_ofInt (by decide) hlow hhigh
  rw [BitVec.getLsbD, Nat.testBit_eq_decide_div_mod_eq] at hexp
  rw [hpack, BitVec.msb_eq_decide, hnat, ← hexp, toNat_signOf]
  generalize (BitVec.ofInt 32 e).toNat = x
  have hodd := Nat.mod_two_eq_zero_or_one (x / 2 ^ 11)
  cases neg
  · rw [if_neg Bool.false_ne_true, Bool.false_xor, decide_eq_decide]
    omega
  · rw [if_pos rfl, Bool.true_xor, ← decide_not, decide_eq_decide]
    omega

/-! ## The exponents of products and quotients -/

section Fits

variable {w : ℕ} {M : Macros w} {P : Multiplier w} {F : Format} {a b : BitVec w}

/-- The exponents of the operands leave that of the product in its field. -/
def ProductFits (P : Multiplier w) (F : Format) (a b : BitVec w) : Prop :=
  F.bias ≤ F.exponent a + F.exponent b +
      (if Reaches F.fracBits P.dropHigh (cutProduct P F a b) then 1 else 0) ∧
    F.exponent a + F.exponent b +
      (if Reaches F.fracBits P.dropHigh (cutProduct P F a b) then 1 else 0) <
        F.bias + 2 ^ (w - 1 - F.fracBits)

/-- The exponents of the operands leave that of the quotient in its field. -/
def QuotientFits (F : Format) (a b : BitVec w) : Prop :=
  F.exponent b + (if F.significand a < F.significand b then 1 else 0) ≤ F.exponent a + F.bias ∧
    F.exponent a + F.bias < F.exponent b +
      (if F.significand a < F.significand b then 1 else 0) + 2 ^ (w - 1 - F.fracBits)

instance : Decidable (ProductFits P F a b) := inferInstanceAs (Decidable (_ ∧ _))

instance : Decidable (QuotientFits F a b) := inferInstanceAs (Decidable (_ ∧ _))

theorem productFits_iff : ProductFits P F a b ↔
    0 ≤ productExponent P F a b ∧ productExponent P F a b < 2 ^ (w - 1 - F.fracBits) := by
  have hnat : (2 : ℤ) ^ (w - 1 - F.fracBits) = (2 ^ (w - 1 - F.fracBits) : ℕ) := by push_cast; rfl
  rw [ProductFits, productExponent, hnat]
  split <;> omega

theorem quotientFits_iff : QuotientFits F a b ↔
    0 ≤ quotientExponent F a b ∧ quotientExponent F a b < 2 ^ (w - 1 - F.fracBits) := by
  have hnat : (2 : ℤ) ^ (w - 1 - F.fracBits) = (2 ^ (w - 1 - F.fracBits) : ℕ) := by push_cast; rfl
  rw [QuotientFits, quotientExponent, hnat]
  split <;> omega

/-- The exponent of a product is at most one field away from its own. -/
theorem productExponent_bounds (hbias : 2 * (F.bias + 1) = 2 ^ (w - 1 - F.fracBits))
    (ha : F.IsNormal a) (hb : F.IsNormal b) :
    -2 ^ (w - 1 - F.fracBits) ≤ productExponent P F a b ∧
      productExponent P F a b < 2 ^ (w - 1 - F.fracBits + 1) := by
  have hnat : (2 : ℤ) ^ (w - 1 - F.fracBits) = (2 ^ (w - 1 - F.fracBits) : ℕ) := by push_cast; rfl
  have hle := ha.le_top
  have hle' := hb.le_top
  rw [Format.top] at hle hle'
  rw [productExponent, pow_succ, hnat]
  split <;> omega

/-- The exponent of a quotient is at most one field away from its own. -/
theorem quotientExponent_bounds (hbias : 2 * (F.bias + 1) = 2 ^ (w - 1 - F.fracBits))
    (ha : F.IsNormal a) (hb : F.IsNormal b) :
    -2 ^ (w - 1 - F.fracBits) ≤ quotientExponent F a b ∧
      quotientExponent F a b < 2 ^ (w - 1 - F.fracBits + 1) := by
  have hnat : (2 : ℤ) ^ (w - 1 - F.fracBits) = (2 ^ (w - 1 - F.fracBits) : ℕ) := by push_cast; rfl
  have hle := ha.le_top
  have hle' := hb.le_top
  have hpos := ha.pos
  have hpos' := hb.pos
  rw [Format.top] at hle hle'
  rw [quotientExponent, pow_succ, hnat]
  split <;> omega

end Fits

end HfRisc.Soft

namespace HfRisc.Results

open HfRisc.Soft HfRisc.Lib

/-- The sign of a product or a quotient is the exclusive or of the signs where the exponent fits.
In a `float` a set sign is kept as well. -/
theorem float_signs {fuel : ℕ} (hfuel : 54 < fuel) :
    (∀ a b : Word, binary32.IsNormal a → binary32.IsNormal b →
      ((mulsf3 a b).msb = (a.msb ^^ b.msb) ↔
        a.msb ≠ b.msb ∨ ProductFits multiplier32 binary32 a b) ∧
      ∃ r, divsf3 fuel a b = some r ∧
        (r.msb = (a.msb ^^ b.msb) ↔ a.msb ≠ b.msb ∨ QuotientFits binary32 a b)) ∧
    (∀ a b : BitVec 64, binary64.IsNormal a → binary64.IsNormal b →
      ((muldf3 a b).msb = (a.msb ^^ b.msb) ↔ ProductFits multiplier64 binary64 a b) ∧
      ∃ r, divdf3 fuel a b = some r ∧
        (r.msb = (a.msb ^^ b.msb) ↔ QuotientFits binary64 a b)) := by
  constructor
  · intro a b ha hb
    -- the bit on the sign is or-ed into it
    have hor : ∀ (neg out : Bool), (neg || !out) = neg ↔ neg = true ∨ out = true := by decide
    have hdiffer : (a.msb ^^ b.msb) = true ↔ a.msb ≠ b.msb := bne_iff_ne
    constructor
    · obtain ⟨m, hm, hfraction⟩ := multiply_eq lawful_single multiplier32_lawful a b
      have hround := ((cutProduct_bounds multiplier32_lawful a b).rounded_bounds (by decide)).2
      obtain ⟨hlow, hhigh⟩ := productExponent_bounds (P := multiplier32) rfl ha hb
      rw [mulsf3_eq ha hb, hm, msb_pack_single
        (Nat.lt_of_add_lt_add_left (hfraction.trans_lt hround)) hlow hhigh, hor, hdiffer,
        decide_eq_true_eq, productFits_iff]
      rfl
    · obtain ⟨q, m, -, -, hm, hfraction⟩ := divide_eq lawful_single FloatDivision.compares_slt
        (show (0x1000000 : Word).toNat = 2 ^ (binary32.fracBits + 1) by decide)
        (lt_trans (by decide) hfuel) a b
      have hround := (roundedQuotient_bounds (F := binary32) a b).2
      obtain ⟨hlow, hhigh⟩ := quotientExponent_bounds rfl ha hb
      refine ⟨_, (divsf3_eq ha hb).trans hm, ?_⟩
      rw [msb_pack_single (Nat.lt_of_add_lt_add_left (hfraction.trans_lt hround)) hlow hhigh, hor,
        hdiffer, decide_eq_true_eq, quotientFits_iff]
      rfl
  · intro a b ha hb
    -- the bit on the sign is added to it
    have hxor : ∀ (neg out : Bool), (neg ^^ !out) = neg ↔ out = true := by decide
    constructor
    · obtain ⟨m, hm, hfraction⟩ := multiply_eq lawful_double multiplier64_lawful a b
      have hround := ((cutProduct_bounds multiplier64_lawful a b).rounded_bounds (by decide)).2
      obtain ⟨hlow, hhigh⟩ := productExponent_bounds (P := multiplier64) rfl ha hb
      rw [muldf3_eq ha hb, hm, msb_pack_double
        (Nat.lt_of_add_lt_add_left (hfraction.trans_lt hround)) hlow hhigh, hxor,
        decide_eq_true_eq, productFits_iff]
      rfl
    · obtain ⟨q, m, -, -, hm, hfraction⟩ := divide_eq lawful_double FloatDivision.compares_ult
        (show ((1 : BitVec 64) <<< 53).toNat = 2 ^ (binary64.fracBits + 1) by decide) hfuel a b
      have hround := (roundedQuotient_bounds (F := binary64) a b).2
      obtain ⟨hlow, hhigh⟩ := quotientExponent_bounds rfl ha hb
      refine ⟨_, (divdf3_eq ha hb).trans hm, ?_⟩
      rw [msb_pack_double (Nat.lt_of_add_lt_add_left (hfraction.trans_lt hround)) hlow hhigh, hxor,
        decide_eq_true_eq, quotientFits_iff]
      rfl

/-- 1.5 times 2.5, and 1.5 by 2.5, as floats and as doubles, the latter with a sign. -/
theorem float_signs_ordinary :
    ((mulsf3 0x3FC00000 0x40200000).msb = false ∧
      ∃ r, divsf3 55 0x3FC00000 0x40200000 = some r ∧ r.msb = false) ∧
    (muldf3 0xBFF8000000000000 0x4004000000000000).msb = true ∧
      ∃ r, divdf3 55 0xBFF8000000000000 0x4004000000000000 = some r ∧ r.msb = true := by
  obtain ⟨hsingle, hdouble⟩ := float_signs (show 54 < 55 by decide)
  obtain ⟨hmul, q, hq, hdiv⟩ := hsingle 0x3FC00000 0x40200000 (by decide) (by decide)
  obtain ⟨hmuld, r, hr, hdivd⟩ := hdouble 0xBFF8000000000000 0x4004000000000000 (by decide)
    (by decide)
  refine ⟨⟨hmul.mpr (.inr (by decide)), q, hq, hdiv.mpr (.inr (by decide))⟩,
    hmuld.mpr (by decide), r, hr, hdivd.mpr (by decide)⟩

/-- The square of 2 ^ 100 is negative. -/
theorem float_signs_lost : ¬∀ a b : Word, binary32.IsNormal a → binary32.IsNormal b →
    (mulsf3 a b).msb = (a.msb ^^ b.msb) := fun h =>
  absurd (h 0x71800000 0x71800000 (by decide) (by decide)) (by decide)

end HfRisc.Results

/-! ## Comparisons of floating-point numbers -/

namespace HfRisc.Soft

open HfRisc.Lib (Format)

/-! ## `float` -/

section Floats

variable {a b : Word} (ha : binary32.Comparable a) (hb : binary32.Comparable b)
include ha hb

theorem cmpsf2_value : cmpsf2 a b = threeWay (binary32.value a) (binary32.value b) := by
  rw [cmpsf2_eq]
  split
  · next hboth =>
    exact threeWay_congr (Format.value_lt_neg (by decide) hboth.1 hboth.2).symm
      (Format.value_lt_neg (by decide) hboth.2 hboth.1).symm
  · next hboth =>
    exact threeWay_congr (ha.value_lt hb (by decide) hboth).symm
      (hb.value_lt ha (by decide) fun h => hboth h.symm).symm

theorem agree_float : Agree (ltsf2 a b) (lesf2 a b) (gtsf2 a b) (gesf2 a b)
    (binary32.value a) (binary32.value b) := by
  rw [ltsf2, lesf2, gtsf2, gesf2, cmpsf2_value ha hb]
  exact ⟨lt_convention, le_convention, gt_convention, ge_convention⟩

end Floats

/-! ## `double` -/

variable {a b : BitVec 64}

/-- What is left of two doubles as floats keeps its order as doubles. -/
theorem cmpdf2_throughFloat (a b : BitVec 64) :
    cmpdf2 (throughFloat a) (throughFloat b) = threeWay (narrowed a) (narrowed b) := by
  rw [cmpdf2_eq, throughFloat, throughFloat, ← toInt_truncdfsf2, ← toInt_truncdfsf2]
  exact threeWay_congr extendsfdf2_lt extendsfdf2_lt

/-- What is left of two doubles has the order of their bits. -/
def SameOrder (a b : BitVec 64) : Prop :=
  (narrowed a < narrowed b ↔ a.toInt < b.toInt) ∧ (narrowed b < narrowed a ↔ b.toInt < a.toInt)

theorem agree_narrowed : Agree (ltdf2 a b) (ledf2 a b) (gtdf2 a b) (gedf2 a b)
      (binary64.value a) (binary64.value b) ↔
    (narrowed a < narrowed b ↔ binary64.value a < binary64.value b) ∧
      (narrowed b < narrowed a ↔ binary64.value b < binary64.value a) := by
  rw [ltdf2, ledf2, gtdf2, gedf2, cmpdf2_throughFloat]
  constructor
  · intro h
    exact ⟨lt_convention.symm.trans h.lt_iff, gt_convention.symm.trans h.gt_iff⟩
  · rintro ⟨hlt, hgt⟩
    exact ⟨lt_convention.trans hlt, le_convention.trans (not_lt.symm.trans (hgt.not.trans not_lt)),
      gt_convention.trans hgt, ge_convention.trans (not_lt.symm.trans (hlt.not.trans not_lt))⟩

/-- `__cmpdf2` has the sign of the comparison. -/
def CmpRight (a b : BitVec 64) : Prop :=
  ((cmpdf2 a b).toInt < 0 ↔ binary64.value a < binary64.value b) ∧
    (0 < (cmpdf2 a b).toInt ↔ binary64.value b < binary64.value a)

section Doubles

variable (ha : binary64.Comparable a) (hb : binary64.Comparable b)
include ha hb

theorem cmpRight_iff : CmpRight a b ↔ a = b ∨ ¬(a.msb = true ∧ b.msb = true) := by
  rw [CmpRight, cmpdf2_eq, toInt_threeWay_neg, toInt_threeWay_pos]
  by_cases hboth : a.msb = true ∧ b.msb = true
  · rw [Format.value_lt_neg (by decide) hboth.1 hboth.2,
      Format.value_lt_neg (by decide) hboth.2 hboth.1]
    constructor
    · rintro ⟨h, -⟩
      exact .inl (BitVec.eq_of_toInt_eq (by omega))
    · rintro (rfl | h)
      · exact ⟨Iff.rfl, Iff.rfl⟩
      · exact absurd hboth h
  · rw [ha.value_lt hb (by decide) hboth, hb.value_lt ha (by decide) fun h => hboth h.symm]
    exact iff_of_true ⟨Iff.rfl, Iff.rfl⟩ (.inr hboth)

theorem agree_iff (hsign : ¬(a.msb = true ∧ b.msb = true)) :
    Agree (ltdf2 a b) (ledf2 a b) (gtdf2 a b) (gedf2 a b)
      (binary64.value a) (binary64.value b) ↔ SameOrder a b := by
  rw [agree_narrowed, ha.value_lt hb (by decide) hsign,
    hb.value_lt ha (by decide) fun h => hsign h.symm]
  rfl

end Doubles

/-! ### Doubles in the range of the floats -/

/-- Zero, or a number that is rounded to a magnitude of a float. -/
def InRange (a : BitVec 64) : Prop := a = 0 ∨ (0 < rebased a ∧ rebased a < 2 ^ 31)

/-- In this range the exponent does not wrap. -/
theorem narrowed_of_range (h : InRange a) (hmsb : a.msb = false) :
    narrowed a = if a = 0 then 0 else rebased a := by
  rw [narrowed]
  rcases h with rfl | ⟨hlow, hhigh⟩
  · rfl
  · rw [hmsb, if_neg Bool.false_ne_true]
    split
    · rfl
    · exact Int.bmod_eq_of_le (by omega) (by omega)

theorem narrowed_neg (hmsb : a.msb = true) : narrowed a < 0 := by
  have hne : a ≠ 0 := fun h => by
    rw [h] at hmsb
    exact absurd hmsb (by decide)
  rw [narrowed, if_neg hne, if_pos hmsb]
  omega

theorem narrowed_nonneg (h : InRange a) (hmsb : a.msb = false) : 0 ≤ narrowed a := by
  rw [narrowed_of_range h hmsb]
  rcases h with rfl | ⟨hlow, -⟩
  · exact Int.le_refl 0
  · split <;> omega

/-- Rounding keeps the order of two numbers, or makes them equal. -/
theorem narrowed_mono (ha : InRange a) (hb : InRange b) (hsa : a.msb = false) (hsb : b.msb = false)
    (hlt : a.toInt < b.toInt) : narrowed a ≤ narrowed b := by
  have hma := Lib.toInt_of_msb_false (by decide) hsa
  have hmb := Lib.toInt_of_msb_false (by decide) hsb
  have hb0 : b ≠ 0 := fun h => by
    have hzero : (0 : BitVec 64).toInt = 0 := rfl
    rw [h, hzero] at hlt
    omega
  rw [narrowed_of_range ha hsa, narrowed_of_range hb hsb, if_neg hb0]
  rcases hb with rfl | ⟨hlow, -⟩
  · exact absurd rfl hb0
  · split
    · exact Int.le_of_lt hlow
    · rw [rebased, rebased]
      omega

/-- Two numbers of which at most one is negative are in the same order unless they differ and
are rounded to the same float. -/
theorem sameOrder_of_range (hra : InRange a) (hrb : InRange b)
    (hsign : ¬(a.msb = true ∧ b.msb = true)) :
    SameOrder a b ↔ (narrowed a = narrowed b → a = b) := by
  rw [SameOrder]
  have hinj : a = b ↔ a.toInt = b.toInt := BitVec.toInt_inj.symm
  rw [hinj]
  cases hsa : a.msb with
  | true =>
    have hsb : b.msb = false := Bool.eq_false_iff.mpr fun h => hsign ⟨hsa, h⟩
    have hna := narrowed_neg hsa
    have hnb := narrowed_nonneg hrb hsb
    have hma := BitVec.toInt_neg_of_msb_true hsa
    have hmb := BitVec.toInt_nonneg_of_msb_false hsb
    omega
  | false =>
    have hna := narrowed_nonneg hra hsa
    cases hsb : b.msb with
    | true =>
      have hnb := narrowed_neg hsb
      have hma := BitVec.toInt_nonneg_of_msb_false hsa
      have hmb := BitVec.toInt_neg_of_msb_true hsb
      omega
    | false =>
      have hab := narrowed_mono hra hrb hsa hsb
      have hba := narrowed_mono hrb hra hsb hsa
      have heq : a.toInt = b.toInt → narrowed a = narrowed b := fun h =>
        congrArg narrowed (hinj.mpr h)
      omega

end HfRisc.Soft

namespace HfRisc.Results

open HfRisc.Soft

/-- The comparisons of floats give the order of the numbers, with and without the implicit bit. -/
theorem float_order (a b : Word) (ha : binary32.Comparable a) (hb : binary32.Comparable b) :
    cmpsf2 a b = threeWay (binary32.value a) (binary32.value b) ∧
    Agree (ltsf2 a b) (lesf2 a b) (gtsf2 a b) (gesf2 a b) (binary32.value a) (binary32.value b) ∧
    (eqsf2 a b = 0 ↔ binary32.value a = binary32.value b) ∧
    (nesf2 a b = 0 ↔ binary32.value a = binary32.value b) := by
  have heq := ha.value_inj hb (by decide)
  refine ⟨cmpsf2_value ha hb, agree_float ha hb, ?_, ?_⟩
  · rw [heq, eqsf2, ofCondition]
    by_cases h : a = b <;> simp [h]
  · rw [heq, nesf2, ofCondition]
    by_cases h : a = b <;> simp [h]

/-- The least float above 0 and the float below which there are only such without the implicit
bit. -/
theorem float_order_small : cmpsf2 1 0x00800000 =
      threeWay (binary32.value (1 : Word)) (binary32.value (0x00800000 : Word)) ∧
    Agree (ltsf2 1 0x00800000) (lesf2 1 0x00800000) (gtsf2 1 0x00800000) (gesf2 1 0x00800000)
      (binary32.value (1 : Word)) (binary32.value (0x00800000 : Word)) ∧
    (eqsf2 1 0x00800000 = 0 ↔
      binary32.value (1 : Word) = binary32.value (0x00800000 : Word)) ∧
    (nesf2 1 0x00800000 = 0 ↔
      binary32.value (1 : Word) = binary32.value (0x00800000 : Word)) :=
  float_order 1 0x00800000 ⟨by decide, by decide⟩ ⟨by decide, by decide⟩

/-- The comparisons of doubles are right for the same number, and for two numbers of which at
most one is negative and whose order is that of what is left of them as floats. -/
theorem double_order (a b : BitVec 64) (ha : binary64.Comparable a) (hb : binary64.Comparable b) :
    CmpRight a b ∧ Agree (ltdf2 a b) (ledf2 a b) (gtdf2 a b) (gedf2 a b)
        (binary64.value a) (binary64.value b) ↔
      a = b ∨ (¬(a.msb = true ∧ b.msb = true) ∧ SameOrder a b) := by
  rw [cmpRight_iff ha hb]
  constructor
  · rintro ⟨rfl | hsign, hagree⟩
    · exact .inl rfl
    · exact .inr ⟨hsign, (agree_iff ha hb hsign).mp hagree⟩
  · rintro (rfl | ⟨hsign, horder⟩)
    · refine ⟨.inl rfl, agree_narrowed.mpr ?_⟩
      simp only [lt_irrefl, true_and]
    · exact ⟨.inr hsign, (agree_iff ha hb hsign).mpr horder⟩

/-- The doubles -1 and 1. -/
theorem double_order_units :
    CmpRight 0xBFF0000000000000 0x3FF0000000000000 ∧
    Agree (ltdf2 0xBFF0000000000000 0x3FF0000000000000)
      (ledf2 0xBFF0000000000000 0x3FF0000000000000)
      (gtdf2 0xBFF0000000000000 0x3FF0000000000000)
      (gedf2 0xBFF0000000000000 0x3FF0000000000000)
      (binary64.value (0xBFF0000000000000 : BitVec 64))
      (binary64.value (0x3FF0000000000000 : BitVec 64)) := by
  have ha : binary64.Comparable (0xBFF0000000000000 : BitVec 64) := ⟨by decide, by decide⟩
  have hb : binary64.Comparable (0x3FF0000000000000 : BitVec 64) := ⟨by decide, by decide⟩
  refine (double_order _ _ ha hb).mpr (.inr ⟨by decide, ?_⟩)
  exact (sameOrder_of_range (.inr (by decide)) (.inr (by decide)) (by decide)).mpr
    fun h => absurd h (by decide)

/-- -2 is found to be greater than -1. -/
theorem double_order_negative :
    ¬∀ a b : BitVec 64, binary64.Comparable a → binary64.Comparable b →
      CmpRight a b ∧ Agree (ltdf2 a b) (ledf2 a b) (gtdf2 a b) (gedf2 a b)
        (binary64.value a) (binary64.value b) := by
  intro h
  have hcmp := (h 0xC000000000000000 0xBFF0000000000000 ⟨by decide, by decide⟩
    ⟨by decide, by decide⟩).1
  have hless : binary64.value (0xC000000000000000 : BitVec 64) <
      binary64.value (0xBFF0000000000000 : BitVec 64) :=
    (Lib.Format.value_lt_neg (by decide) (by decide) (by decide)).mpr (by decide)
  exact absurd (hcmp.1.mpr hless) (by decide)

end HfRisc.Results
