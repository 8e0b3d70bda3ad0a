import HfRisc.Lib.LongDivision
import HfRisc.Soft.FloatMacros
import Mathlib.Data.Nat.Prime.Basic

/-!
# Division (`libc.c`)

The quotient of the significands gets one bit more than a significand has, from the highest to the
lowest: the divisor is subtracted wherever it goes, and the remainder is doubled. The last bit
rounds. It cannot carry out of the others.
-/

namespace HfRisc.Soft

open HfRisc.Lib (Format)

variable {w : ℕ}

/-! ## The functions -/

namespace FloatDivision

/-- The variables of the loop. -/
structure Vars (w : ℕ) where
  fl1 : BitVec w
  mask : BitVec w
  result : BitVec w

/-- The body of the loop. `lt` is `<` of the type of the significands. -/
def body (lt : BitVec w → BitVec w → Bool) (fl2 : BitVec w) (s : Vars w) : Vars w where
  result := if lt s.fl1 fl2 then s.result else s.result ||| s.mask
  fl1 := (if lt s.fl1 fl2 then s.fl1 else s.fl1 - fl2) <<< 1
  mask := s.mask.sshiftRight 1

/-- The bits of the quotient, before they are rounded. -/
def bits (lt : BitVec w → BitVec w → Bool) (mask : BitVec w) (fuel : ℕ) (fl1 fl2 : BitVec w) :
    Option (BitVec w) :=
  (Lib.whileLoop (fun s => s.mask ≠ 0) (body lt fl2) fuel ⟨fl1, mask, 0⟩).map Vars.result

end FloatDivision

/-- From the exponents to the packed quotient. -/
def divide (M : Macros w) (lt : BitVec w → BitVec w → Bool) (mask : BitVec w) (fuel : ℕ)
    (a1 a2 : BitVec w) : Option (BitVec w) := do
  let exp := M.exp a1 - M.exp a2 + M.excess
  let sign := M.sign a1 ^^^ M.sign a2
  let fl1 := M.mant a1
  let fl2 := M.mant a2
  let less := lt fl1 fl2
  let exp := if less then exp - 1 else exp
  let fl1 := if less then fl1 <<< 1 else fl1
  let result ← FloatDivision.bits lt mask fuel fl1 fl2
  let result := (result + 1).sshiftRight 1
  return M.pack sign (exp + 1) (result &&& ~~~M.hidden)

/-- `__divsf3`. The two integers for a division by 0 are converted to `float`, to the nearest. -/
def divsf3 (fuel : ℕ) (a1 a2 : Word) : Option Word :=
  if a2 = 0 then some (if sign a1 ^^^ sign a2 ≠ 0 then 0x4F800000 else 0x4F000000)
  else if a1 = 0 then some 0
  else divide single BitVec.slt 0x1000000 fuel a1 a2

/-- `__divdf3`. -/
def divdf3 (fuel : ℕ) (a1 a2 : BitVec 64) : Option (BitVec 64) :=
  if a1 = 0 then some (if a2 = 0 then (1 : BitVec 64) <<< 63 - 1 else 0)
  else if a2 = 0 then some (packdLl (signd a1) 2047 0)
  else divide double BitVec.ult ((1 : BitVec 64) <<< 53) fuel a1 a2

/-! ## The loop -/

namespace FloatDivision

/-- `lt` compares numbers without a sign. -/
def Compares (lt : BitVec w → BitVec w → Bool) : Prop :=
  ∀ x y : BitVec w, 2 * x.toNat < 2 ^ w → 2 * y.toNat < 2 ^ w → (lt x y = true ↔ x.toNat < y.toNat)

theorem compares_slt : Compares (BitVec.slt (n := w)) := fun _ _ hx hy => Lib.slt_of_nonneg hx hy

theorem compares_ult : Compares (BitVec.ult (n := w)) := fun x y _ _ => by
  rw [BitVec.ult, decide_eq_true_eq]

variable {lt : BitVec w → BitVec w → Bool} {n d k : ℕ} {den : BitVec w}

/-- `j` bits are to come. -/
def ToCome (n d k j : ℕ) (s : Vars w) : Prop :=
  Lib.Fraction n d k j s.fl1.toNat s.mask.toNat s.result.toNat

/-- A round finds one bit. -/
theorem ToCome.body {j : ℕ} {s : Vars w} (hlt : Compares lt) (hden : den.toNat = d)
    (hd : 4 * d ≤ 2 ^ w) (hk : 2 * 2 ^ k < 2 ^ w) (hj : j ≤ k) (h : ToCome n d k (j + 1) s) :
    ToCome n d k j (body lt den s) := by
  have hnum := h.num_lt
  have hmask : (s.mask.sshiftRight 1).toNat = s.mask.toNat / 2 := by
    have hle : 2 ^ j ≤ 2 ^ k := Nat.pow_le_pow_right (by decide) hj
    rw [Lib.toNat_sshiftRight, Nat.pow_one]
    rw [h.mask_succ]
    omega
  have hiff : lt s.fl1 den = true ↔ s.fl1.toNat < d :=
    hden ▸ hlt s.fl1 den (by omega) (by omega)
  by_cases hless : s.fl1.toNat < d
  · have hdouble : (s.fl1 <<< 1).toNat = s.fl1.toNat * 2 := by
      rw [BitVec.toNat_shiftLeft, Nat.shiftLeft_eq, Nat.mod_eq_of_lt]
      omega
    have hbit := h.skip hless
    rw [← hdouble, ← hmask] at hbit
    rw [FloatDivision.body, if_pos (hiff.mpr hless), if_pos (hiff.mpr hless)]
    exact hbit
  · have hsub : (s.fl1 - den).toNat = s.fl1.toNat - d := by
      rw [BitVec.toNat_sub_of_le (BitVec.le_def.mpr (by omega)), hden]
    have hdouble : ((s.fl1 - den) <<< 1).toNat = (s.fl1.toNat - d) * 2 := by
      rw [BitVec.toNat_shiftLeft, Nat.shiftLeft_eq, hsub, Nat.mod_eq_of_lt]
      omega
    have hresult : (s.result ||| s.mask).toNat = s.result.toNat + s.mask.toNat := by
      rw [BitVec.toNat_or, h.or_mask]
    have hbit := h.subtract (Nat.le_of_not_lt hless)
    rw [← hdouble, ← hmask, ← hresult] at hbit
    rw [FloatDivision.body, if_neg fun hc => hless (hiff.mp hc),
      if_neg fun hc => hless (hiff.mp hc)]
    exact hbit

theorem bits_eq (hlt : Compares lt) {mask : BitVec w} {fuel : ℕ} (num den : BitVec w)
    (hmask : mask.toNat = 2 ^ k)
    (hk : 2 * 2 ^ k < 2 ^ w) (hnum : num.toNat < 2 * den.toNat) (hd : 4 * den.toNat ≤ 2 ^ w)
    (hfuel : k + 1 < fuel) :
    ∃ q, bits lt mask fuel num den = some q ∧ q.toNat = num.toNat * 2 ^ k / den.toNat := by
  have hstart : ToCome num.toNat den.toNat k (k + 1) ⟨num, mask, (0 : BitVec w)⟩ := by
    have h := Lib.Fraction.start (k := k) hnum
    rw [← hmask] at h
    have hzero : (0 : BitVec w).toNat = 0 := BitVec.toNat_zero
    show Lib.Fraction _ _ _ _ _ _ (0 : BitVec w).toNat
    rw [hzero]
    exact h
  have hround : ∀ j (s : Vars w), (j ≤ k + 1 ∧ ToCome num.toNat den.toNat k j s) →
      decide (s.mask ≠ 0) = true →
      ∃ i < j, i ≤ k + 1 ∧ ToCome num.toNat den.toNat k i (body lt den s) := by
    rintro j s ⟨hj, hs⟩ htest
    have hne : s.mask.toNat ≠ 0 := fun h =>
      of_decide_eq_true htest (BitVec.eq_of_toNat_eq (h.trans BitVec.toNat_zero.symm))
    obtain ⟨i, rfl⟩ := Nat.exists_eq_succ_of_ne_zero fun h => hne (hs.mask_eq_zero.mpr h)
    exact ⟨i, Nat.lt_succ_self i, by omega, hs.body hlt rfl hd hk (by omega)⟩
  obtain ⟨s, hloop, ⟨j, -, hs⟩, hexit⟩ :=
    Lib.whileLoop_total hround ⟨le_rfl, hstart⟩ hfuel
  have hzero : s.mask = 0 := not_not.mp (of_decide_eq_false hexit)
  have hj : j = 0 := hs.mask_eq_zero.mp (by rw [hzero]; exact BitVec.toNat_zero)
  subst hj
  exact ⟨s.result, by rw [bits, hloop, Option.map_some], hs.finish⟩

/-! ## The bits of the quotient -/

/-- What is divided: the significand, or twice it where it is the smaller one. -/
def dividend (m n : ℕ) : ℕ := if m < n then m * 2 else m

section Quotient

variable {f m n : ℕ}

/-- The quotient has `f + 2` bits, and they are not all set. -/
theorem quotient_bounds (hm : 2 ^ f ≤ m) (hm' : m < 2 ^ (f + 1)) (hn : 2 ^ f ≤ n)
    (hn' : n < 2 ^ (f + 1)) : 2 ^ (f + 1) ≤ dividend m n * 2 ^ (f + 1) / n ∧
      dividend m n * 2 ^ (f + 1) / n + 2 ≤ 2 ^ (f + 2) := by
  have hpow : 2 ^ (f + 1) = 2 * 2 ^ f := Nat.pow_succ'
  have hpow' : 2 ^ (f + 2) = 2 * 2 ^ (f + 1) := Nat.pow_succ'
  have hpos : 0 < n := Nat.lt_of_lt_of_le (Nat.two_pow_pos f) hn
  have hlow : n ≤ dividend m n := by
    rw [dividend]
    split <;> omega
  constructor
  · rw [Nat.le_div_iff_mul_le hpos, Nat.mul_comm]
    exact Nat.mul_le_mul_right _ hlow
  · have hlt : dividend m n * 2 ^ (f + 1) / n < 2 ^ (f + 2) - 1 := by
      rw [Nat.div_lt_iff_lt_mul hpos, Nat.sub_mul, Nat.one_mul]
      -- what is divided is less than twice the divisor by at least 1, or by 2
      have hgap : dividend m n * 2 ^ (f + 1) + 2 ^ (f + 1) ≤ 2 ^ (f + 2) * n := by
        have hle : dividend m n + 1 ≤ 2 * n := by
          rw [dividend]
          split <;> omega
        calc dividend m n * 2 ^ (f + 1) + 2 ^ (f + 1)
            = (dividend m n + 1) * 2 ^ (f + 1) := by rw [Nat.add_mul, Nat.one_mul]
          _ ≤ 2 * n * 2 ^ (f + 1) := Nat.mul_le_mul_right _ hle
          _ = 2 ^ (f + 2) * n := by rw [hpow', Nat.mul_right_comm]
      omega
    omega

/-- The last bit is never half a unit: the divisor would have to be a multiple of `2 ^ (f + 1)`. -/
theorem quotient_close (hn : 0 < n) (hn' : n < 2 ^ (f + 1)) {d : ℕ} :
    |(d : ℚ) * 2 ^ f / n - ((d * 2 ^ (f + 1) / n + 1) / 2 : ℕ)| < 1 / 2 := by
  set q := d * 2 ^ (f + 1) / n with hq
  have hpos : (0 : ℚ) < n := by exact_mod_cast hn
  have hfloor : q * n ≤ d * 2 ^ (f + 1) := Nat.div_mul_le_self _ _
  have hnext : d * 2 ^ (f + 1) < (q + 1) * n := by
    rw [Nat.mul_comm (q + 1)]
    exact Nat.lt_mul_div_succ _ hn
  have hle : (q : ℚ) * n ≤ d * 2 ^ (f + 1) := by exact_mod_cast hfloor
  have hlt : (d : ℚ) * 2 ^ (f + 1) < (q + 1) * n := by exact_mod_cast hnext
  rw [pow_succ] at hle hlt
  rcases Nat.mod_two_eq_zero_or_one q with heven | hodd
  · obtain ⟨r, hr⟩ : ∃ r, q = 2 * r := ⟨q / 2, by omega⟩
    have hhalf : (q + 1) / 2 = r := by omega
    have hcast : (q : ℚ) = 2 * r := by exact_mod_cast hr
    rw [hhalf, abs_lt, lt_sub_iff_add_lt, sub_lt_iff_lt_add, lt_div_iff₀ hpos, div_lt_iff₀ hpos]
    constructor <;> nlinarith
  · obtain ⟨r, hr⟩ : ∃ r, q = 2 * r + 1 := ⟨q / 2, by omega⟩
    have hhalf : (q + 1) / 2 = r + 1 := by omega
    have hcast : (q : ℚ) = 2 * r + 1 := by exact_mod_cast hr
    have hne : q * n ≠ d * 2 ^ (f + 1) := fun heq => by
      have hdvd : 2 ^ (f + 1) ∣ n := by
        have hmul : 2 ^ (f + 1) ∣ q * n := heq ▸ Nat.dvd_mul_left _ _
        refine Nat.Coprime.dvd_of_dvd_mul_left ?_ hmul
        exact Nat.Coprime.pow_left _ (Nat.coprime_two_left.mpr (Nat.odd_iff.mpr hodd))
      exact absurd (Nat.le_of_dvd hn hdvd) (Nat.not_le_of_lt hn')
    have hless : (q : ℚ) * n < d * 2 ^ (f + 1) := by
      exact_mod_cast lt_of_le_of_ne hfloor hne
    rw [pow_succ] at hless
    rw [hhalf, abs_lt, lt_sub_iff_add_lt, sub_lt_iff_lt_add, lt_div_iff₀ hpos, div_lt_iff₀ hpos]
    push_cast
    constructor <;> nlinarith

end Quotient

end FloatDivision

/-! ## The packed quotient -/

section Divide

variable {M : Macros w} {F : Format} {lt : BitVec w → BitVec w → Bool} {mask : BitVec w} {fuel : ℕ}

/-- The rounded bits of the quotient of two significands. -/
def roundedQuotient (F : Format) (a b : BitVec w) : ℕ :=
  (FloatDivision.dividend (F.significand a) (F.significand b) * 2 ^ (F.fracBits + 1) /
    F.significand b + 1) / 2

/-- The exponent that goes with them. -/
def quotientExponent (F : Format) (a b : BitVec w) : ℤ :=
  F.exponent a - F.exponent b + F.bias - if F.significand a < F.significand b then 1 else 0

theorem roundedQuotient_bounds (a b : BitVec w) : 2 ^ F.fracBits ≤ roundedQuotient F a b ∧
    roundedQuotient F a b < 2 ^ (F.fracBits + 1) := by
  obtain ⟨ha, ha'⟩ := Format.significand_bounds (F := F) (x := a)
  obtain ⟨hb, hb'⟩ := Format.significand_bounds (F := F) (x := b)
  obtain ⟨hlow, hhigh⟩ := FloatDivision.quotient_bounds ha ha' hb hb'
  have hpow : 2 ^ (F.fracBits + 1) = 2 * 2 ^ F.fracBits := Nat.pow_succ'
  have hpow' : 2 ^ (F.fracBits + 2) = 2 * 2 ^ (F.fracBits + 1) := Nat.pow_succ'
  rw [roundedQuotient]
  omega

section Operands

variable (hM : M.Lawful F) (hlt : FloatDivision.Compares lt) (a b : BitVec w)

include hM

/-- Three bits are left above a significand. -/
theorem mant_small : 8 * (M.mant a).toNat < 2 ^ w := by
  have hsmall := (Format.significand_bounds (F := F) (x := a)).2
  have hw : 8 * 2 ^ (F.fracBits + 1) ≤ 2 ^ w := by
    have hpow : 8 * 2 ^ (F.fracBits + 1) = 2 ^ (F.fracBits + 4) := by ring
    rw [hpow]
    exact Nat.pow_le_pow_right (by decide) hM.width
  rw [hM.mant_eq]
  omega

include hlt

theorem lt_mant_iff : lt (M.mant a) (M.mant b) = true ↔ F.significand a < F.significand b := by
  have ha := mant_small hM a
  have hb := mant_small hM b
  rw [hlt _ _ (by omega) (by omega), hM.mant_eq, hM.mant_eq]

theorem toNat_dividend : (if lt (M.mant a) (M.mant b) then M.mant a <<< 1 else M.mant a).toNat =
    FloatDivision.dividend (F.significand a) (F.significand b) := by
  have ha := mant_small hM a
  rw [FloatDivision.dividend]
  by_cases h : F.significand a < F.significand b
  · rw [if_pos ((lt_mant_iff hM hlt a b).mpr h), if_pos h, BitVec.toNat_shiftLeft, Nat.shiftLeft_eq,
      Nat.mod_eq_of_lt (by omega), hM.mant_eq]
  · rw [if_neg fun hc => h ((lt_mant_iff hM hlt a b).mp hc), if_neg h, hM.mant_eq]

theorem exponent_of_quotient : (if lt (M.mant a) (M.mant b) then M.exp a - M.exp b + M.excess - 1
    else M.exp a - M.exp b + M.excess) + 1 = quotientExponent F a b := by
  rw [quotientExponent, ← hM.excess_eq, hM.exp_eq, hM.exp_eq]
  by_cases h : F.significand a < F.significand b
  · rw [if_pos ((lt_mant_iff hM hlt a b).mpr h), if_pos h]
    ring
  · rw [if_neg fun hc => h ((lt_mant_iff hM hlt a b).mp hc), if_neg h]
    ring

end Operands

/-- The bits that the loop finds are rounded without a carry, and packed. -/
theorem divide_eq (hM : M.Lawful F) (hlt : FloatDivision.Compares lt)
    (hmask : mask.toNat = 2 ^ (F.fracBits + 1)) (hfuel : F.fracBits + 2 < fuel) (a b : BitVec w) :
    ∃ q m : BitVec w,
      FloatDivision.bits lt mask fuel
        (if lt (M.mant a) (M.mant b) then M.mant a <<< 1 else M.mant a) (M.mant b) = some q ∧
      ((q + 1).sshiftRight 1).toNat = roundedQuotient F a b ∧
      divide M lt mask fuel a b =
        some (M.pack (signOf (a.msb ^^ b.msb)) (quotientExponent F a b) m) ∧
      2 ^ F.fracBits + m.toNat = roundedQuotient F a b := by
  obtain ⟨ha, ha'⟩ := Format.significand_bounds (F := F) (x := a)
  obtain ⟨hb, hb'⟩ := Format.significand_bounds (F := F) (x := b)
  obtain ⟨hlow, hhigh⟩ := FloatDivision.quotient_bounds ha ha' hb hb'
  obtain ⟨hround, hround'⟩ := roundedQuotient_bounds (F := F) a b
  have hpow : 2 ^ (F.fracBits + 1) = 2 * 2 ^ F.fracBits := Nat.pow_succ'
  have hpow' : 2 ^ (F.fracBits + 2) = 2 * 2 ^ (F.fracBits + 1) := Nat.pow_succ'
  have hw : 2 * (2 * 2 ^ (F.fracBits + 2)) ≤ 2 ^ w := by
    rw [← Nat.pow_succ', ← Nat.pow_succ']
    exact Nat.pow_le_pow_right (by decide) hM.width
  have hone : (1 : BitVec w).toNat = 1 := by
    refine (BitVec.toNat_ofNat 1 w).trans (Nat.mod_eq_of_lt ?_)
    omega
  -- the quotient is less than 2, so its bits fit in those of the mask
  have hnum := toNat_dividend hM hlt a b
  have hdividend : FloatDivision.dividend (F.significand a) (F.significand b) <
      2 * F.significand b := by
    rw [FloatDivision.dividend]
    split <;> omega
  obtain ⟨q, hq, hvalue⟩ := FloatDivision.bits_eq hlt _ (M.mant b) hmask (by omega)
    (hnum.trans_lt (by rw [hM.mant_eq]; exact hdividend)) (by rw [hM.mant_eq]; omega) hfuel
  rw [hnum, hM.mant_eq] at hvalue
  -- one bit more than the significand has is found, for the rounding
  have hshift : ((q + 1).sshiftRight 1).toNat = roundedQuotient F a b := by
    have hsum : (q + 1).toNat = q.toNat + 1 := by
      rw [BitVec.toNat_add, hone, Nat.mod_eq_of_lt]
      omega
    rw [Lib.toNat_sshiftRight, hsum, hvalue, Nat.pow_one, roundedQuotient]
    rw [hsum]
    omega
  have hclear : ((q + 1).sshiftRight 1 &&& ~~~M.hidden).toNat =
      roundedQuotient F a b % 2 ^ F.fracBits := by
    rw [Lib.toNat_clear hM.hidden_eq (by rw [hshift]; exact hround'), hshift]
  refine ⟨q, (q + 1).sshiftRight 1 &&& ~~~M.hidden, hq, hshift, ?_, ?_⟩
  · rw [← exponent_of_quotient hM hlt, ← signOf_xor, ← hM.sign_eq, ← hM.sign_eq]
    simp only [divide, hq, Option.bind_eq_bind, Option.bind_some]
    rfl
  · rw [hclear, Nat.mod_eq_sub_mod hround, Nat.mod_eq_of_lt (by omega)]
    omega

end Divide

end HfRisc.Soft
