import HfRisc.Soft.FloatDiv

/-!
# Quotients

Where the exponent of the quotient is that of a normal number, the result is the nearest number:
the loop gives one bit more than a significand has, and that bit alone is never half a unit.
-/

namespace HfRisc.Soft

open HfRisc.Lib (Format)

variable {w : ℕ} {M : Macros w} {F : Format} {lt : BitVec w → BitVec w → Bool} {fuel : ℕ}
  {a b : BitVec w}

/-- The significand of the exact quotient. -/
def exactQuotient (F : Format) (a b : BitVec w) : ℚ :=
  FloatDivision.dividend (F.significand a) (F.significand b) * 2 ^ F.fracBits / F.significand b

theorem significand_pos : 0 < F.significand a :=
  Nat.lt_of_lt_of_le (Nat.two_pow_pos _) Format.significand_bounds.1

theorem exactQuotient_bounds (a b : BitVec w) : 2 ^ F.fracBits ≤ exactQuotient F a b ∧
    exactQuotient F a b < 2 ^ (F.fracBits + 1) := by
  obtain ⟨ha, ha'⟩ := Format.significand_bounds (F := F) (x := a)
  obtain ⟨hb, hb'⟩ := Format.significand_bounds (F := F) (x := b)
  have hpow : 2 ^ (F.fracBits + 1) = 2 * 2 ^ F.fracBits := Nat.pow_succ'
  have hpos : (0 : ℚ) < F.significand b := by exact_mod_cast significand_pos
  have hlow : F.significand b ≤ FloatDivision.dividend (F.significand a) (F.significand b) := by
    rw [FloatDivision.dividend]
    split <;> omega
  have hhigh : FloatDivision.dividend (F.significand a) (F.significand b) <
      2 * F.significand b := by
    rw [FloatDivision.dividend]
    split <;> omega
  rw [exactQuotient, le_div_iff₀ hpos, div_lt_iff₀ hpos, pow_succ]
  have hlow' : (F.significand b : ℚ) ≤
      FloatDivision.dividend (F.significand a) (F.significand b) := by exact_mod_cast hlow
  have hhigh' : (FloatDivision.dividend (F.significand a) (F.significand b) : ℚ) <
      2 * F.significand b := by exact_mod_cast hhigh
  have htwo : (0 : ℚ) < 2 ^ F.fracBits := by positivity
  constructor <;> nlinarith

/-- The exact quotient of two numbers by its sign, its significand and its exponent. -/
theorem value_div_value (ha : 0 < F.exponent a) (hb : 0 < F.exponent b) :
    F.value a / F.value b = (if (a.msb ^^ b.msb) then -1 else 1) *
      (exactQuotient F a b * F.unitAt (quotientExponent F a b)) := by
  have hpos : (0 : ℚ) < F.significand b := by exact_mod_cast significand_pos
  have hratio : F.unitAt (F.exponent a) / F.unitAt (F.exponent b) =
      (2 : ℚ) ^ (F.exponent a - F.exponent b : ℤ) := by
    rw [Format.unitAt, Format.unitAt, ← zpow_sub₀ two_ne_zero]
    congr 1
    ring
  have hmagnitude : F.significand a * F.unitAt (F.exponent a) /
      (F.significand b * F.unitAt (F.exponent b)) =
      exactQuotient F a b * F.unitAt (quotientExponent F a b) := by
    rw [mul_div_mul_comm, hratio, exactQuotient, quotientExponent, FloatDivision.dividend,
      Format.unitAt]
    split
    · have hpow : (2 : ℚ) ^ ((F.exponent a - F.exponent b + F.bias - 1 : ℤ) - F.bias - F.fracBits) =
          2 ^ (F.exponent a - F.exponent b : ℤ) / (2 * 2 ^ F.fracBits) := by
        rw [← pow_succ', ← zpow_natCast, ← zpow_sub₀ two_ne_zero]
        congr 1
        push_cast
        ring
      rw [hpow]
      push_cast
      field_simp
    · have hpow : (2 : ℚ) ^ ((F.exponent a - F.exponent b + F.bias - 0 : ℤ) - F.bias - F.fracBits) =
          2 ^ (F.exponent a - F.exponent b : ℤ) / 2 ^ F.fracBits := by
        rw [← zpow_natCast, ← zpow_sub₀ two_ne_zero]
        congr 1
        ring
      rw [hpow]
      field_simp
  rw [Format.value_of_pos ha, Format.value_of_pos hb, ← hmagnitude]
  cases a.msb <;> cases b.msb <;> simp [neg_div, div_neg]

/-- The result is the nearest number. -/
theorem divide_nearest (hM : M.Lawful F) (hlt : FloatDivision.Compares lt) (mask : BitVec w)
    (hmask : mask.toNat = 2 ^ (F.fracBits + 1)) (hfuel : F.fracBits + 2 < fuel)
    (hw : 2 ≤ 2 ^ (w - 1 - F.fracBits)) (ha : 0 < F.exponent a) (hb : 0 < F.exponent b)
    (h : F.HasNormalExponent w (F.value a / F.value b)) :
    ∃ r, divide M lt mask fuel a b = some r ∧ F.IsNearest r (F.value a / F.value b) := by
  obtain ⟨q, m, -, -, hdivide, hm⟩ := divide_eq hM hlt hmask hfuel a b
  obtain ⟨hlow, hhigh⟩ := exactQuotient_bounds (F := F) a b
  obtain ⟨hround, hround'⟩ := roundedQuotient_bounds (F := F) a b
  have hvalue := value_div_value ha hb
  have hunit := Format.unitAt_pos (F := F) (quotientExponent F a b)
  have habs : |F.value a / F.value b| =
      exactQuotient F a b * F.unitAt (quotientExponent F a b) := by
    have hnonneg : 0 ≤ exactQuotient F a b := le_trans (by positivity) hlow
    rw [hvalue, Format.abs_sign_mul _ (by positivity)]
  obtain ⟨hone, htop⟩ := (Format.hasNormalExponent_iff
    (habs ▸ mul_le_mul_of_nonneg_right hlow hunit.le)
    (habs ▸ mul_lt_mul_of_pos_right hhigh hunit)).mp h
  obtain ⟨e, he⟩ := Int.eq_ofNat_of_zero_le (show 0 ≤ quotientExponent F a b by omega)
  rw [he] at hdivide hvalue hone htop hunit
  obtain ⟨hmsb, hexp, hfraction⟩ := hM.fields (a.msb ^^ b.msb) e m
    (by rw [Format.top] at htop; omega) (by rw [Nat.pow_succ] at hround'; omega)
  refine ⟨_, hdivide, ?_⟩
  generalize M.pack (signOf (a.msb ^^ b.msb)) e m = r at *
  have hnormal : F.IsNormal r :=
    ⟨by omega, Format.isFinite_of_le hw (by omega)⟩
  have hsignificand : F.significand r = roundedQuotient F a b := by
    rw [Format.significand, hfraction, hm]
  have hclose : |exactQuotient F a b - roundedQuotient F a b| < 1 / 2 :=
    FloatDivision.quotient_close significand_pos Format.significand_bounds.2
  rw [hvalue, ← hmsb]
  refine Format.isNearest_of_close hnormal ?_ ?_
  · rw [hexp]
    exact mul_le_mul_of_nonneg_right hlow hunit.le
  · rw [Format.value_of_pos hnormal.pos, hexp, hsignificand, Format.abs_sign_mul_sub, ← sub_mul,
      abs_mul, abs_of_pos hunit]
    have hscaled := mul_lt_mul_of_pos_right hclose hunit
    linarith

/-- The bits of the quotient are rounded without a carry out of the significand. -/
def RoundsWithoutCarry (M : Macros w) (lt : BitVec w → BitVec w → Bool) (mask : BitVec w)
    (fuel : ℕ) (a b : BitVec w) : Prop :=
  ∃ q, FloatDivision.bits lt mask fuel
      (if lt (M.mant a) (M.mant b) then M.mant a <<< 1 else M.mant a) (M.mant b) = some q ∧
    ((q + 1).sshiftRight 1).toNat < 2 * M.hidden.toNat

theorem roundsWithoutCarry (hM : M.Lawful F) (hlt : FloatDivision.Compares lt) (mask : BitVec w)
    (hmask : mask.toNat = 2 ^ (F.fracBits + 1)) (hfuel : F.fracBits + 2 < fuel) (a b : BitVec w) :
    RoundsWithoutCarry M lt mask fuel a b := by
  obtain ⟨q, -, hq, hround, -, -⟩ := divide_eq hM hlt hmask hfuel a b
  refine ⟨q, hq, ?_⟩
  rw [hround, hM.hidden_eq, ← Nat.pow_succ']
  exact (roundedQuotient_bounds a b).2

theorem divsf3_eq {a b : Word} (ha : binary32.IsNormal a) (hb : binary32.IsNormal b) :
    divsf3 fuel a b = divide single BitVec.slt 0x1000000 fuel a b := by
  rw [divsf3, if_neg (Format.ne_zero_of_pos hb.pos), if_neg (Format.ne_zero_of_pos ha.pos)]

theorem divdf3_eq {a b : BitVec 64} (ha : binary64.IsNormal a) (hb : binary64.IsNormal b) :
    divdf3 fuel a b = divide double BitVec.ult ((1 : BitVec 64) <<< 53) fuel a b := by
  rw [divdf3, if_neg (Format.ne_zero_of_pos ha.pos), if_neg (Format.ne_zero_of_pos hb.pos)]

end HfRisc.Soft

namespace HfRisc.Results

open HfRisc.Soft HfRisc.Lib

/-- Both divisions give the nearest number where the quotient has the exponent of a normal one,
and their rounding does not carry. -/
theorem float_quotients {fuel : ℕ} (hfuel : 54 < fuel) :
    (∀ a b : Word, binary32.IsNormal a → binary32.IsNormal b →
      binary32.HasNormalExponent 32 (binary32.value a / binary32.value b) →
      ∃ r, divsf3 fuel a b = some r ∧
        binary32.IsNearest r (binary32.value a / binary32.value b) ∧
        RoundsWithoutCarry Soft.single BitVec.slt 0x1000000 fuel a b) ∧
    (∀ a b : BitVec 64, binary64.IsNormal a → binary64.IsNormal b →
      binary64.HasNormalExponent 64 (binary64.value a / binary64.value b) →
      ∃ r, divdf3 fuel a b = some r ∧
        binary64.IsNearest r (binary64.value a / binary64.value b) ∧
        RoundsWithoutCarry Soft.double BitVec.ult ((1 : BitVec 64) <<< 53) fuel a b) := by
  constructor
  · intro a b ha hb h
    have hfuel' : binary32.fracBits + 2 < fuel := lt_trans (by decide) hfuel
    obtain ⟨r, hr, hnearest⟩ := divide_nearest lawful_single FloatDivision.compares_slt
      0x1000000 (by decide) hfuel' (by decide) ha.pos hb.pos h
    exact ⟨r, (divsf3_eq ha hb).trans hr, hnearest,
      roundsWithoutCarry lawful_single FloatDivision.compares_slt _ (by decide) hfuel' a b⟩
  · intro a b ha hb h
    have hfuel' : binary64.fracBits + 2 < fuel := hfuel
    obtain ⟨r, hr, hnearest⟩ := divide_nearest lawful_double FloatDivision.compares_ult
      ((1 : BitVec 64) <<< 53) (by decide) hfuel' (by decide) ha.pos hb.pos h
    exact ⟨r, (divdf3_eq ha hb).trans hr, hnearest,
      roundsWithoutCarry lawful_double FloatDivision.compares_ult _ (by decide) hfuel' a b⟩

/-- 1 by 3. -/
theorem float_quotients_third :
    (∃ r, divsf3 55 0x3F800000 0x40400000 = some r ∧
      binary32.IsNearest r
        (binary32.value (0x3F800000 : Word) / binary32.value (0x40400000 : Word)) ∧
      RoundsWithoutCarry Soft.single BitVec.slt 0x1000000 55 0x3F800000 0x40400000) ∧
    (∃ r, divdf3 55 0x3FF0000000000000 0x4008000000000000 = some r ∧
      binary64.IsNearest r (binary64.value (0x3FF0000000000000 : BitVec 64) /
        binary64.value (0x4008000000000000 : BitVec 64)) ∧
      RoundsWithoutCarry Soft.double BitVec.ult ((1 : BitVec 64) <<< 53) 55 0x3FF0000000000000
        0x4008000000000000) := by
  have hone : binary32.value (0x3F800000 : Word) = 1 := by
    rw [Format.value_of_fields (b := false) (e := 127) (s := 2 ^ 23) (by decide) (by decide)
      (by decide) (by decide)]
    norm_num [Format.unitAt, binary32]
  have hthree : binary32.value (0x40400000 : Word) = 3 := by
    rw [Format.value_of_fields (b := false) (e := 128) (s := 3 * 2 ^ 22) (by decide) (by decide)
      (by decide) (by decide)]
    norm_num [Format.unitAt, binary32]
  have hone' : binary64.value (0x3FF0000000000000 : BitVec 64) = 1 := by
    rw [Format.value_of_fields (b := false) (e := 1023) (s := 2 ^ 52) (by decide) (by decide)
      (by decide) (by decide)]
    norm_num [Format.unitAt, binary64]
  have hthree' : binary64.value (0x4008000000000000 : BitVec 64) = 3 := by
    rw [Format.value_of_fields (b := false) (e := 1024) (s := 3 * 2 ^ 51) (by decide) (by decide)
      (by decide) (by decide)]
    norm_num [Format.unitAt, binary64]
  refine ⟨(float_quotients (by decide)).1 _ _ (by decide) (by decide) ?_,
    (float_quotients (by decide)).2 _ _ (by decide) (by decide) ?_⟩
  · rw [hone, hthree, Format.hasNormalExponent_iff (e := 125)]
    · decide
    all_goals norm_num [Format.unitAt, binary32, abs_of_pos]
  · rw [hone', hthree', Format.hasNormalExponent_iff (e := 1021)]
    · decide
    all_goals norm_num [Format.unitAt, binary64, abs_of_pos]

end HfRisc.Results
