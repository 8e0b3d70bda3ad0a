import HfRisc.Soft.FloatSum

/-!
# Sums

Both additions are at less than one unit in the last place, but for negative sums just before what
is rounded to infinity. No operation on a significand overflows.
-/

namespace HfRisc.Soft

open HfRisc.Lib (Format)

namespace FloatAddition

variable {w : ℕ} {M : Macros w} {A : Adder w} {F : Format} {fuel : ℕ} {a b : BitVec w}

/-! ## The order of the operands -/

theorem sum_comm (hM : M.Lawful F) (hA : A.Lawful F.fracBits) (a b : BitVec w) :
    sum M A a b = sum M A b a := by
  obtain ⟨hmant, hexp⟩ := toInt_sum hM hA a b
  obtain ⟨hmant', hexp'⟩ := toInt_sum hM hA b a
  have hmants : (sum M A a b).mant1 = (sum M A b a).mant1 :=
    BitVec.eq_of_toInt_eq (by rw [hmant, hmant', alignedSum_comm])
  have hexps : (sum M A a b).exp1 = (sum M A b a).exp1 := by rw [hexp, hexp', max_comm]
  calc sum M A a b = ⟨(sum M A a b).mant1, (sum M A a b).exp1⟩ := rfl
    _ = ⟨(sum M A b a).mant1, (sum M A b a).exp1⟩ := by rw [hmants, hexps]
    _ = sum M A b a := rfl

/-- The loop that normalizes up ends: it does not start with 0. -/
theorem finish_total (hM : M.Lawful F) (hA : A.Lawful F.fracBits)
    (hfuel : F.fracBits + A.guard < fuel) (a b : BitVec w) :
    ∃ r, finish M A fuel (sum M A a b) = some r := by
  obtain ⟨hmant, -⟩ := toInt_sum hM hA a b
  obtain ⟨hlow, hhigh⟩ := alignedSum_bounds (F := F) A.guard a b
  rw [← hmant] at hlow hhigh
  by_cases hzero : (sum M A a b).mant1.toInt = 0
  · have hmant0 : (sum M A a b).mant1 = 0 :=
      BitVec.eq_of_toInt_eq (hzero.trans BitVec.toInt_zero.symm)
    exact ⟨0, by rw [finish, if_pos hmant0]⟩
  · obtain ⟨_, _, _, -, hfinish, -⟩ := finish_eq hM hA hfuel hzero hlow hhigh
    exact ⟨_, hfinish⟩

/-- The operands can be exchanged, whatever their patterns are. -/
theorem add_comm_total (hM : M.Lawful F) (hA : A.Lawful F.fracBits)
    (hfuel : F.fracBits + A.guard < fuel) (a b : BitVec w) :
    ∃ r, add M A fuel a b = some r ∧ add M A fuel b a = some r := by
  by_cases hfar : F.exponent b + F.fracBits + 2 < F.exponent a
  · exact ⟨a, add_eq_left hM hA hfar, add_eq_right hM hA hfar⟩
  by_cases hfar' : F.exponent a + F.fracBits + 2 < F.exponent b
  · exact ⟨b, add_eq_right hM hA hfar', add_eq_left hM hA hfar'⟩
  obtain ⟨r, hr⟩ := finish_total hM hA hfuel a b
  refine ⟨r, (add_eq_finish hM hA hfar hfar').trans hr, ?_⟩
  rw [add_eq_finish hM hA hfar' hfar, sum_comm hM hA, hr]

/-! ## The range of the significands -/

/-- The operations on the significands are those of the integers. -/
structure NoOverflow (M : Macros w) (A : Adder w) (fuel : ℕ) (a b : BitVec w) : Prop where
  shift_eq : ∀ x, x = a ∨ x = b →
    (M.mant x <<< A.guard).toInt = (M.mant x).toInt * 2 ^ A.guard
  neg_eq : ∀ x, x = a ∨ x = b →
    (-(M.mant x <<< A.guard)).toInt = -(M.mant x <<< A.guard).toInt
  sum_eq : (sum M A a b).mant1.toInt =
    if M.exp a > M.exp b then
      (signed M A a).toInt + ((signed M A b).sshiftRight (M.exp a - M.exp b).toNat).toInt
    else ((signed M A a).sshiftRight (M.exp b - M.exp a).toNat).toInt + (signed M A b).toInt
  magnitude_eq : (magnitude (sum M A a b)).mant1.toInt = |(sum M A a b).mant1.toInt|
  /-- Wherever the test of the loop is true. -/
  double_eq : ∀ s : Vars w, s.mant1 &&& A.up = 0 → (double s).mant1.toInt = 2 * s.mant1.toInt
  round_eq : (sum M A a b).mant1 ≠ 0 → ∀ t,
    normalizeUp A fuel (magnitude (sum M A a b)) = some t →
      (round A (normalizeDown A t)).mant1.toInt =
        (normalizeDown A t).mant1.toInt + (rounding A (normalizeDown A t).mant1).toInt

theorem noOverflow (hM : M.Lawful F) (hA : A.Lawful F.fracBits)
    (hfuel : F.fracBits + A.guard < fuel) (a b : BitVec w) : NoOverflow M A fuel a b := by
  have hw := two_pow_width hA
  obtain ⟨hmant, -⟩ := toInt_sum hM hA a b
  obtain ⟨hlow, hhigh⟩ := alignedSum_bounds (F := F) A.guard a b
  rw [← hmant] at hlow hhigh
  -- a significand with its guard bits leaves the sign and two bits more
  have hshift : ∀ x : BitVec w, (M.mant x <<< A.guard).toInt = (M.mant x).toInt * 2 ^ A.guard ∧
      (M.mant x <<< A.guard).toNat < 2 * 2 ^ (F.fracBits + A.guard) := fun x => by
    have hnat := toNat_mant_shift hM hA x
    have hlt : F.significand x * 2 ^ A.guard < 2 * 2 ^ (F.fracBits + A.guard) := by
      rw [← Nat.pow_succ', Nat.succ_eq_add_one, Nat.add_right_comm, Nat.pow_add]
      exact Nat.mul_lt_mul_of_pos_right Format.significand_bounds.2 (Nat.two_pow_pos _)
    have hle : F.significand x ≤ F.significand x * 2 ^ A.guard :=
      Nat.le_mul_of_pos_right _ (Nat.two_pow_pos _)
    have hmant := hM.mant_eq x
    refine ⟨?_, hnat ▸ hlt⟩
    rw [BitVec.toInt_eq_toNat_of_lt (by omega), BitVec.toInt_eq_toNat_of_lt (by omega), hnat, hmant]
    push_cast
    rfl
  refine ⟨fun x _ => (hshift x).1, fun x _ => ?_, ?_, ?_, fun s htest => ?_, fun hne t ht => ?_⟩
  · have hlt := (hshift x).2
    rw [BitVec.toInt_neg, BitVec.toInt_eq_toNat_of_lt (by omega),
      Int.bmod_eq_of_le_mul_two (by omega) (by omega)]
  · rw [hmant, alignedSum, hM.exp_eq, hM.exp_eq, toInt_signed hM hA, toInt_signed hM hA,
      toInt_shifted hM hA, toInt_shifted hM hA]
    by_cases h : F.exponent b < F.exponent a
    · rw [if_pos h, if_pos (Nat.cast_lt.mpr h),
        show ((F.exponent a : ℤ) - F.exponent b).toNat = F.exponent a - F.exponent b by omega]
    · rw [if_neg h, if_neg (by omega),
        show ((F.exponent b : ℤ) - F.exponent a).toNat = F.exponent b - F.exponent a by omega]
  · have hmagnitude := toNat_magnitude (s := sum M A a b)
    rw [BitVec.toInt_eq_toNat_of_lt (by omega), hmagnitude, Int.natCast_natAbs]
  · -- the loop stops before the top bit is reached
    have hlt := (hA.up_iff s.mant1).mp htest
    have hdouble := toNat_double hA hlt
    rw [BitVec.toInt_eq_toNat_of_lt (by omega), BitVec.toInt_eq_toNat_of_lt (by omega), hdouble]
    push_cast
    ring
  · have hpos : 0 < (magnitude (sum M A a b)).mant1.toNat := by
      rw [toNat_magnitude, Int.natAbs_pos]
      exact fun hzero => hne (BitVec.eq_of_toInt_eq (hzero.trans BitVec.toInt_zero.symm))
    obtain ⟨t', ht', hn⟩ := normalize_eq hA (s := magnitude (sum M A a b)) hfuel hpos
      (by rw [toNat_magnitude]; omega)
    obtain rfl : t' = t := Option.some.inj (ht'.symm.trans ht)
    -- what is added is at most half a unit
    have hhalf := half_le F.fracBits A.guard
    have hround := toNat_round hA hn.high
    have hle := (roundEven_bounds A.guard (normalizeDown A t').mant1.toNat).2
    have hbelow := toNat_rounding hA (normalizeDown A t').mant1
    have hhigh := hn.high
    rw [roundEven, ← hbelow] at hround hle
    rw [BitVec.toInt_eq_toNat_of_lt (by omega), BitVec.toInt_eq_toNat_of_lt (by omega),
      BitVec.toInt_eq_toNat_of_lt (by omega), hround]
    push_cast
    rfl

end FloatAddition

/-! ## The functions -/

section Functions

variable {fuel : ℕ}

theorem addsf3_eq {a b : Word} (ha : binary32.IsNormal a) (hb : binary32.IsNormal b) :
    addsf3 fuel a b = add single adder32 fuel a b := by
  rw [addsf3, if_neg (Format.ne_zero_of_pos ha.pos), if_neg (Format.ne_zero_of_pos hb.pos)]

theorem adddf3_eq {a b : BitVec 64} (ha : binary64.IsNormal a) (hb : binary64.IsNormal b) :
    adddf3 fuel a b = add double adder64 fuel a b := by
  rw [adddf3, if_neg (Format.ne_zero_of_pos hb.pos), if_neg (Format.ne_zero_of_pos ha.pos)]

theorem flipSign_eq (x : BitVec 64) : flipSign x = x ^^^ 0x8000000000000000 := by
  have hmask : (0x8000000000000000 : BitVec 64) = signbit ++ (0 : Word) := by decide
  have hx : x = upper x ++ lower x := by
    apply BitVec.eq_of_toNat_eq
    rw [Lib.toNat_append, toNat_upper, toNat_lower]
    omega
  rw [hmask, flipSign, halves]
  conv_rhs => rw [hx]
  rw [BitVec.xor_append]
  exact congrArg _ (BitVec.xor_zero).symm

theorem flipSign_flipSign (x : BitVec 64) : flipSign (flipSign x) = x := by
  rw [flipSign_eq, flipSign_eq, BitVec.xor_assoc, BitVec.xor_self, BitVec.xor_zero]

theorem flipSign_ne_zero {x : BitVec 64} (hx : binary64.IsNormal x) : flipSign x ≠ 0 := fun h => by
  have heq : x = 0x8000000000000000 := by
    rw [← flipSign_flipSign x, h]
    decide
  rw [heq] at hx
  exact absurd hx (by decide)

/-- Subtracting the negated number adds the number. -/
theorem subdf3_negdf2 {a b : BitVec 64} (ha : binary64.IsNormal a) (hb : binary64.IsNormal b) :
    subdf3 fuel a (negdf2 b) = adddf3 fuel a b := by
  have hneg : negdf2 b = flipSign b :=
    if_neg fun h => Format.ne_zero_of_pos hb.pos (halves_eq_zero.mp h)
  rw [hneg, subdf3, if_neg (flipSign_ne_zero hb), if_neg (Format.ne_zero_of_pos ha.pos),
    flipSign_flipSign]

theorem sumLimit_single : FloatAddition.sumLimit binary32 adder32.guard 32 =
    2 ^ 128 - 2 ^ 103 - 2 ^ 98 := by
  norm_num [FloatAddition.sumLimit, Format.unitAt, Format.top, binary32, adder32]

theorem sumLimit_double : FloatAddition.sumLimit binary64 adder64.guard 64 =
    2 ^ 1024 - 2 ^ 970 - 2 ^ 962 := by
  have hunit : binary64.unitAt (binary64.top 64) = 2 ^ 962 * 2 ^ 9 := by
    have hexp : ((binary64.top 64 : ℕ) : ℤ) - binary64.bias - binary64.fracBits =
        (962 + 9 : ℕ) := by decide
    rw [← pow_add, Format.unitAt, hexp, zpow_natCast]
  have hlarge : (2 : ℚ) ^ 1024 = 2 ^ 962 * 2 ^ 62 := by rw [← pow_add]
  have hhalf : (2 : ℚ) ^ 970 = 2 ^ 962 * 2 ^ 8 := by rw [← pow_add]
  rw [FloatAddition.sumLimit, hunit, hlarge, hhalf]
  generalize (2 : ℚ) ^ 962 = u
  norm_num [binary64, adder64]
  ring

end Functions

end HfRisc.Soft

namespace HfRisc.Results

open HfRisc.Soft HfRisc.Lib

/-- The addition of normal numbers is less than one unit in the last place off, but for negative
sums beyond a limit. The operands of every addition can be exchanged. -/
theorem float_sums {fuel : ℕ} (hfuel : 29 < fuel) :
    (∀ a b : Word, binary32.IsNormal a → binary32.IsNormal b →
      (binary32.value a + binary32.value b = 0 ∨
        binary32.RoundsToNormal 32 (binary32.value a + binary32.value b)) →
      ((∃ r, addsf3 fuel a b = some r ∧
          binary32.Within r (binary32.value a + binary32.value b)) ↔
        -(2 ^ 128 - 2 ^ 103 - 2 ^ 98) ≤ binary32.value a + binary32.value b)) ∧
    ∀ a b : Word, ∃ r, addsf3 fuel a b = some r ∧ addsf3 fuel b a = some r := by
  constructor
  · intro a b ha hb h
    rw [addsf3_eq ha hb, ← sumLimit_single]
    exact FloatAddition.add_within_iff lawful_single adder32_lawful (by decide) hfuel ha hb h
  · intro a b
    rw [addsf3, addsf3]
    by_cases ha : a = 0
    · rw [if_pos ha]
      by_cases hb : b = 0
      · exact ⟨0, by rw [hb], by rw [if_pos hb, ha]⟩
      · exact ⟨b, rfl, by rw [if_neg hb, if_pos ha]⟩
    · by_cases hb : b = 0
      · exact ⟨a, by rw [if_neg ha, if_pos hb], by rw [if_pos hb]⟩
      · rw [if_neg ha, if_neg hb, if_neg hb, if_neg ha]
        exact FloatAddition.add_comm_total lawful_single adder32_lawful hfuel a b

/-- 1 and 1. -/
theorem float_sums_one :
    (∃ r, addsf3 30 0x3F800000 0x3F800000 = some r ∧
      binary32.Within r
        (binary32.value (0x3F800000 : Word) + binary32.value (0x3F800000 : Word))) ∧
    ∃ r, addsf3 30 0x3F800000 0x3F800000 = some r ∧ addsf3 30 0x3F800000 0x3F800000 = some r := by
  have hone : binary32.value (0x3F800000 : Word) = 1 := by
    rw [Format.value_of_fields (b := false) (e := 127) (s := 2 ^ 23) (by decide) (by decide)
      (by decide) (by decide)]
    norm_num [Format.unitAt, binary32]
  have hrounds : binary32.RoundsToNormal 32
      (binary32.value (0x3F800000 : Word) + binary32.value (0x3F800000 : Word)) := by
    rw [hone]
    refine Format.roundsToNormal_of_lt (e := 128) ?_ ?_ (by decide) (by decide)
    all_goals norm_num [Format.unitAt, binary32, abs_of_pos]
  refine ⟨((float_sums (by decide)).1 _ _ (by decide) (by decide) (.inr hrounds)).mpr ?_,
    (float_sums (by decide)).2 _ _⟩
  rw [hone]
  norm_num

/-- The sum of the negative numbers with full significands and the exponents 254 and 229. -/
theorem float_sums_infinite : ¬∀ a b : Word, binary32.IsNormal a → binary32.IsNormal b →
    (binary32.value a + binary32.value b = 0 ∨
      binary32.RoundsToNormal 32 (binary32.value a + binary32.value b)) →
    ∃ r, addsf3 30 a b = some r ∧ binary32.Within r (binary32.value a + binary32.value b) := by
  intro h
  have hlarge : binary32.value (0xFF7FFFFF : Word) = -(2 ^ 128 - 2 ^ 104) := by
    rw [Format.value_of_fields (b := true) (e := 254) (s := 2 ^ 24 - 1) (by decide) (by decide)
      (by decide) (by decide)]
    norm_num [Format.unitAt, binary32]
  have hsmall : binary32.value (0xF2FFFFFF : Word) = -(2 ^ 103 - 2 ^ 79) := by
    rw [Format.value_of_fields (b := true) (e := 229) (s := 2 ^ 24 - 1) (by decide) (by decide)
      (by decide) (by decide)]
    norm_num [Format.unitAt, binary32]
  obtain ⟨r, hr, hwithin⟩ := h 0xFF7FFFFF 0xF2FFFFFF (by decide) (by decide) (.inr (by
    rw [hlarge, hsmall, Format.RoundsToNormal]
    norm_num [Format.unitAt, Format.top, binary32]))
  have hinfinite : addsf3 30 0xFF7FFFFF 0xF2FFFFFF = some 0xFF800000 := by decide
  rw [hinfinite] at hr
  obtain rfl := Option.some.inj hr
  exact absurd hwithin.finite (by decide)

/-- The addition of normal numbers, and the subtraction of the negated one, end without an overflow
and with the same result. It is less than one unit in the last place off, but for negative sums
beyond a limit. -/
theorem double_sums {fuel : ℕ} (hfuel : 61 < fuel) {a b : BitVec 64} (ha : binary64.IsNormal a)
    (hb : binary64.IsNormal b)
    (h : binary64.value a + binary64.value b = 0 ∨
      binary64.RoundsToNormal 64 (binary64.value a + binary64.value b)) :
    FloatAddition.NoOverflow Soft.double adder64 fuel a b ∧
    (∃ r, adddf3 fuel a b = some r ∧ subdf3 fuel a (negdf2 b) = some r) ∧
    ((∃ r, adddf3 fuel a b = some r ∧ subdf3 fuel a (negdf2 b) = some r ∧
        binary64.Within r (binary64.value a + binary64.value b)) ↔
      -(2 ^ 1024 - 2 ^ 970 - 2 ^ 962) ≤ binary64.value a + binary64.value b) := by
  rw [subdf3_negdf2 ha hb, adddf3_eq ha hb, ← sumLimit_double]
  refine ⟨FloatAddition.noOverflow lawful_double adder64_lawful hfuel a b, ?_, ?_⟩
  · obtain ⟨r, hr, -⟩ := FloatAddition.add_comm_total lawful_double adder64_lawful hfuel a b
    exact ⟨r, hr, hr⟩
  · rw [← FloatAddition.add_within_iff lawful_double adder64_lawful (by decide) hfuel ha hb h]
    constructor
    · rintro ⟨r, hr, -, hwithin⟩
      exact ⟨r, hr, hwithin⟩
    · rintro ⟨r, hr, hwithin⟩
      exact ⟨r, hr, hr, hwithin⟩

/-- 1 and 1. -/
theorem double_sums_one :
    FloatAddition.NoOverflow Soft.double adder64 62 0x3FF0000000000000 0x3FF0000000000000 ∧
    (∃ r, adddf3 62 0x3FF0000000000000 0x3FF0000000000000 = some r ∧
      subdf3 62 0x3FF0000000000000 (negdf2 0x3FF0000000000000) = some r) ∧
    ∃ r, adddf3 62 0x3FF0000000000000 0x3FF0000000000000 = some r ∧
      subdf3 62 0x3FF0000000000000 (negdf2 0x3FF0000000000000) = some r ∧
      binary64.Within r (binary64.value (0x3FF0000000000000 : BitVec 64) +
        binary64.value (0x3FF0000000000000 : BitVec 64)) := by
  have hone : binary64.value (0x3FF0000000000000 : BitVec 64) = 1 := by
    rw [Format.value_of_fields (b := false) (e := 1023) (s := 2 ^ 52) (by decide) (by decide)
      (by decide) (by decide)]
    norm_num [Format.unitAt, binary64]
  have hrounds : binary64.RoundsToNormal 64 (binary64.value (0x3FF0000000000000 : BitVec 64) +
      binary64.value (0x3FF0000000000000 : BitVec 64)) := by
    rw [hone]
    refine Format.roundsToNormal_of_lt (e := 1024) ?_ ?_ (by decide) (by decide)
    all_goals norm_num [Format.unitAt, binary64, abs_of_pos]
  obtain ⟨hno, hboth, hiff⟩ :=
    double_sums (show 61 < 62 by decide) (a := 0x3FF0000000000000) (b := 0x3FF0000000000000)
      (by decide) (by decide) (.inr hrounds)
  refine ⟨hno, hboth, hiff.mpr ?_⟩
  have hhigh : (2 : ℚ) ^ 970 ≤ 2 ^ 1023 := pow_le_pow_right₀ (by norm_num) (by decide)
  have hlow : (2 : ℚ) ^ 962 ≤ 2 ^ 1023 := pow_le_pow_right₀ (by norm_num) (by decide)
  have hdouble : (2 : ℚ) ^ 1024 = 2 ^ 1023 + 2 ^ 1023 := (pow_succ' 2 1023).trans (two_mul _)
  have hlimit : (0 : ℚ) ≤ 2 ^ 1024 - 2 ^ 970 - 2 ^ 962 := by
    rw [hdouble, sub_sub]
    exact sub_nonneg.mpr (add_le_add hhigh hlow)
  rw [hone]
  exact (neg_nonpos.mpr hlimit).trans (by norm_num)

/-- The sum of the negative numbers with full significands and the exponents 2046 and 1992. -/
theorem double_sums_infinite : ¬∀ a b : BitVec 64, binary64.IsNormal a → binary64.IsNormal b →
    (binary64.value a + binary64.value b = 0 ∨
      binary64.RoundsToNormal 64 (binary64.value a + binary64.value b)) →
    ∃ r, adddf3 62 a b = some r ∧ subdf3 62 a (negdf2 b) = some r ∧
      binary64.Within r (binary64.value a + binary64.value b) := by
  intro h
  have hunit : binary64.unitAt (2046 : ℕ) = binary64.unitAt (1992 : ℕ) * 2 ^ 54 :=
    Format.unitAt_add (F := binary64) 1992 54
  have hpos := Format.unitAt_pos (F := binary64) (1992 : ℕ)
  have hle := Format.unitAt_le (F := binary64) (show 1 ≤ ((1992 : ℕ) : ℤ) by decide)
  have hlarge : binary64.value (0xFFEFFFFFFFFFFFFF : BitVec 64) =
      -((2 ^ 53 - 1) * 2 ^ 54) * binary64.unitAt (1992 : ℕ) := by
    rw [Format.value_of_fields (b := true) (e := 2046) (s := 2 ^ 53 - 1) (by decide) (by decide)
      (by decide) (by decide), hunit]
    norm_num
    ring
  have hsmall : binary64.value (0xFC8FFFFFFFFFFFFF : BitVec 64) =
      -(2 ^ 53 - 1) * binary64.unitAt (1992 : ℕ) := by
    rw [Format.value_of_fields (b := true) (e := 1992) (s := 2 ^ 53 - 1) (by decide) (by decide)
      (by decide) (by decide)]
    norm_num
  have hnormal : binary64.RoundsToNormal 64 (binary64.value (0xFFEFFFFFFFFFFFFF : BitVec 64) +
      binary64.value (0xFC8FFFFFFFFFFFFF : BitVec 64)) := by
    have htop : binary64.top 64 = 2046 := rfl
    have hfrac : binary64.fracBits = 52 := rfl
    rw [hlarge, hsmall, ← add_mul, Format.RoundsToNormal, abs_mul, abs_of_pos hpos, htop, hunit,
      hfrac]
    generalize binary64.unitAt (1992 : ℕ) = u at hpos hle ⊢
    norm_num
    constructor <;> linarith
  obtain ⟨r, hr, -, hwithin⟩ := h 0xFFEFFFFFFFFFFFFF 0xFC8FFFFFFFFFFFFF (by decide) (by decide)
    (.inr hnormal)
  have hinfinite : adddf3 62 0xFFEFFFFFFFFFFFFF 0xFC8FFFFFFFFFFFFF =
      some 0xFFF0000000000000 := by decide
  rw [hinfinite] at hr
  obtain rfl := Option.some.inj hr
  exact absurd hwithin.finite (by decide)

end HfRisc.Results
