import HfRisc.Soft.FloatInt

/-!
# Conversions between doubles and integers

The functions to 32 bits round toward zero except for the numbers with the largest exponent that
fits: these become 0. The functions to 64 bits place the binary point where a fraction of 63 bits
would have it, or take the exponent for a part of the fraction, so they are right for the numbers
without a whole part alone. The function from 32 bits is exact.
-/

namespace HfRisc.Soft

open HfRisc.Lib (Format truncate)

variable {a : BitVec 64}

/-! ## What is shifted out -/

/-- The whole part from a window of the significand. -/
theorem whole_window (point : ℕ) (hpoint : point ≤ 53) (h0 : binary64.exponent a ≠ 0)
    (he : binary64.exponent a ≤ 1022 + point) : binary64.whole a =
      (2 ^ 52 + binary64.fraction a) / 2 ^ (53 - point) /
        2 ^ (1022 + point - binary64.exponent a) := by
  have hexp : 1075 - binary64.exponent a = 53 - point + (1022 + point - binary64.exponent a) := by
    omega
  have hwhole : binary64.whole a =
      (2 ^ 52 + binary64.fraction a) / 2 ^ (1075 - binary64.exponent a) :=
    Format.whole_eq h0 (show _ ≤ 1075 by omega)
  rw [hwhole, hexp, Nat.pow_add, Nat.div_div_eq_div_mul]

/-- The whole part lies between the powers of two of its exponent. -/
theorem whole_lt {k : ℕ} : binary64.whole a < 2 ^ k ↔ binary64.exponent a < 1023 + k :=
  Format.whole_lt

theorem abs_value_lt {k : ℕ} : |binary64.value a| < 2 ^ k ↔ binary64.exponent a < 1023 + k :=
  Format.abs_value_lt_two_pow

theorem whole_eq_zero : binary64.whole a = 0 ↔ binary64.exponent a < 1023 := by
  rw [← Nat.lt_one_iff]
  exact whole_lt (k := 0)

theorem signd_bool : decide (signd a ≠ 0) = a.msb := by
  rw [Bool.decide_congr signd_ne_zero, Bool.decide_eq_true]

/-! ## 32 bits -/

/-- The number rounded toward zero is one of the signed type. -/
def FitsSigned (w : ℕ) (a : BitVec 64) : Prop :=
  binary64.IsFinite a ∧ -2 ^ (w - 1) ≤ truncate (binary64.value a) ∧
    truncate (binary64.value a) < 2 ^ (w - 1)

/-- The number rounded toward zero is one of the unsigned type. -/
def FitsUnsigned (w : ℕ) (a : BitVec 64) : Prop :=
  binary64.IsFinite a ∧ 0 ≤ truncate (binary64.value a) ∧ truncate (binary64.value a) < 2 ^ w

theorem truncate_eq_zero (h : binary64.exponent a < 1023) :
    truncate (binary64.value a) = 0 := by
  rw [Format.truncate_value, whole_eq_zero.mpr h]
  split <;> rfl

theorem exponent_zero : binary64.exponent (0 : BitVec 64) = 0 := rfl

theorem toNat_mantd_bounds : 2 ^ 30 ≤ (mantd a).toNat ∧ (mantd a).toNat < 2 ^ 31 := by
  have hfraction : binary64.fraction a < 2 ^ 52 := Format.fraction_lt
  rw [toNat_mantd]
  omega

/-- Below the exponent where it stops, `__fixdfsi` rounds toward zero. -/
theorem fixdfsi_of_lt (h : binary64.exponent a < 1053) :
    (fixdfsi a).toInt = truncate (binary64.value a) := by
  by_cases ha : a = 0
  · subst ha
    exact (truncate_eq_zero (by rw [exponent_zero]; decide)).symm
  rw [fixdfsi, if_neg (halves_eq_zero.not.mpr ha)]
  rcases Nat.lt_or_ge (binary64.exponent a) 1022 with hsmall | hlarge
  · rw [fixdf_zero (.inr (by omega)), truncate_eq_zero (by omega)]
    rfl
  · have hbounds := toNat_mantd_bounds (a := a)
    have hne : mantd a ≠ 0 := fun hz => by
      rw [hz] at hbounds
      exact absurd hbounds.1 (by decide)
    have hwhole : ((mantd a).sshiftRight (1022 + 31 - binary64.exponent a)).toNat =
        binary64.whole a := by
      rw [Lib.toNat_sshiftRight (by omega), toNat_mantd,
        whole_window 31 (by decide) (by omega) (by omega)]
    have hlt : binary64.whole a < 2 ^ 30 := whole_lt.mpr h
    rw [fixdf_shift (by omega) (by omega) hne, signd_bool, Lib.toInt_signed (by omega), hwhole,
      Format.truncate_value]

/-- It stops with 0. -/
theorem fixdfsi_of_eq (h : binary64.exponent a = 1053) : fixdfsi a = 0 :=
  fixdf_guarded (.inl h)

/-- The least number of the type has an exponent of its own. -/
theorem fixdfsi_of_gt (h : 1053 < binary64.exponent a) (hfits : FitsSigned 32 a) :
    (fixdfsi a).toInt = truncate (binary64.value a) := by
  have hwhole : ¬binary64.whole a < 2 ^ 31 := by
    rw [whole_lt]
    omega
  obtain ⟨-, hlow, hhigh⟩ := hfits
  rw [Format.truncate_value] at *
  have hmsb : a.msb = true := by
    cases hs : a.msb with
    | true => rfl
    | false =>
      rw [hs, if_neg Bool.false_ne_true] at hhigh
      omega
  have ha : a ≠ 0 := fun hz => by
    rw [hz] at hmsb
    exact absurd hmsb (by decide)
  rw [if_pos hmsb] at hlow ⊢
  rw [fixdfsi, if_neg (halves_eq_zero.not.mpr ha), fixdf_large (by omega),
    if_pos (signd_ne_zero.mpr hmsb)]
  have hleast : ((1 : Word) <<< 31).toInt = -2 ^ 31 := by decide
  omega

theorem fixdfsi_iff (hfits : FitsSigned 32 a) :
    (fixdfsi a).toInt = truncate (binary64.value a) ↔
      ¬(2 ^ 30 ≤ |binary64.value a| ∧ |binary64.value a| < 2 ^ 31) := by
  rw [← not_lt, abs_value_lt, abs_value_lt]
  rcases Nat.lt_trichotomy (binary64.exponent a) 1053 with hlt | heq | hgt
  · exact iff_of_true (fixdfsi_of_lt hlt) (by omega)
  · have hwhole : ¬binary64.whole a < 2 ^ 30 := by
      rw [whole_lt]
      omega
    have hzero : (0 : Word).toInt = 0 := rfl
    rw [fixdfsi_of_eq heq, Format.truncate_value, hzero]
    refine iff_of_false ?_ (by omega)
    split <;> omega
  · exact iff_of_true (fixdfsi_of_gt hgt hfits) (by omega)

/-- A number that fits an unsigned type is not negative, or rounded to 0. -/
theorem msb_of_fits {w : ℕ} (hfits : FitsUnsigned w a) (h : 1023 ≤ binary64.exponent a) :
    a.msb = false := by
  have hwhole := whole_eq_zero.not.mpr (Nat.not_lt_of_le h)
  obtain ⟨-, hlow, -⟩ := hfits
  rw [Format.truncate_value] at hlow
  cases hs : a.msb with
  | false => rfl
  | true =>
    rw [if_pos hs] at hlow
    omega

/-- Its exponent fits as well. -/
theorem exponent_lt_of_fits {w : ℕ} (hfits : FitsUnsigned w a) :
    binary64.exponent a < 1023 + w := by
  rcases Nat.lt_or_ge (binary64.exponent a) 1023 with hsmall | hlarge
  · omega
  · have hmsb := msb_of_fits hfits hlarge
    obtain ⟨-, -, hhigh⟩ := hfits
    rw [Format.truncate_value, if_neg (Bool.eq_false_iff.mp hmsb)] at hhigh
    exact whole_lt.mp (by exact_mod_cast hhigh)

/-- Below the exponent where it stops, `__fixunsdfsi` rounds toward zero. -/
theorem fixunsdfsi_of_lt (hfits : FitsUnsigned 32 a) (h : binary64.exponent a < 1054) :
    ((fixunsdfsi a).toNat : ℤ) = truncate (binary64.value a) := by
  by_cases ha : a = 0
  · subst ha
    exact (truncate_eq_zero (by rw [exponent_zero]; decide)).symm
  rw [fixunsdfsi, if_neg (halves_eq_zero.not.mpr ha)]
  rcases Nat.lt_or_ge (binary64.exponent a) 1023 with hsmall | hlarge
  · rw [fixdf_zero (.inr (by omega)), truncate_eq_zero hsmall]
    rfl
  · have hwindow := toNat_window a (k := 11) (by decide)
    have hne : ((upper a &&& 0xFFFFF) ||| hiddend) <<< 11 ||| lower a >>> 21 ≠ 0 := fun hz => by
      have hzero : (0 : Word).toNat = 0 := rfl
      rw [hz, hzero] at hwindow
      omega
    rw [fixdf_shift (by omega) (by omega) hne, if_neg Bool.false_ne_true,
      BitVec.toNat_ushiftRight, Nat.shiftRight_eq_div_pow, hwindow, Format.truncate_value,
      if_neg (Bool.eq_false_iff.mp (msb_of_fits hfits hlarge)),
      whole_window 32 (by decide) (by omega) (by omega)]

/-- It stops with 0. -/
theorem fixunsdfsi_of_eq (h : binary64.exponent a = 1054) : fixunsdfsi a = 0 :=
  fixdf_guarded (.inl h)

theorem fixunsdfsi_iff (hfits : FitsUnsigned 32 a) :
    ((fixunsdfsi a).toNat : ℤ) = truncate (binary64.value a) ↔ |binary64.value a| < 2 ^ 31 := by
  have hexp := exponent_lt_of_fits hfits
  rw [abs_value_lt]
  rcases Nat.lt_or_ge (binary64.exponent a) 1054 with hlt | hge
  · exact iff_of_true (fixunsdfsi_of_lt hfits hlt) (by omega)
  · have hwhole : ¬binary64.whole a < 2 ^ 31 := by
      rw [whole_lt]
      omega
    have hzero : (0 : Word).toNat = 0 := rfl
    rw [fixunsdfsi_of_eq (by omega), hzero, Format.truncate_value,
      if_neg (Bool.eq_false_iff.mp (msb_of_fits hfits (by omega)))]
    exact iff_of_false (by omega) (by omega)

/-! ## 64 bits -/

/-- With the binary point above the fraction too little is left. -/
theorem shifted_lt_whole {l : ℕ} (hl : l < 2 ^ 63) (hlow : 1023 ≤ binary64.exponent a)
    (hhigh : binary64.exponent a < 1086) :
    l / 2 ^ (1086 - binary64.exponent a) < binary64.whole a := by
  obtain ⟨k, hk⟩ : ∃ k, binary64.exponent a = 1023 + k := ⟨_, (Nat.add_sub_cancel' hlow).symm⟩
  have hpow : 2 ^ 63 = 2 ^ k * 2 ^ (1086 - binary64.exponent a) := by
    rw [← Nat.pow_add]
    congr 1
    omega
  have hwhole : 2 ^ k ≤ binary64.whole a := Nat.le_of_not_lt fun h => by
    have := whole_lt.mp h
    omega
  refine Nat.lt_of_lt_of_le ((Nat.div_lt_iff_lt_mul (Nat.two_pow_pos _)).mpr ?_) hwhole
  exact hpow ▸ hl

theorem abs_value_lt_one : |binary64.value a| < 1 ↔ binary64.exponent a < 1023 := by
  have h := abs_value_lt (a := a) (k := 0)
  rwa [pow_zero] at h

theorem fixdfdi_of_lt (h : binary64.exponent a < 1023) : fixdfdi a = 0 :=
  fixdf_guarded (.inr (by omega))

/-- What `__fixdfdi` leaves of the significand. -/
theorem toInt_fixdfdi (hlow : 1023 ≤ binary64.exponent a) (hhigh : binary64.exponent a < 1086) :
    (fixdfdi a).toInt =
      if a.msb then -(((mantdLl a).toNat / 2 ^ (1086 - binary64.exponent a) : ℕ) : ℤ)
      else ((mantdLl a).toNat / 2 ^ (1086 - binary64.exponent a) : ℕ) := by
  have ha : a ≠ 0 := fun hz => by
    rw [hz, exponent_zero] at hlow
    omega
  have hfraction : binary64.fraction a < 2 ^ 52 := Format.fraction_lt
  have hl := toNat_mantdLl a
  have hne : mantdLl a ≠ 0 := fun hz => by
    have hzero : (0 : BitVec 64).toNat = 0 := rfl
    rw [hz, hzero] at hl
    omega
  have hshifted : ((mantdLl a).sshiftRight (1022 + 64 - binary64.exponent a)).toNat =
      (mantdLl a).toNat / 2 ^ (1086 - binary64.exponent a) := Lib.toNat_sshiftRight (by omega)
  have hle := Nat.div_le_self (mantdLl a).toNat (2 ^ (1086 - binary64.exponent a))
  rw [fixdfdi, if_neg (halves_eq_zero.not.mpr ha), fixdf_shift (by omega) (by omega) hne,
    signd_bool, Lib.toInt_signed (by omega), hshifted]

theorem fixdfdi_of_eq (h : binary64.exponent a = 1086) : fixdfdi a = 0 :=
  fixdf_guarded (.inl h)

theorem fixdfdi_iff (hfits : FitsSigned 64 a) :
    (fixdfdi a).toInt = truncate (binary64.value a) ↔ |binary64.value a| < 1 := by
  have hzero : (0 : BitVec 64).toInt = 0 := rfl
  rw [abs_value_lt_one]
  rcases Nat.lt_or_ge (binary64.exponent a) 1023 with hsmall | hlarge
  · refine iff_of_true ?_ hsmall
    rw [fixdfdi_of_lt hsmall, truncate_eq_zero hsmall, hzero]
  · refine iff_of_false ?_ (Nat.not_lt_of_le hlarge)
    rcases Nat.lt_trichotomy (binary64.exponent a) 1086 with hlt | heq | hgt
    · have hfraction : binary64.fraction a < 2 ^ 52 := Format.fraction_lt
      have hl := toNat_mantdLl a
      have hless := shifted_lt_whole (l := (mantdLl a).toNat) (by omega) hlarge hlt
      rw [toInt_fixdfdi hlarge hlt, Format.truncate_value]
      split <;> omega
    · have hwhole := whole_eq_zero.not.mpr (Nat.not_lt_of_le hlarge)
      rw [fixdfdi_of_eq heq, hzero, Format.truncate_value]
      split <;> omega
    · have hwhole : ¬binary64.whole a < 2 ^ 64 := by
        rw [whole_lt]
        omega
      obtain ⟨-, hlow, hhigh⟩ := hfits
      rw [Format.truncate_value] at hlow hhigh
      by_cases hs : a.msb = true
      · rw [if_pos hs] at hlow
        omega
      · rw [if_neg hs] at hhigh
        omega

theorem fixunsdfdi_of_lt (h : binary64.exponent a < 1023) : fixunsdfdi a = 0 :=
  fixdf_guarded (.inr (by omega))

theorem fixunsdfdi_of_eq (h : binary64.exponent a = 1086) : fixunsdfdi a = 0 :=
  fixdf_guarded (.inl h)

/-- `__fixunsdfdi` shifts the exponent with the fraction, and without the implicit bit. -/
theorem toNat_fixunsdfdi (hlow : 1023 ≤ binary64.exponent a) (hhigh : binary64.exponent a < 1086) :
    (fixunsdfdi a).toNat = a.toNat / 2 ^ (1086 - binary64.exponent a) := by
  have ha : a ≠ 0 := fun hz => by
    rw [hz, exponent_zero] at hlow
    omega
  rw [fixunsdfdi, if_neg ha, fixdf_shift (by omega) (by omega) ha, if_neg Bool.false_ne_true,
    BitVec.toNat_ushiftRight, Nat.shiftRight_eq_div_pow]

theorem fixunsdfdi_iff (hfits : FitsUnsigned 64 a) :
    ((fixunsdfdi a).toNat : ℤ) = truncate (binary64.value a) ↔ |binary64.value a| < 1 := by
  have hzero : (0 : BitVec 64).toNat = 0 := rfl
  have hexp := exponent_lt_of_fits hfits
  rw [abs_value_lt_one]
  rcases Nat.lt_or_ge (binary64.exponent a) 1023 with hsmall | hlarge
  · refine iff_of_true ?_ hsmall
    rw [fixunsdfdi_of_lt hsmall, truncate_eq_zero hsmall, hzero]
    rfl
  · refine iff_of_false ?_ (Nat.not_lt_of_le hlarge)
    have hmsb := msb_of_fits hfits hlarge
    rw [Format.truncate_value, if_neg (Bool.eq_false_iff.mp hmsb)]
    rcases Nat.lt_or_ge (binary64.exponent a) 1086 with hlt | hge
    · have hless := shifted_lt_whole (l := a.toNat)
        (by have := BitVec.msb_eq_false_iff_two_mul_lt.mp hmsb; omega) hlarge hlt
      rw [toNat_fixunsdfdi hlarge hlt]
      omega
    · have hwhole := whole_eq_zero.not.mpr (Nat.not_lt_of_le hlarge)
      rw [fixunsdfdi_of_eq (by omega), hzero]
      omega

/-! ## There and back -/

/-- The double of an integer of 32 bits is finite and fits. -/
theorem fits_of_value {n : Word} (hvalue : binary64.value a = n.toInt) : FitsSigned 32 a := by
  have hlow : -2 ^ 31 ≤ n.toInt := BitVec.le_toInt n
  have hhigh : n.toInt < 2 ^ 31 := BitVec.toInt_lt
  have hexp : binary64.exponent a < 1023 + 32 := by
    rw [← abs_value_lt, hvalue, ← Int.cast_abs]
    have habs : |n.toInt| < 2 ^ 32 := by
      rw [Int.abs_eq_natAbs]
      omega
    exact_mod_cast habs
  refine ⟨show _ + 1 < 2 ^ 11 by omega, ?_⟩
  rw [hvalue, Lib.truncate_intCast]
  exact ⟨hlow, hhigh⟩

theorem fixdfsi_of_value {n : Word} (hvalue : binary64.value a = n.toInt) :
    fixdfsi a = n ↔ |n.toInt| < 2 ^ 30 ∨ n.toInt = -2 ^ 31 := by
  have hhigh : n.toInt < 2 ^ 31 := BitVec.toInt_lt
  have hlow : -2 ^ 31 ≤ n.toInt := BitVec.le_toInt n
  have hiff := fixdfsi_iff (fits_of_value hvalue)
  rw [hvalue, Lib.truncate_intCast, BitVec.toInt_inj, ← Int.cast_abs] at hiff
  have hrange : ((2 : ℚ) ^ 30 ≤ (|n.toInt| : ℤ) ∧ ((|n.toInt| : ℤ) : ℚ) < 2 ^ 31) ↔
      (2 ^ 30 ≤ |n.toInt| ∧ |n.toInt| < 2 ^ 31) := by norm_cast
  rw [hiff, hrange, Int.abs_eq_natAbs]
  omega

/-- The double 1. -/
theorem truncate_value_one : truncate (binary64.value (0x3FF0000000000000 : BitVec 64)) = 1 := by
  have hmagnitude : Lib.magnitude (0x3FF0000000000000 : BitVec 64) =
      (binary64.bias + 0) * 2 ^ binary64.fracBits := by decide
  have hscaled : Lib.scaled binary64.fracBits (Lib.magnitude (0x3FF0000000000000 : BitVec 64)) =
      2 ^ 0 * binary64.unit := by
    rw [hmagnitude, Format.scaled_two_pow]
  have hmsb : (0x3FF0000000000000 : BitVec 64).msb = false := by decide
  have hvalue : binary64.value (0x3FF0000000000000 : BitVec 64) = (1 : ℤ) := by
    rw [Format.value_of_scaled hscaled, hmsb]
    norm_num
  rw [hvalue, Lib.truncate_intCast]

end HfRisc.Soft

namespace HfRisc.Results

open HfRisc.Soft HfRisc.Lib

/-- The functions to 32 bits round toward zero but for the numbers with the largest exponent that
fits, and an integer comes back from its double unless it is as large. -/
theorem double_to_int32 (a : BitVec 64) (n : Word) {fuel : ℕ} (hfuel : 6 < fuel) :
    (FitsSigned 32 a → ((fixdfsi a).toInt = truncate (binary64.value a) ↔
      ¬(2 ^ 30 ≤ |binary64.value a| ∧ |binary64.value a| < 2 ^ 31))) ∧
    (FitsUnsigned 32 a → (((fixunsdfsi a).toNat : ℤ) = truncate (binary64.value a) ↔
      |binary64.value a| < 2 ^ 31)) ∧
    ∃ d, floatsidf fuel n = some d ∧
      (fixdfsi d = n ↔ |n.toInt| < 2 ^ 30 ∨ n.toInt = -2 ^ 31) := by
  refine ⟨fixdfsi_iff, fixunsdfsi_iff, ?_⟩
  obtain ⟨d, hd, hvalue⟩ := floatsidf_value hfuel n
  exact ⟨d, hd, fixdfsi_of_value hvalue⟩

theorem double_to_int32_one :
    ((fixdfsi 0x3FF0000000000000).toInt =
        truncate (binary64.value (0x3FF0000000000000 : BitVec 64)) ↔
      ¬(2 ^ 30 ≤ |binary64.value (0x3FF0000000000000 : BitVec 64)| ∧
        |binary64.value (0x3FF0000000000000 : BitVec 64)| < 2 ^ 31)) ∧
    (((fixunsdfsi 0x3FF0000000000000).toNat : ℤ) =
        truncate (binary64.value (0x3FF0000000000000 : BitVec 64)) ↔
      |binary64.value (0x3FF0000000000000 : BitVec 64)| < 2 ^ 31) ∧
    ∃ d, floatsidf 7 0x80000000 = some d ∧ (fixdfsi d = 0x80000000 ↔
      |(0x80000000 : Word).toInt| < 2 ^ 30 ∨ (0x80000000 : Word).toInt = -2 ^ 31) := by
  obtain ⟨hsigned, hunsigned, hback⟩ :=
    double_to_int32 0x3FF0000000000000 0x80000000 (show 6 < 7 by decide)
  refine ⟨hsigned ⟨by decide, ?_⟩, hunsigned ⟨by decide, ?_⟩, hback⟩
  · rw [truncate_value_one]
    decide
  · rw [truncate_value_one]
    decide

/-- 2 ^ 30 goes to a double and comes back as 0. -/
theorem double_to_int32_boundary :
    ¬((∀ a, FitsSigned 32 a → (fixdfsi a).toInt = truncate (binary64.value a)) ∧
      (∀ a, FitsUnsigned 32 a → ((fixunsdfsi a).toNat : ℤ) = truncate (binary64.value a)) ∧
      ∀ (fuel : ℕ) (n : Word), 6 < fuel → ∃ d, floatsidf fuel n = some d ∧ fixdfsi d = n) := by
  rintro ⟨-, -, hback⟩
  obtain ⟨d, hd, hn⟩ := hback 7 0x40000000 (by decide)
  have hdouble : floatsidf 7 0x40000000 = some 0x41D0000000000000 := by decide
  rw [hdouble, Option.some.injEq] at hd
  subst hd
  exact absurd hn (by decide)

/-- The functions to 64 bits round toward zero only what is rounded to 0. -/
theorem double_to_int64 (a : BitVec 64) :
    (FitsSigned 64 a →
      ((fixdfdi a).toInt = truncate (binary64.value a) ↔ |binary64.value a| < 1)) ∧
    (FitsUnsigned 64 a →
      (((fixunsdfdi a).toNat : ℤ) = truncate (binary64.value a) ↔ |binary64.value a| < 1)) :=
  ⟨fixdfdi_iff, fixunsdfdi_iff⟩

/-- 0.75 and -0.75, and 0.75 for the unsigned function. -/
theorem double_to_int64_fraction :
    (fixdfdi 0x3FE8000000000000).toInt =
      truncate (binary64.value (0x3FE8000000000000 : BitVec 64)) ∧
    (fixdfdi 0xBFE8000000000000).toInt =
      truncate (binary64.value (0xBFE8000000000000 : BitVec 64)) ∧
    ((fixunsdfdi 0x3FE8000000000000).toNat : ℤ) =
      truncate (binary64.value (0x3FE8000000000000 : BitVec 64)) := by
  have hsmall : ∀ a : BitVec 64, binary64.exponent a = 1022 →
      truncate (binary64.value a) = 0 ∧ |binary64.value a| < 1 := by
    intro a ha
    refine ⟨truncate_eq_zero (by omega), ?_⟩
    have hlt : |binary64.value a| < 2 ^ 0 := abs_value_lt.mpr (by omega)
    rwa [pow_zero] at hlt
  have hsigned : ∀ a : BitVec 64, binary64.exponent a = 1022 → binary64.IsFinite a →
      (fixdfdi a).toInt = truncate (binary64.value a) := by
    intro a ha hfinite
    obtain ⟨hzero, habs⟩ := hsmall a ha
    exact ((double_to_int64 a).1 ⟨hfinite, by rw [hzero]; decide, by rw [hzero]; decide⟩).mpr habs
  obtain ⟨hzero, habs⟩ := hsmall 0x3FE8000000000000 (by decide)
  exact ⟨hsigned _ (by decide) (by decide), hsigned _ (by decide) (by decide),
    ((double_to_int64 _).2 ⟨by decide, by rw [hzero], by rw [hzero]; decide⟩).mpr habs⟩

/-- 1 becomes 0. -/
theorem double_to_int64_one :
    ¬((∀ a, FitsSigned 64 a → (fixdfdi a).toInt = truncate (binary64.value a)) ∧
      (∀ a, FitsUnsigned 64 a →
        ((fixunsdfdi a).toNat : ℤ) = truncate (binary64.value a))) := by
  rintro ⟨hsigned, -⟩
  have hone := hsigned 0x3FF0000000000000
    ⟨by decide, by rw [truncate_value_one]; decide⟩
  rw [truncate_value_one] at hone
  exact absurd hone (by decide)

end HfRisc.Results
