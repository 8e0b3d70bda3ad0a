import Mathlib.Data.BitVec
import Mathlib.Data.Rat.Floor
import Mathlib.Order.Monotone.Basic
import Mathlib.Tactic.FieldSimp
import Mathlib.Tactic.Positivity
import Mathlib.Tactic.Ring

/-!
# Binary floating-point formats

The bits of a number below its sign are an exponent and a fraction. Taken together they are its
magnitude, and they grow with the number: with equal exponents the one with the larger fraction
is larger, and the largest fraction is followed by the least one of the next exponent. This also
holds where the numbers without the implicit bit end. So numbers are in the order of their signed
magnitudes.
-/

namespace HfRisc.Lib

/-- A format: how many bits the fraction has, and what is added to an exponent. -/
structure Format where
  fracBits : ℕ
  bias : ℕ
  bias_pos : 0 < bias

/-! ## Magnitudes -/

/-- What a magnitude stands for, in units of the least number above 0. -/
def scaled (f m : ℕ) : ℕ :=
  if m < 2 ^ f then m else (2 ^ f + m % 2 ^ f) * 2 ^ (m / 2 ^ f - 1)

section Scaled

variable {f m : ℕ}

theorem scaled_of_lt (h : m < 2 ^ f) : scaled f m = m := if_pos h

theorem scaled_of_le (h : 2 ^ f ≤ m) :
    scaled f m = (2 ^ f + m % 2 ^ f) * 2 ^ (m / 2 ^ f - 1) := if_neg (Nat.not_lt_of_le h)

/-- The implicit bit is in the place of the exponent 1. -/
theorem scaled_exponent {e r : ℕ} (hr : r < 2 ^ f) :
    scaled f ((e + 1) * 2 ^ f + r) = (2 ^ f + r) * 2 ^ e := by
  have hpos : 0 < 2 ^ f := Nat.two_pow_pos f
  have hle : 2 ^ f ≤ (e + 1) * 2 ^ f + r := by
    rw [Nat.succ_mul]
    omega
  rw [scaled_of_le hle, Nat.mul_comm (e + 1), Nat.mul_add_mod, Nat.mod_eq_of_lt hr,
    Nat.mul_add_div hpos, Nat.div_eq_of_lt hr, Nat.add_zero, Nat.add_sub_cancel]

theorem scaled_lt_succ (f m : ℕ) : scaled f m < scaled f (m + 1) := by
  have hpos : 0 < 2 ^ f := Nat.two_pow_pos f
  rcases Nat.lt_or_ge m (2 ^ f) with hlt | hge
  · rw [scaled_of_lt hlt]
    rcases Nat.lt_or_eq_of_le (Nat.succ_le_of_lt hlt) with hless | heq
    · rw [scaled_of_lt hless]
      exact Nat.lt_succ_self m
    · have hfirst := scaled_exponent (f := f) (e := 0) hpos
      rw [Nat.zero_add, Nat.one_mul, Nat.add_zero, Nat.pow_zero, Nat.mul_one] at hfirst
      rw [show m + 1 = 2 ^ f from heq, hfirst]
      exact hlt
  · -- the number by its exponent and its fraction
    obtain ⟨e, he⟩ : ∃ e, m / 2 ^ f = e + 1 :=
      Nat.exists_eq_succ_of_ne_zero (Nat.div_pos hge hpos).ne'
    have hm : m = (e + 1) * 2 ^ f + m % 2 ^ f := by rw [← he, Nat.div_add_mod']
    have hr : m % 2 ^ f < 2 ^ f := Nat.mod_lt m hpos
    generalize m % 2 ^ f = r at hm hr
    subst hm
    rw [scaled_exponent hr]
    rcases Nat.lt_or_eq_of_le (Nat.succ_le_of_lt hr) with hless | heq
    · rw [Nat.add_assoc, scaled_exponent hless]
      exact Nat.mul_lt_mul_of_pos_right (by omega) (Nat.two_pow_pos e)
    · have hnext : (e + 1) * 2 ^ f + r + 1 = (e + 1 + 1) * 2 ^ f + 0 := by
        rw [Nat.succ_mul (e + 1)]
        omega
      rw [hnext, scaled_exponent hpos, Nat.pow_succ 2 e, Nat.mul_comm _ 2, ← Nat.mul_assoc]
      exact Nat.mul_lt_mul_of_pos_right (by omega) (Nat.two_pow_pos e)

theorem strictMono_scaled (f : ℕ) : StrictMono (scaled f) :=
  strictMono_nat_of_lt_succ (scaled_lt_succ f)

end Scaled

/-! ## Signed magnitudes -/

section Signs

variable {w : ℕ} {x y : BitVec w}

/-- The bits below the sign. -/
def magnitude (x : BitVec w) : ℕ := x.toNat % 2 ^ (w - 1)

theorem magnitude_zero : magnitude (0 : BitVec w) = 0 :=
  (congrArg (· % 2 ^ (w - 1)) BitVec.toNat_zero).trans (Nat.zero_mod _)

/-- The magnitude with the sign. Both zeros have 0. -/
def signedMagnitude (x : BitVec w) : ℤ := if x.msb then -(magnitude x : ℤ) else magnitude x

theorem two_pow_pred (hw : 0 < w) : 2 ^ w = 2 * 2 ^ (w - 1) := by
  rw [← Nat.pow_succ', Nat.succ_eq_add_one, Nat.sub_add_cancel hw]

theorem toInt_of_msb_false (hw : 0 < w) (h : x.msb = false) : x.toInt = magnitude x := by
  have hlt := BitVec.msb_eq_false_iff_two_mul_lt.mp h
  have hpow := two_pow_pred hw
  rw [magnitude, Nat.mod_eq_of_lt (by omega), BitVec.toInt_eq_toNat_of_msb h]

theorem toInt_of_msb_true (hw : 0 < w) (h : x.msb = true) :
    x.toInt = magnitude x - 2 ^ (w - 1) := by
  have hge := BitVec.msb_eq_true_iff_two_mul_ge.mp h
  have hpow := two_pow_pred hw
  have hlt := x.isLt
  have hmod : x.toNat % 2 ^ (w - 1) = x.toNat - 2 ^ (w - 1) := by
    rw [Nat.mod_eq_sub_mod (by omega), Nat.mod_eq_of_lt (by omega)]
  rw [magnitude, hmod, BitVec.toInt_eq_msb_cond, if_pos h]
  push_cast [Nat.cast_sub (show 2 ^ (w - 1) ≤ x.toNat by omega)]
  have hcast : (2 : ℤ) ^ w = 2 * 2 ^ (w - 1) := by exact_mod_cast hpow
  omega

/-- The bits as an integer in two's complement are in the order of the signed magnitudes, where
at most one sign is set and no 0 has it. -/
theorem signedMagnitude_lt (hw : 0 < w) (hx : x.msb = true → magnitude x ≠ 0)
    (hy : y.msb = true → magnitude y ≠ 0) (h : ¬(x.msb = true ∧ y.msb = true)) :
    signedMagnitude x < signedMagnitude y ↔ x.toInt < y.toInt := by
  have hltx : magnitude x < 2 ^ (w - 1) := Nat.mod_lt _ (Nat.two_pow_pos _)
  have hlty : magnitude y < 2 ^ (w - 1) := Nat.mod_lt _ (Nat.two_pow_pos _)
  zify at hltx hlty
  rw [signedMagnitude, signedMagnitude]
  cases hsx : x.msb <;> cases hsy : y.msb
  · simp only [Bool.false_eq_true, if_false, toInt_of_msb_false hw hsx, toInt_of_msb_false hw hsy]
  · have hne := hy hsy
    simp only [Bool.false_eq_true, if_false, if_true, toInt_of_msb_false hw hsx,
      toInt_of_msb_true hw hsy]
    omega
  · have hne := hx hsx
    simp only [Bool.false_eq_true, if_false, if_true, toInt_of_msb_true hw hsx,
      toInt_of_msb_false hw hsy]
    omega
  · exact absurd ⟨hsx, hsy⟩ h

/-- With both signs set they are in the opposite order. -/
theorem signedMagnitude_lt_neg (hw : 0 < w) (hx : x.msb = true) (hy : y.msb = true) :
    signedMagnitude x < signedMagnitude y ↔ y.toInt < x.toInt := by
  rw [signedMagnitude, signedMagnitude, if_pos hx, if_pos hy, toInt_of_msb_true hw hx,
    toInt_of_msb_true hw hy]
  omega

end Signs

/-- An odd extension to the integers. -/
def signed (g : ℕ → ℕ) (k : ℤ) : ℤ := if k < 0 then -(g k.natAbs : ℤ) else g k.natAbs

theorem signed_lt_signed {g : ℕ → ℕ} (hg : StrictMono g) {j k : ℤ} (hjk : j < k) :
    signed g j < signed g k := by
  rw [signed, signed]
  split
  · next hj =>
    have hpos : g 0 < g j.natAbs := hg (by omega)
    split
    · next hk =>
      have hlt : g k.natAbs < g j.natAbs := hg (by omega)
      omega
    · omega
  · next hj =>
    have hlt : g j.natAbs < g k.natAbs := hg (by omega)
    rw [if_neg (by omega)]
    omega

/-! ## Values -/

namespace Format

variable (F : Format) {w : ℕ} (x : BitVec w)

/-- The exponent as it is stored. -/
def exponent : ℕ := magnitude x / 2 ^ F.fracBits

/-- The fraction as it is stored. -/
def fraction : ℕ := magnitude x % 2 ^ F.fracBits

/-- The number that the bits stand for. -/
def value : ℚ :=
  (if x.msb then -1 else 1) *
    if F.exponent x = 0 then F.fraction x / 2 ^ F.fracBits * (2 : ℚ) ^ (1 - F.bias : ℤ)
    else (1 + F.fraction x / 2 ^ F.fracBits) * (2 : ℚ) ^ (F.exponent x - F.bias : ℤ)

/-- The largest exponent is for infinities and for what is no number. -/
def IsFinite : Prop := F.exponent x + 1 < 2 ^ (w - 1 - F.fracBits)

instance : Decidable (F.IsFinite x) := inferInstanceAs (Decidable (_ < _))

/-- How many of the least number above 0 make up 1. -/
def unit : ℕ := 2 ^ (F.bias + F.fracBits - 1)

variable {F x}

theorem unit_pos : 0 < F.unit := Nat.two_pow_pos _

/-- The magnitude is the exponent and the fraction. -/
theorem magnitude_eq : magnitude x = F.exponent x * 2 ^ F.fracBits + F.fraction x :=
  (Nat.div_add_mod' _ _).symm

theorem fraction_lt : F.fraction x < 2 ^ F.fracBits := Nat.mod_lt _ (Nat.two_pow_pos _)

/-- The standard form of a value, in units. -/
theorem scaled_magnitude :
    (if F.exponent x = 0 then F.fraction x / 2 ^ F.fracBits * (2 : ℚ) ^ (1 - F.bias : ℤ)
      else (1 + F.fraction x / 2 ^ F.fracBits) * (2 : ℚ) ^ (F.exponent x - F.bias : ℤ)) =
    (scaled F.fracBits (magnitude x) : ℚ) / F.unit := by
  have hr := fraction_lt (F := F) (x := x)
  obtain ⟨b, hb⟩ : ∃ b, F.bias = b + 1 := Nat.exists_eq_succ_of_ne_zero F.bias_pos.ne'
  have hunit : (F.unit : ℚ) = 2 ^ b * 2 ^ F.fracBits := by
    rw [unit, hb, Nat.add_right_comm, Nat.add_sub_cancel, ← pow_add]
    push_cast
    rfl
  rw [magnitude_eq (F := F), hunit, hb]
  cases he : F.exponent x with
  | zero =>
    have hpow : (2 : ℚ) ^ (1 - (b + 1 : ℕ) : ℤ) = (2 ^ b)⁻¹ := by
      rw [← zpow_natCast, ← zpow_neg]
      congr 1
      push_cast
      ring
    rw [if_pos rfl, Nat.zero_mul, Nat.zero_add, scaled_of_lt hr, hpow]
    field_simp
  | succ e =>
    have hpow : (2 : ℚ) ^ ((e + 1 : ℕ) - (b + 1 : ℕ) : ℤ) = 2 ^ e / 2 ^ b := by
      rw [← zpow_natCast, ← zpow_natCast, ← zpow_sub₀ two_ne_zero]
      congr 1
      push_cast
      ring
    rw [if_neg (Nat.succ_ne_zero e), scaled_exponent hr, hpow]
    push_cast
    field_simp

theorem value_eq : F.value x = signed (scaled F.fracBits) (signedMagnitude x) / F.unit := by
  have h0 : scaled F.fracBits 0 = 0 := scaled_of_lt (Nat.two_pow_pos _)
  rw [value, scaled_magnitude, signedMagnitude]
  cases x.msb with
  | false =>
    rw [if_neg Bool.false_ne_true, if_neg Bool.false_ne_true, one_mul, signed,
      if_neg (by omega), Int.natAbs_natCast]
    rfl
  | true =>
    rw [if_pos rfl, if_pos rfl, neg_one_mul, signed, Int.natAbs_neg, Int.natAbs_natCast]
    rcases Nat.eq_zero_or_pos (magnitude x) with hz | hpos
    · rw [hz, h0]
      simp
    · rw [if_pos (by omega)]
      push_cast
      rw [neg_div]

/-- Numbers are in the order of their signed magnitudes. -/
theorem value_lt {y : BitVec w} :
    F.value x < F.value y ↔ signedMagnitude x < signedMagnitude y := by
  have hpos : (0 : ℚ) < F.unit := by exact_mod_cast unit_pos
  rw [value_eq, value_eq, div_lt_div_iff_of_pos_right hpos, Int.cast_lt]
  have hmono : StrictMono (signed (scaled F.fracBits)) := fun _ _ =>
    signed_lt_signed (strictMono_scaled _)
  exact hmono.lt_iff_lt

/-- A finite number, and no zero with a sign. -/
structure Comparable (F : Format) (x : BitVec w) : Prop where
  finite : F.IsFinite x
  zero_unsigned : x.msb = true → magnitude x ≠ 0

/-- The bits in two's complement give the order of two numbers with at most one sign. -/
theorem Comparable.value_lt {y : BitVec w} (hx : F.Comparable x) (hy : F.Comparable y)
    (hw : 0 < w) (h : ¬(x.msb = true ∧ y.msb = true)) :
    F.value x < F.value y ↔ x.toInt < y.toInt :=
  Format.value_lt.trans (signedMagnitude_lt hw hx.zero_unsigned hy.zero_unsigned h)

/-- They give the opposite order where both have it. -/
theorem value_lt_neg {y : BitVec w} (hw : 0 < w) (hx : x.msb = true) (hy : y.msb = true) :
    F.value x < F.value y ↔ y.toInt < x.toInt :=
  Format.value_lt.trans (signedMagnitude_lt_neg hw hx hy)

theorem Comparable.value_inj {y : BitVec w} (hx : F.Comparable x) (hy : F.Comparable y)
    (hw : 0 < w) : F.value x = F.value y ↔ x = y := by
  constructor
  · intro h
    by_cases hboth : x.msb = true ∧ y.msb = true
    · have hlt := (value_lt_neg (F := F) hw hboth.1 hboth.2).not.mp h.not_lt
      have hgt := (value_lt_neg (F := F) hw hboth.2 hboth.1).not.mp h.symm.not_lt
      exact BitVec.eq_of_toInt_eq (by omega)
    · have hlt := (hx.value_lt hy hw hboth).not.mp h.not_lt
      have hgt := (hy.value_lt hx hw fun hc => hboth hc.symm).not.mp h.symm.not_lt
      exact BitVec.eq_of_toInt_eq (by omega)
  · rintro rfl
    rfl

end Format

/-! ## Rounding toward zero -/

/-- The integer next to a number on the side of 0. -/
def truncate (q : ℚ) : ℤ := if 0 ≤ q then ⌊q⌋ else ⌈q⌉

theorem truncate_natCast_div (n d : ℕ) : truncate (n / d) = (n / d : ℕ) := by
  rw [truncate, if_pos (by positivity), Rat.floor_natCast_div_natCast]
  exact (Int.natCast_div n d).symm

theorem truncate_intCast (n : ℤ) : truncate n = n := by
  rw [truncate, Int.floor_intCast, Int.ceil_intCast, ite_self]

theorem truncate_neg (q : ℚ) : truncate (-q) = -truncate q := by
  rw [truncate, truncate]
  rcases lt_trichotomy q 0 with hneg | rfl | hpos
  · rw [if_pos (by linarith), if_neg (by linarith), Int.floor_neg]
  · simp
  · rw [if_neg (by linarith), if_pos hpos.le, Int.ceil_neg]

namespace Format

variable (F : Format) {w : ℕ} (x : BitVec w)

/-- The magnitude of a number rounded toward zero. -/
def whole : ℕ := scaled F.fracBits (magnitude x) / F.unit

variable {F x} {k : ℕ}

theorem value_eq_sign : F.value x = (if x.msb then -1 else 1) *
    ((scaled F.fracBits (magnitude x) : ℚ) / F.unit) := by
  rw [value, scaled_magnitude]

/-- A whole number. -/
theorem value_of_scaled {m : ℕ} (h : scaled F.fracBits (magnitude x) = m * F.unit) :
    F.value x = (if x.msb then -1 else 1) * m := by
  have hpos : (F.unit : ℚ) ≠ 0 := by exact_mod_cast unit_pos.ne'
  rw [value_eq_sign, h, Nat.cast_mul, mul_div_cancel_right₀ _ hpos]

theorem truncate_value : truncate (F.value x) = if x.msb then -(F.whole x : ℤ) else F.whole x := by
  rw [value_eq_sign]
  cases x.msb with
  | false => rw [if_neg Bool.false_ne_true, one_mul, truncate_natCast_div]; rfl
  | true => rw [if_pos rfl, neg_one_mul, truncate_neg, truncate_natCast_div]; rfl

theorem abs_value : |F.value x| = (scaled F.fracBits (magnitude x) : ℚ) / F.unit := by
  have hnonneg : (0 : ℚ) ≤ (scaled F.fracBits (magnitude x) : ℚ) / F.unit := by positivity
  rw [value_eq_sign]
  cases x.msb with
  | false => rw [if_neg Bool.false_ne_true, one_mul, abs_of_nonneg hnonneg]
  | true => rw [if_pos rfl, neg_one_mul, abs_neg, abs_of_nonneg hnonneg]

theorem abs_value_lt {n : ℕ} : |F.value x| < n ↔ F.whole x < n := by
  have hpos : (0 : ℚ) < F.unit := by exact_mod_cast unit_pos
  rw [abs_value, div_lt_iff₀ hpos, whole, Nat.div_lt_iff_lt_mul unit_pos]
  exact_mod_cast Iff.rfl

/-- The powers of two have an empty fraction. -/
theorem scaled_two_pow (F : Format) (k : ℕ) :
    scaled F.fracBits ((F.bias + k) * 2 ^ F.fracBits) = 2 ^ k * F.unit := by
  have hb := F.bias_pos
  obtain ⟨e, he⟩ : ∃ e, F.bias + k = e + 1 := Nat.exists_eq_succ_of_ne_zero (by omega)
  have hexp := scaled_exponent (f := F.fracBits) (e := e) (Nat.two_pow_pos _)
  have hsum : F.fracBits + e = k + (F.bias + F.fracBits - 1) := by omega
  simp only [Nat.add_zero] at hexp
  rw [he, hexp, unit, ← pow_add, ← pow_add, hsum]

/-- The exponent says between which powers of two a number lies. -/
theorem whole_lt : F.whole x < 2 ^ k ↔ F.exponent x < F.bias + k := by
  rw [whole, Nat.div_lt_iff_lt_mul unit_pos, ← scaled_two_pow, (strictMono_scaled _).lt_iff_lt,
    exponent, Nat.div_lt_iff_lt_mul (Nat.two_pow_pos _)]

theorem abs_value_lt_two_pow : |F.value x| < 2 ^ k ↔ F.exponent x < F.bias + k := by
  have hwhole : |F.value x| < (2 ^ k : ℕ) ↔ F.whole x < 2 ^ k := abs_value_lt
  rw [← whole_lt, ← hwhole]
  push_cast
  rfl

/-- The bits of the fraction before the binary point. -/
theorem whole_eq (h0 : F.exponent x ≠ 0) (h : F.exponent x ≤ F.bias + F.fracBits) :
    F.whole x = (2 ^ F.fracBits + F.fraction x) / 2 ^ (F.bias + F.fracBits - F.exponent x) := by
  obtain ⟨e, he⟩ := Nat.exists_eq_succ_of_ne_zero h0
  have hunit : F.unit = 2 ^ (F.bias + F.fracBits - F.exponent x) * 2 ^ e := by
    rw [unit, ← pow_add]
    congr 1
    omega
  rw [whole, magnitude_eq (F := F), he, scaled_exponent fraction_lt, ← he, hunit,
    Nat.mul_div_mul_right _ _ (Nat.two_pow_pos e)]

/-- The same with the fraction shifted up by `j` before. -/
theorem whole_eq_shifted {j : ℕ} (h0 : F.exponent x ≠ 0)
    (h : F.exponent x ≤ F.bias + F.fracBits + j) : F.whole x =
      (2 ^ F.fracBits + F.fraction x) * 2 ^ j / 2 ^ (F.bias + F.fracBits + j - F.exponent x) := by
  obtain ⟨e, he⟩ := Nat.exists_eq_succ_of_ne_zero h0
  have hb := F.bias_pos
  have hunit : F.unit * 2 ^ j = 2 ^ (F.bias + F.fracBits + j - F.exponent x) * 2 ^ e := by
    rw [unit, ← pow_add, ← pow_add]
    congr 1
    omega
  rw [whole, magnitude_eq (F := F), he, scaled_exponent fraction_lt, ← he,
    ← Nat.mul_div_mul_right _ _ (Nat.two_pow_pos j), hunit, Nat.mul_right_comm,
    Nat.mul_div_mul_right _ _ (Nat.two_pow_pos e)]

/-- From some exponent on all numbers are whole. -/
theorem value_eq_whole (h : F.bias + F.fracBits ≤ F.exponent x) :
    F.value x = (if x.msb then -1 else 1) * F.whole x := by
  have hb := F.bias_pos
  obtain ⟨e, he⟩ : ∃ e, F.exponent x = e + 1 := Nat.exists_eq_succ_of_ne_zero (by omega)
  have hscaled : scaled F.fracBits (magnitude x) =
      (2 ^ F.fracBits + F.fraction x) * 2 ^ (F.exponent x - (F.bias + F.fracBits)) * F.unit := by
    have hpow : 2 ^ (F.exponent x - (F.bias + F.fracBits)) * F.unit = 2 ^ e := by
      rw [unit, ← pow_add]
      congr 1
      omega
    rw [Nat.mul_assoc, hpow, magnitude_eq (F := F), he, scaled_exponent fraction_lt]
  have hwhole : F.whole x =
      (2 ^ F.fracBits + F.fraction x) * 2 ^ (F.exponent x - (F.bias + F.fracBits)) := by
    rw [whole, hscaled, Nat.mul_div_cancel _ unit_pos]
  rw [hwhole]
  exact value_of_scaled hscaled

end Format

end HfRisc.Lib
