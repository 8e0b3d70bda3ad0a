import HfRisc.Lib.Ieee
import Mathlib.Tactic.Linarith

/-!
# Rounding to a floating-point format

A normal number is a significand with as many bits as the format has, times the unit in the last
place of its exponent. What is rounded to it is at most half a unit away. A number at less than
half a unit is nearer than every other one: those with the same exponent or a larger one are
multiples of the unit, and the others end where the significands begin.
-/

namespace HfRisc.Lib

/-! ## Significands -/

/-- `r` is next to `n` when the last `k` bits are dropped. -/
structure Near (k n r : ℕ) : Prop where
  le : r * 2 ^ k ≤ n + 2 ^ (k - 1)
  ge : n ≤ r * 2 ^ k + 2 ^ (k - 1)

section Near

variable {k n h : ℕ}

/-- Adding a half, or the next smaller number, and dropping the bits. -/
theorem near_of_add (hk : 0 < k) (hle : h ≤ 2 ^ (k - 1)) (hge : 2 ^ (k - 1) ≤ h + 1) :
    Near k n ((n + h) / 2 ^ k) := by
  have hpow : 2 ^ k = 2 * 2 ^ (k - 1) := by
    rw [← Nat.pow_succ', Nat.succ_eq_add_one, Nat.sub_add_cancel hk]
  have hdown : (n + h) / 2 ^ k * 2 ^ k ≤ n + h := Nat.div_mul_le_self _ _
  have hup : n + h < ((n + h) / 2 ^ k + 1) * 2 ^ k := by
    rw [Nat.mul_comm]
    exact Nat.lt_mul_div_succ _ (Nat.two_pow_pos k)
  rw [Nat.add_mul, Nat.one_mul] at hup
  exact ⟨by omega, by omega⟩

theorem Near.abs_le {r : ℕ} (hk : 0 < k) (h : Near k n r) :
    |(r : ℚ) * 2 ^ k - n| ≤ 2 ^ k / 2 := by
  obtain ⟨j, rfl⟩ := Nat.exists_eq_succ_of_ne_zero hk.ne'
  have hle : (r : ℚ) * 2 ^ (j + 1) ≤ n + 2 ^ j := by exact_mod_cast h.le
  have hge : (n : ℚ) ≤ r * 2 ^ (j + 1) + 2 ^ j := by exact_mod_cast h.ge
  have hhalf : (2 : ℚ) ^ (j + 1) / 2 = 2 ^ j := by
    rw [pow_succ, mul_div_cancel_right₀ _ two_ne_zero]
  rw [Nat.succ_eq_add_one, hhalf, abs_le]
  exact ⟨by linarith, by linarith⟩

end Near

/-- On a grid of width `u` from `a * u` on, a point at less than half of the width from `q` is
nearer than the other points, and nearer than all that is below the grid. -/
theorem abs_sub_lt_of_grid {u q y : ℚ} {a m : ℕ} (hu : 0 < u) (ha : a ≤ m) (hq : a * u ≤ q)
    (hclose : |q - m * u| < u / 2) (hne : y ≠ m * u) (hy : a * u ≤ y → ∃ n : ℕ, y = n * u) :
    |q - m * u| < |q - y| := by
  have hm : (a : ℚ) * u ≤ m * u := mul_le_mul_of_nonneg_right (by exact_mod_cast ha) hu.le
  rcases le_or_gt (a * u) y with hle | hlt
  · -- two points of the grid are at least `u` apart
    obtain ⟨n, rfl⟩ := hy hle
    have hnm : n ≠ m := fun h => hne (by rw [h])
    have hapart : u ≤ |(n : ℚ) * u - m * u| := by
      have hone : (1 : ℚ) ≤ |(n : ℚ) - m| := by
        have hint : (1 : ℤ) ≤ |(n : ℤ) - m| := Int.one_le_abs (by omega)
        exact_mod_cast hint
      rw [← sub_mul, abs_mul, abs_of_pos hu]
      exact le_mul_of_one_le_left hu.le hone
    have htriangle : |(n : ℚ) * u - m * u| ≤ |q - m * u| + |q - n * u| := by
      rw [abs_sub_comm q (n * u), add_comm]
      exact abs_sub_le _ _ _
    linarith
  · have hright : |q - y| = q - y := abs_of_nonneg (by linarith)
    rw [hright]
    rcases Nat.eq_or_lt_of_le ha with rfl | hsucc
    · rw [abs_of_nonneg (by linarith)]
      linarith
    · have hnext : (a + 1 : ℚ) * u ≤ m * u :=
        mul_le_mul_of_nonneg_right (by exact_mod_cast hsucc) hu.le
      rw [add_mul, one_mul] at hnext
      have hbounds := abs_lt.mp hclose
      linarith

namespace Format

variable (F : Format) {w : ℕ} (x : BitVec w)

/-! ## Units in the last place -/

/-- The unit in the last place for an exponent. -/
def unitAt (e : ℤ) : ℚ := 2 ^ (e - F.bias - F.fracBits)

/-- The unit in the last place of a number. -/
def ulp : ℚ := F.unitAt (max (F.exponent x) 1 : ℕ)

/-- The bits of the fraction and the implicit one. -/
def significand : ℕ := 2 ^ F.fracBits + F.fraction x

/-- The exponent is neither that of 0 nor that of infinity. -/
structure IsNormal : Prop where
  pos : 0 < F.exponent x
  finite : F.IsFinite x

instance : Decidable (F.IsNormal x) :=
  decidable_of_iff (0 < F.exponent x ∧ F.IsFinite x) ⟨fun h => ⟨h.1, h.2⟩, fun h => ⟨h.1, h.2⟩⟩

variable {F x}

theorem unitAt_pos (e : ℤ) : 0 < F.unitAt e := zpow_pos two_pos _

theorem unitAt_add (e : ℤ) (n : ℕ) : F.unitAt (e + n) = F.unitAt e * 2 ^ n := by
  rw [unitAt, unitAt, ← zpow_natCast, ← zpow_add₀ two_ne_zero]
  congr 1
  ring

theorem unitAt_succ (e : ℤ) : F.unitAt (e + 1) = F.unitAt e * 2 := by
  rw [← Nat.cast_one, unitAt_add, pow_one]

theorem unitAt_le {e e' : ℤ} (h : e ≤ e') : F.unitAt e ≤ F.unitAt e' :=
  zpow_le_zpow_right₀ one_le_two (by omega)

theorem significand_bounds : 2 ^ F.fracBits ≤ F.significand x ∧
    F.significand x < 2 ^ (F.fracBits + 1) := by
  have hfraction := fraction_lt (F := F) (x := x)
  rw [significand, Nat.pow_succ]
  omega

/-- The value of a normal number, or of what would be one. -/
theorem value_of_pos (h : 0 < F.exponent x) : F.value x =
    (if x.msb then -1 else 1) * (F.significand x * F.unitAt (F.exponent x)) := by
  have hpow : F.unitAt (F.exponent x) = (2 : ℚ) ^ (F.exponent x - F.bias : ℤ) / 2 ^ F.fracBits := by
    rw [unitAt, zpow_sub₀ two_ne_zero, zpow_natCast]
  rw [value, if_neg h.ne', hpow, significand]
  push_cast
  field_simp

/-- The value by the fields. -/
theorem value_of_fields {b : Bool} {e s : ℕ} (hmsb : x.msb = b) (hexp : F.exponent x = e)
    (hs : F.significand x = s) (he : 0 < e) :
    F.value x = (if b then -1 else 1) * (s * F.unitAt e) := by
  rw [value_of_pos (hexp ▸ he), hmsb, hexp, hs]

theorem exponent_zero : F.exponent (0 : BitVec w) = 0 := by
  rw [exponent, magnitude_zero, Nat.zero_div]

theorem fraction_zero : F.fraction (0 : BitVec w) = 0 := by
  rw [fraction, magnitude_zero, Nat.zero_mod]

theorem value_of_zero (h : F.exponent x = 0) : F.value x =
    (if x.msb then -1 else 1) * (F.fraction x * F.unitAt 1) := by
  have hpow : F.unitAt 1 = (2 : ℚ) ^ (1 - F.bias : ℤ) / 2 ^ F.fracBits := by
    rw [unitAt, zpow_sub₀ two_ne_zero, zpow_natCast]
  rw [value, if_pos h, hpow]
  field_simp

theorem abs_sign_mul (b : Bool) {q : ℚ} (hq : 0 ≤ q) : |(if b then -1 else 1) * q| = q := by
  cases b with
  | false => rw [if_neg Bool.false_ne_true, one_mul, abs_of_nonneg hq]
  | true => rw [if_pos rfl, neg_one_mul, abs_neg, abs_of_nonneg hq]

/-- A common sign does not matter for a distance. -/
theorem abs_sign_mul_sub (b : Bool) (q v : ℚ) :
    |(if b then -1 else 1) * q - (if b then -1 else 1) * v| = |q - v| := by
  cases b with
  | false => rw [if_neg Bool.false_ne_true, one_mul, one_mul]
  | true =>
    rw [if_pos rfl, neg_one_mul, neg_one_mul, ← neg_sub_neg, neg_neg, neg_neg, abs_sub_comm]

theorem abs_value_of_pos (h : 0 < F.exponent x) :
    |F.value x| = F.significand x * F.unitAt (F.exponent x) := by
  have hunit := unitAt_pos (F := F) (F.exponent x)
  rw [value_of_pos h, abs_sign_mul _ (by positivity)]

/-- A number of a smaller exponent is less than the first one of an exponent. -/
theorem abs_value_lt_unitAt {e : ℕ} (h : F.exponent x < e) :
    |F.value x| < 2 ^ F.fracBits * F.unitAt e := by
  rcases Nat.eq_zero_or_pos (F.exponent x) with h0 | hpos
  · have hunit := unitAt_pos (F := F) 1
    have hfraction : (F.fraction x : ℚ) < 2 ^ F.fracBits := by
      exact_mod_cast fraction_lt (F := F) (x := x)
    rw [value_of_zero h0, abs_sign_mul _ (by positivity)]
    calc F.fraction x * F.unitAt 1 < 2 ^ F.fracBits * F.unitAt 1 :=
          mul_lt_mul_of_pos_right hfraction hunit
      _ ≤ 2 ^ F.fracBits * F.unitAt e :=
          mul_le_mul_of_nonneg_left (unitAt_le (by omega)) (by positivity)
  · have hunit := unitAt_pos (F := F) (F.exponent x)
    have hsignificand : (F.significand x : ℚ) < 2 ^ (F.fracBits + 1) := by
      exact_mod_cast (significand_bounds (F := F) (x := x)).2
    rw [abs_value_of_pos hpos]
    calc F.significand x * F.unitAt (F.exponent x)
        < 2 ^ (F.fracBits + 1) * F.unitAt (F.exponent x) :=
          mul_lt_mul_of_pos_right hsignificand hunit
      _ = 2 ^ F.fracBits * F.unitAt (F.exponent x + 1) := by
          rw [unitAt_succ]
          ring
      _ ≤ 2 ^ F.fracBits * F.unitAt e :=
          mul_le_mul_of_nonneg_left (unitAt_le (by omega)) (by positivity)

/-- A number from the first one of an exponent on is a multiple of its unit. -/
theorem exists_multiple {e : ℕ} (he : 0 < e) (h : 2 ^ F.fracBits * F.unitAt e ≤ |F.value x|) :
    ∃ n : ℕ, |F.value x| = n * F.unitAt e := by
  have hle : e ≤ F.exponent x := by
    by_contra hlt
    exact absurd h (not_le_of_gt (abs_value_lt_unitAt (Nat.lt_of_not_le hlt)))
  obtain ⟨d, hd⟩ := Nat.exists_eq_add_of_le hle
  refine ⟨F.significand x * 2 ^ d, ?_⟩
  rw [abs_value_of_pos (he.trans_le hle), hd]
  push_cast
  rw [unitAt_add]
  ring

/-! ## Rounded values -/

variable (F x)

/-- The largest exponent of a finite number. -/
def top (w : ℕ) : ℕ := 2 ^ (w - 1 - F.fracBits) - 2

/-- A magnitude that is rounded to a normal number, to the nearest one and a half to the even one:
from half a unit below the least of them to less than half a unit above the largest. -/
def RoundsToNormal (w : ℕ) (q : ℚ) : Prop :=
  (2 ^ F.fracBits - 1 / 2) * F.unitAt 1 ≤ |q| ∧
    |q| < (2 ^ (F.fracBits + 1) - 1 / 2) * F.unitAt (F.top w)

instance (w : ℕ) (q : ℚ) : Decidable (F.RoundsToNormal w q) := inferInstanceAs (Decidable (_ ∧ _))

/-- A magnitude between two powers of two whose exponent is that of a normal number. -/
def HasNormalExponent (w : ℕ) (q : ℚ) : Prop :=
  2 ^ F.fracBits * F.unitAt 1 ≤ |q| ∧ |q| < 2 ^ (F.fracBits + 1) * F.unitAt (F.top w)

/-- A finite number with less than one unit in the last place between it and `q`. -/
structure Within (q : ℚ) : Prop where
  finite : F.IsFinite x
  close : |F.value x - q| < F.ulp x

/-- The finite number that is nearer to `q` than all others. -/
structure IsNearest (q : ℚ) : Prop where
  finite : F.IsFinite x
  nearest : ∀ y : BitVec w, F.IsFinite y → F.value y ≠ F.value x →
    |q - F.value x| < |q - F.value y|

variable {F x}

theorem ne_zero_of_pos (h : 0 < F.exponent x) : x ≠ 0 := fun h0 => by
  rw [h0, exponent_zero] at h
  exact Nat.lt_irrefl 0 h

theorem isFinite_of_le (hw : 2 ≤ 2 ^ (w - 1 - F.fracBits)) (h : F.exponent x ≤ F.top w) :
    F.IsFinite x := by
  rw [top] at h
  show F.exponent x + 1 < _
  omega

theorem IsNormal.le_top (h : F.IsNormal x) : F.exponent x ≤ F.top w := by
  have hfinite : F.exponent x + 1 < 2 ^ (w - 1 - F.fracBits) := h.finite
  rw [top]
  omega

/-- Between two powers of two the exponent is that of the lower one. -/
theorem hasNormalExponent_iff {w : ℕ} {q : ℚ} {e : ℤ} (hlow : 2 ^ F.fracBits * F.unitAt e ≤ |q|)
    (hhigh : |q| < 2 ^ (F.fracBits + 1) * F.unitAt e) :
    F.HasNormalExponent w q ↔ 1 ≤ e ∧ e ≤ F.top w := by
  have hstep : ∀ k : ℤ, 2 ^ (F.fracBits + 1) * F.unitAt k = 2 ^ F.fracBits * F.unitAt (k + 1) :=
    fun k => by
      rw [unitAt_succ]
      ring
  have hle : ∀ {j k : ℤ}, j ≤ k → 2 ^ F.fracBits * F.unitAt j ≤ 2 ^ F.fracBits * F.unitAt k :=
    fun hjk => mul_le_mul_of_nonneg_left (unitAt_le hjk) (by positivity)
  rw [hstep] at hhigh
  rw [HasNormalExponent, hstep]
  constructor
  · rintro ⟨hleast, hgreatest⟩
    constructor
    · by_contra hlt
      exact absurd hleast (not_le_of_gt (hhigh.trans_le (hle (by omega))))
    · by_contra hgt
      exact absurd hgreatest (not_lt_of_ge ((hle (by omega)).trans hlow))
  · rintro ⟨hone, htop⟩
    exact ⟨(hle hone).trans hlow, hhigh.trans_le (hle (by omega))⟩

/-- Between two powers of two below the last ones, it is rounded to a normal number. -/
theorem roundsToNormal_of_lt {w : ℕ} {q : ℚ} {e : ℤ} (hlow : 2 ^ F.fracBits * F.unitAt e ≤ |q|)
    (hhigh : |q| < 2 ^ (F.fracBits + 1) * F.unitAt e) (hone : 1 ≤ e) (htop : e < F.top w) :
    F.RoundsToNormal w q := by
  have hunit := unitAt_pos (F := F) 1
  have hunit' := unitAt_pos (F := F) (F.top w)
  have hpow : (1 : ℚ) ≤ 2 ^ F.fracBits := one_le_pow₀ one_le_two
  have hleast : 2 ^ F.fracBits * F.unitAt 1 ≤ 2 ^ F.fracBits * F.unitAt e :=
    mul_le_mul_of_nonneg_left (unitAt_le hone) (by positivity)
  have hgreatest : 2 ^ F.fracBits * F.unitAt (e + 1) ≤ 2 ^ F.fracBits * F.unitAt (F.top w) :=
    mul_le_mul_of_nonneg_left (unitAt_le htop) (by positivity)
  rw [unitAt_succ] at hgreatest
  rw [pow_succ] at hhigh
  constructor
  · linarith
  · rw [pow_succ]
    nlinarith

/-- At less than half a unit, a number is the nearest one. -/
theorem isNearest_of_close {q : ℚ} (hx : F.IsNormal x)
    (hlow : 2 ^ F.fracBits * F.unitAt (F.exponent x) ≤ q)
    (hclose : |(if x.msb then -1 else 1) * q - F.value x| < F.unitAt (F.exponent x) / 2) :
    F.IsNearest x ((if x.msb then -1 else 1) * q) := by
  refine ⟨hx.finite, fun y _ hne => ?_⟩
  -- without the sign
  obtain ⟨Y, hY⟩ : ∃ Y, F.value y = (if x.msb then -1 else 1) * Y :=
    ⟨(if x.msb then -1 else 1) * F.value y, by cases x.msb <;> simp⟩
  have habs : |F.value y| = |Y| := by
    rw [hY]
    cases x.msb <;> simp
  rw [hY, value_of_pos hx.pos] at hne
  rw [value_of_pos hx.pos, abs_sign_mul_sub] at hclose
  rw [hY, value_of_pos hx.pos, abs_sign_mul_sub, abs_sign_mul_sub]
  have hne' : Y ≠ F.significand x * F.unitAt (F.exponent x) := fun h => hne (by rw [h])
  have hmultiple : 2 ^ F.fracBits * F.unitAt (F.exponent x) ≤ Y →
      ∃ n : ℕ, Y = n * F.unitAt (F.exponent x) := fun hle => by
    have hpos : 0 ≤ Y := le_trans (by have := unitAt_pos (F := F) (F.exponent x); positivity) hle
    rw [← abs_of_nonneg hpos, ← habs] at hle ⊢
    exact exists_multiple hx.pos hle
  refine abs_sub_lt_of_grid (a := 2 ^ F.fracBits) (unitAt_pos _) significand_bounds.1 ?_ hclose
    hne' ?_
  · exact_mod_cast hlow
  · exact_mod_cast hmultiple

/-! ## Rounded magnitudes -/

/-- A significand and an exponent that stand for `q` up to less than a unit. -/
structure Approximates (F : Format) (q : ℚ) (r : ℕ) (e : ℤ) : Prop where
  low : 2 ^ F.fracBits ≤ r
  high : r < 2 ^ (F.fracBits + 1)
  close : |r * F.unitAt e - q| ≤ 7 / 8 * F.unitAt e

namespace Approximates

variable {q : ℚ} {r : ℕ} {e : ℤ}

theorem high_cast (h : Approximates F q r e) : (r : ℚ) + 1 ≤ 2 ^ F.fracBits * 2 := by
  rw [← pow_succ]
  exact_mod_cast h.high

/-- The exponent of what is rounded to a normal number is at least 0. -/
theorem exponent_nonneg (h : Approximates F q r e)
    (hq : (2 ^ F.fracBits - 1 / 2) * F.unitAt 1 ≤ q) : 0 ≤ e := by
  by_contra hneg
  have hunit := unitAt_pos (F := F) e
  have hclose := abs_le.mp h.close
  have hfour : F.unitAt e * 4 ≤ F.unitAt 1 := by
    have hle := unitAt_le (F := F) (show e + (2 : ℕ) ≤ 1 by omega)
    rw [unitAt_add] at hle
    linarith
  have hpow : (1 : ℚ) ≤ 2 ^ F.fracBits := one_le_pow₀ one_le_two
  have hhigh := h.high_cast
  have hupper : q < 2 ^ F.fracBits * 2 * F.unitAt e := by nlinarith
  have hlower : (2 ^ F.fracBits - 1 / 2) * (F.unitAt e * 4) ≤ q :=
    (mul_le_mul_of_nonneg_left hfour (by linarith)).trans hq
  nlinarith

/-- A number with the significand and the exponent as its fields. It may have lost its implicit
bit, if its exponent is 0. -/
theorem within {w e : ℕ} {x : BitVec w} {neg : Bool} (h : Approximates F q r e)
    (hq : (2 ^ F.fracBits - 1 / 2) * F.unitAt 1 ≤ q) (hfinite : F.IsFinite x)
    (hmsb : x.msb = neg) (hexp : F.exponent x = e) (hfraction : 2 ^ F.fracBits + F.fraction x = r) :
    F.Within x ((if neg then -1 else 1) * q) := by
  refine ⟨hfinite, ?_⟩
  rcases Nat.eq_zero_or_pos e with rfl | hpos
  · -- below the normal numbers there is one significand left
    have hunit := unitAt_pos (F := F) 0
    have hdouble : F.unitAt 1 = F.unitAt 0 * 2 := unitAt_succ 0
    have hclose := abs_le.mp h.close
    have hhigh := h.high_cast
    rw [Nat.cast_zero] at hclose
    have hlast : r + 1 = 2 ^ F.fracBits * 2 := by
      refine Nat.le_antisymm ?_ (Nat.le_of_not_lt fun hless => ?_)
      · exact_mod_cast hhigh
      · have hcast : (r : ℚ) + 2 ≤ 2 ^ F.fracBits * 2 := by exact_mod_cast hless
        nlinarith
    have hlast' : (r : ℚ) + 1 = 2 ^ F.fracBits * 2 := by exact_mod_cast hlast
    have hfraction' : (2 : ℚ) ^ F.fracBits + F.fraction x = r := by exact_mod_cast hfraction
    rw [value_of_zero hexp, hmsb, abs_sign_mul_sub, ulp, hexp, abs_lt]
    have hone : ((max 0 1 : ℕ) : ℤ) = 1 := rfl
    rw [hone, hdouble]
    constructor <;> nlinarith
  · have hunit := unitAt_pos (F := F) e
    have hmax : max (F.exponent x) 1 = e := by omega
    rw [value_of_pos (by omega), hmsb, hexp, significand, hfraction, abs_sign_mul_sub, ulp, hmax]
    exact h.close.trans_lt (by linarith)

end Approximates

/-- The exponent fits where the rounding does not go beyond what is rounded down. -/
theorem exponent_le_top {q : ℚ} {e : ℤ} (w : ℕ)
    (hq : q < (2 ^ (F.fracBits + 1) - 1 / 2) * F.unitAt (F.top w))
    (h : (2 ^ (F.fracBits + 1) - 1 / 2) * F.unitAt (e - 1) ≤ q) : e ≤ F.top w := by
  by_contra hgt
  have hpow : (1 : ℚ) ≤ 2 ^ (F.fracBits + 1) := one_le_pow₀ one_le_two
  have hle : (2 ^ (F.fracBits + 1) - 1 / 2) * F.unitAt (F.top w) ≤
      (2 ^ (F.fracBits + 1) - 1 / 2) * F.unitAt (e - 1) :=
    mul_le_mul_of_nonneg_left (unitAt_le (by omega)) (by linarith)
  linarith

end Format

end HfRisc.Lib
