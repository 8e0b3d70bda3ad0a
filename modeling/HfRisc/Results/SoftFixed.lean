import HfRisc.Soft.Fixed
import HfRisc.Soft.FixedPrint
import HfRisc.Soft.FixedSqrt
import Mathlib.Data.Rat.Floor
import Mathlib.Tactic.FieldSimp
import Mathlib.Tactic.Linarith
import Mathlib.Tactic.LinearCombination
import Mathlib.Tactic.NormNum

/-!
# Fixed-point numbers

The product of the build for 32 bits is the exact one, rounded toward zero. Its quotient is a
product with a reciprocal that is rounded down, so that the error of the reciprocal is multiplied
by the dividend.

In the square root the smallest number above 0 is the only one for which there is a division by 0:
it is not inverted, the first estimate is 1, and the reciprocal of 1 is too large for a word.

`fixtoa` prints the fraction of every number. What is in front of the point is shifted with its
sign, which is not dropped from the most negative number.
-/

namespace HfRisc.Soft

open Fixed

variable {x y : Word} {s : Bool} {m n : ℕ}

/-! ## Signs -/

/-- A magnitude with its sign, where the result fits in a word. -/
theorem toInt_ofNat_signed (h : n < 2 ^ 31 ∨ s = true ∧ n = 2 ^ 31) :
    (if s then -BitVec.ofNat 32 n else BitVec.ofNat 32 n).toInt = if s then -(n : ℤ) else n := by
  rcases h with hlt | ⟨rfl, rfl⟩
  · have hnat : (BitVec.ofNat 32 n).toNat = n := by
      rw [BitVec.toNat_ofNat]
      omega
    rw [Lib.toInt_signed (by omega), hnat]
  · decide

theorem toInt_eq_signed (x : Word) :
    x.toInt = if x.slt 0 then -(x.toInt.natAbs : ℤ) else x.toInt.natAbs := by
  have hzero : (0 : Word).toInt = 0 := rfl
  rw [BitVec.slt, hzero]
  by_cases h : x.toInt < 0
  · rw [decide_eq_true h, if_pos rfl]
    omega
  · rw [decide_eq_false h, if_neg Bool.false_ne_true]
    omega

theorem mul_eq_signed (x y : Word) : x.toInt * y.toInt =
    let p : ℤ := (x.toInt.natAbs * y.toInt.natAbs : ℕ)
    if x.slt 0 ^^ y.slt 0 then -p else p := by
  rw [toInt_eq_signed x, toInt_eq_signed y]
  cases x.slt 0 <;> cases y.slt 0 <;> simp

theorem signed_of_ne (h : x ≠ 0x80000000) : signed x = x.slt 0 := by
  rw [signed, bne_iff_ne.mpr h, Bool.and_true]

/-! ## Quotients -/

/-- What is lost with the remainder of the reciprocal. -/
theorem quotient_close (hn : 0 < n) : ((m * 2 ^ 16 / n : ℕ) : ℚ) - quotient m n <
    1 + m * (2 ^ 31 % n : ℕ) / (2 ^ 15 * n) := by
  have hpos : (0 : ℚ) < n := by exact_mod_cast hn
  have hsplit : ((2 ^ 31 / n : ℕ) : ℚ) * n + (2 ^ 31 % n : ℕ) = 2 ^ 31 := by
    exact_mod_cast Nat.div_add_mod' (2 ^ 31) n
  have hfloor : ((m * 2 ^ 16 / n : ℕ) : ℚ) ≤ m * 2 ^ 16 / n := by
    rw [le_div_iff₀ hpos]
    exact_mod_cast Nat.div_mul_le_self (m * 2 ^ 16) n
  have hcut : (m * (2 * (2 ^ 31 / n : ℕ)) / 2 ^ 16 : ℚ) < quotient m n + 1 := by
    have hnat : m * (2 * (2 ^ 31 / n)) < (quotient m n + 1) * 2 ^ 16 := by
      rw [quotient]
      generalize m * (2 * (2 ^ 31 / n)) = p
      omega
    rw [div_lt_iff₀ (by norm_num)]
    exact_mod_cast hnat
  -- the exact quotient, with the exact reciprocal split into what is kept and what is lost
  have hexact : (m * 2 ^ 16 / n : ℚ) =
      m * (2 * (2 ^ 31 / n : ℕ)) / 2 ^ 16 + m * (2 ^ 31 % n : ℕ) / (2 ^ 15 * n) := by
    generalize ((2 ^ 31 / n : ℕ) : ℚ) = r at *
    generalize ((2 ^ 31 % n : ℕ) : ℚ) = t at *
    field_simp
    linear_combination (-m : ℚ) * hsplit
  linarith

/-- A value in units in the last place that lies in the range of the integers of 32 bits. -/
def Representable (q : ℚ) : Prop := -2 ^ 31 ≤ q ∧ q < 2 ^ 31

/-- The bounds of a quotient of integers. -/
theorem Representable.floor {p : ℤ} (h : Representable (p / 2 ^ 16)) :
    -2 ^ 47 ≤ p ∧ p < 2 ^ 47 := by
  obtain ⟨hlow, hhigh⟩ := h
  rw [le_div_iff₀ (by norm_num)] at hlow
  rw [div_lt_iff₀ (by norm_num)] at hhigh
  constructor
  · have hlow' : (-2 ^ 31 * 2 ^ 16 : ℤ) ≤ p := by exact_mod_cast hlow
    omega
  · have hhigh' : (p : ℤ) < 2 ^ 31 * 2 ^ 16 := by exact_mod_cast hhigh
    omega

/-- Truncation and rounding down are apart by at most one unit. -/
theorem fixMul_close (hx : x ≠ 0x80000000) (hy : y ≠ 0x80000000)
    (h : Representable (x.toInt * y.toInt / 2 ^ 16)) :
    |(fixMul 16 x y).toInt - (fixMulWide 16 x y).toInt| ≤ 1 := by
  obtain ⟨hlow, hhigh⟩ := Representable.floor (p := x.toInt * y.toInt) (by exact_mod_cast h)
  have hproduct := mul_eq_signed x y
  have hmul := fixMul_eq (le_refl 16) x y
  rw [toInt_fixMulWide (by omega) (by omega), hmul, signed_of_ne hx, signed_of_ne hy]
  generalize x.toInt * y.toInt = p at *
  generalize x.toInt.natAbs * y.toInt.natAbs = n at *
  generalize (x.slt 0 ^^ y.slt 0) = s at *
  have hfbits : 2 ^ fbits 16 = 2 ^ 16 := rfl
  have hp : p = if s then -(n : ℤ) else n := hproduct
  simp only [hfbits]
  rw [toInt_ofNat_signed]
  · cases s
    · rw [if_neg Bool.false_ne_true] at hp ⊢
      rw [abs_le]
      omega
    · rw [if_pos rfl] at hp ⊢
      rw [abs_le]
      omega
  · cases s
    · rw [if_neg Bool.false_ne_true] at hp
      omega
    · rw [if_pos rfl] at hp
      exact (Nat.lt_or_eq_of_le (by omega)).imp_right fun heq => ⟨rfl, heq⟩

/-! ## The two builds -/

/-- A quotient has the magnitude of the quotient of the magnitudes. -/
theorem tdiv_eq_signed (x y : Word) : (x.toInt * 2 ^ 16).tdiv y.toInt =
    let q : ℤ := (x.toInt.natAbs * 2 ^ 16 / y.toInt.natAbs : ℕ)
    if x.slt 0 ^^ y.slt 0 then -q else q := by
  have hx := toInt_eq_signed x
  have hy := toInt_eq_signed y
  generalize x.toInt.natAbs = m at *
  generalize y.toInt.natAbs = n at *
  have hcast : ((m * 2 ^ 16 / n : ℕ) : ℤ) = (m * 2 ^ 16 : ℤ).tdiv n := by
    rw [Int.natCast_div, Int.tdiv_eq_ediv_of_nonneg (by positivity)]
    push_cast
    rfl
  rw [hx, hy, hcast]
  cases x.slt 0 <;> cases y.slt 0 <;> simp [Int.neg_tdiv, Int.tdiv_neg]

theorem div_eq_signed (x y : Word) : (x.toInt * 2 ^ 16 / y.toInt : ℚ) =
    let q : ℚ := x.toInt.natAbs * 2 ^ 16 / y.toInt.natAbs
    if x.slt 0 ^^ y.slt 0 then -q else q := by
  have hx := toInt_eq_signed x
  have hy := toInt_eq_signed y
  generalize x.toInt.natAbs = m at *
  generalize y.toInt.natAbs = n at *
  rw [hx, hy]
  cases x.slt 0 <;> cases y.slt 0 <;> simp [neg_div, div_neg]

/-- The magnitude of a quotient in the range, rounded down, is in the range too. -/
theorem Representable.natAbs_div (hy : 0 < y.toInt.natAbs)
    (h : Representable (x.toInt * 2 ^ 16 / y.toInt)) :
    x.toInt.natAbs * 2 ^ 16 / y.toInt.natAbs < 2 ^ 31 ∨
      (x.slt 0 ^^ y.slt 0) = true ∧ x.toInt.natAbs * 2 ^ 16 / y.toInt.natAbs ≤ 2 ^ 31 := by
  obtain ⟨hlow, hhigh⟩ := h
  rw [div_eq_signed] at hlow hhigh
  generalize x.toInt.natAbs = m at *
  generalize y.toInt.natAbs = n at *
  have hpos : (0 : ℚ) < n := by exact_mod_cast hy
  have hfloor : ((m * 2 ^ 16 / n : ℕ) : ℚ) ≤ m * 2 ^ 16 / n := by
    rw [le_div_iff₀ hpos]
    exact_mod_cast Nat.div_mul_le_self (m * 2 ^ 16) n
  cases hs : x.slt 0 ^^ y.slt 0
  · rw [hs] at hhigh
    exact .inl (by exact_mod_cast hfloor.trans_lt hhigh)
  · rw [hs] at hlow
    have hle : (m * 2 ^ 16 / n : ℚ) ≤ 2 ^ 31 := by
      simp only [if_true] at hlow
      linarith
    exact .inr ⟨rfl, by exact_mod_cast hfloor.trans hle⟩

/-- The quotient of the build for 32 bits is too small by what the reciprocal loses. -/
theorem fixDiv_close (hy : 2 ≤ y.toInt.natAbs)
    (h : Representable (x.toInt * 2 ^ 16 / y.toInt)) :
    ∃ q w, fixDiv 16 x y = some q ∧ fixDivWide 16 x y = some w ∧
      q.toInt.natAbs ≤ w.toInt.natAbs ∧
      |(q.toInt - w.toInt : ℚ)| < 1 + x.toInt.natAbs * (2 ^ 31 % y.toInt.natAbs : ℕ) /
        (2 ^ 15 * y.toInt.natAbs) := by
  have hfits := h.natAbs_div (by omega)
  have hle := quotient_le (m := x.toInt.natAbs) (n := y.toInt.natAbs) (by omega)
  have hclose := quotient_close (m := x.toInt.natAbs) (n := y.toInt.natAbs) (by omega)
  have htdiv := tdiv_eq_signed x y
  have hrange : -2 ^ 31 ≤ (x.toInt * 2 ^ 16).tdiv y.toInt ∧
      (x.toInt * 2 ^ 16).tdiv y.toInt < 2 ^ 31 := by
    rw [htdiv]
    rcases hfits with hlt | ⟨hs, hle⟩
    · cases x.slt 0 ^^ y.slt 0
      · simp only [if_neg Bool.false_ne_true]
        omega
      · simp only [if_true]
        omega
    · simp only [hs, if_true]
      omega
  obtain ⟨w, hw, hwide⟩ := toInt_fixDivWide (by omega) hrange.1 hrange.2
  refine ⟨_, w, fixDiv_eq hy, hw, ?_⟩
  rw [hwide, htdiv]
  generalize x.toInt.natAbs * 2 ^ 16 / y.toInt.natAbs = N at *
  generalize quotient x.toInt.natAbs y.toInt.natAbs = q at *
  -- it is rounded down, and fits in a word where the quotient does
  have hsmall : q < 2 ^ 31 ∨ (x.slt 0 ^^ y.slt 0) = true ∧ q = 2 ^ 31 :=
    hfits.elim (fun hlt => .inl (hle.trans_lt hlt)) fun ⟨hs, hle'⟩ =>
      (Nat.lt_or_eq_of_le (hle.trans hle')).imp_right fun heq => ⟨hs, heq⟩
  simp only
  rw [toInt_ofNat_signed hsmall]
  have hcast : (q : ℚ) ≤ N := by exact_mod_cast hle
  cases x.slt 0 ^^ y.slt 0
  · simp only [if_neg Bool.false_ne_true, Int.natAbs_natCast, Int.cast_natCast]
    rw [abs_sub_comm, abs_of_nonneg (sub_nonneg.mpr hcast)]
    exact ⟨hle, hclose⟩
  · simp only [if_true, Int.natAbs_neg, Int.natAbs_natCast, Int.cast_neg, Int.cast_natCast]
    rw [neg_sub_neg, abs_of_nonneg (sub_nonneg.mpr hcast)]
    exact ⟨hle, hclose⟩

end HfRisc.Soft

namespace HfRisc.Results

open HfRisc.Soft

/-- The product of the build for 32 bits is exact up to truncation. -/
theorem fixMul_truncates {ibits : ℕ} {x y : Word} (hbits : 16 ≤ ibits ∧ ibits ≤ 31)
    (hx : x ≠ 0x80000000) (hy : y ≠ 0x80000000)
    (h : x.toInt.natAbs * y.toInt.natAbs / 2 ^ Fixed.fbits ibits ≤ 2 ^ 31 - 1) :
    (fixMul ibits x y).toInt = (x.toInt * y.toInt).sign *
      (x.toInt.natAbs * y.toInt.natAbs / 2 ^ Fixed.fbits ibits : ℕ) := by
  have hproduct := mul_eq_signed x y
  have hmul := fixMul_eq hbits.1 x y
  rw [hmul, signed_of_ne hx, signed_of_ne hy]
  generalize x.toInt * y.toInt = p at *
  generalize x.toInt.natAbs * y.toInt.natAbs = n at *
  generalize (x.slt 0 ^^ y.slt 0) = s at *
  have hp : p = if s then -(n : ℤ) else n := hproduct
  have hzero : n = 0 → n / 2 ^ Fixed.fbits ibits = 0 := fun hn => by rw [hn, Nat.zero_div]
  rw [toInt_ofNat_signed (.inl (by omega))]
  generalize n / 2 ^ Fixed.fbits ibits = r at *
  rcases Nat.eq_zero_or_pos n with hn | hn
  · rw [hzero hn]
    cases s <;> simp
  · cases s
    · rw [hp, if_neg Bool.false_ne_true, if_neg Bool.false_ne_true,
        Int.sign_natCast_of_ne_zero hn.ne', one_mul]
    · rw [hp, if_pos rfl, if_pos rfl, Int.sign_neg, Int.sign_natCast_of_ne_zero hn.ne', neg_one_mul]

/-- -2 times 1.5. -/
theorem fixMul_truncates_three : (fixMul 16 (-131072) 98304).toInt = -196608 :=
  (fixMul_truncates ⟨by decide, by decide⟩ (by decide) (by decide) (by decide)).trans
    (by decide)

/-- The quotient of 3 by itself is four units too small. -/
theorem fixDiv_apart :
    ¬((∀ x y : Word, Representable (x.toInt * y.toInt / 2 ^ 16) →
        |(fixMul 16 x y).toInt - (fixMulWide 16 x y).toInt| ≤ 1) ∧
      ∀ x y : Word, y ≠ 0 → Representable (x.toInt * 2 ^ 16 / y.toInt) →
        ∃ q w, fixDiv 16 x y = some q ∧ fixDivWide 16 x y = some w ∧
          |q.toInt - w.toInt| ≤ 1) := by
  rintro ⟨-, h⟩
  have hthree : (196608 : Word).toInt = 196608 := by decide
  obtain ⟨q, w, hq, hw, hle⟩ := h 196608 196608 (by decide) (by
    rw [hthree, Representable]
    norm_num)
  have hq' : fixDiv 16 196608 196608 = some 65532 := by decide
  have hw' : fixDivWide 16 196608 196608 = some 65536 := by decide
  obtain rfl := Option.some.inj (hq.symm.trans hq')
  obtain rfl := Option.some.inj (hw.symm.trans hw')
  exact absurd hle (by decide)

/-- Where the quotient is in the range, the two builds are as far apart as the reciprocal is from
the exact one, and where the product is, they are one unit apart. -/
theorem fixed_builds_agree :
    (∀ x y : Word, x ≠ 0x80000000 → y ≠ 0x80000000 → Representable (x.toInt * y.toInt / 2 ^ 16) →
      |(fixMul 16 x y).toInt - (fixMulWide 16 x y).toInt| ≤ 1) ∧
    ∀ x y : Word, 2 ≤ y.toInt.natAbs → Representable (x.toInt * 2 ^ 16 / y.toInt) →
      ∃ q w, fixDiv 16 x y = some q ∧ fixDivWide 16 x y = some w ∧
        q.toInt.natAbs ≤ w.toInt.natAbs ∧
        |(q.toInt - w.toInt : ℚ)| < 1 + x.toInt.natAbs * (2 ^ 31 % y.toInt.natAbs : ℕ) /
          (2 ^ 15 * y.toInt.natAbs) :=
  ⟨fun _ _ => fixMul_close, fun _ _ => fixDiv_close⟩

/-- 3 times 1.5, and 3 by itself. -/
theorem fixed_builds_agree_three :
    |(fixMul 16 196608 98304).toInt - (fixMulWide 16 196608 98304).toInt| ≤ 1 ∧
      ∃ q w, fixDiv 16 196608 196608 = some q ∧ fixDivWide 16 196608 196608 = some w ∧
        q.toInt.natAbs ≤ w.toInt.natAbs ∧
        |(q.toInt - w.toInt : ℚ)| < 1 + (196608 : Word).toInt.natAbs *
          (2 ^ 31 % (196608 : Word).toInt.natAbs : ℕ) /
            (2 ^ 15 * (196608 : Word).toInt.natAbs) := by
  have hthree : (196608 : Word).toInt = 196608 := by decide
  have hhalf : (98304 : Word).toInt = 98304 := by decide
  refine ⟨fixed_builds_agree.1 _ _ (by decide) (by decide) ?_,
    fixed_builds_agree.2 _ _ (by decide) ?_⟩
  · rw [hthree, hhalf, Representable]
    norm_num
  · rw [hthree, Representable]
    norm_num

end HfRisc.Results

/-! ## Divisions by 0 in the square root -/

namespace HfRisc.Soft

open Sqrt Fixed

variable {a y : Word} {fuel : ℕ}

theorem toInt_nonneg_of_lt (h : a.toNat < 2 ^ 31) : 0 ≤ a.toInt := by
  rw [BitVec.toInt_eq_toNat_of_lt (by omega)]
  exact Int.natCast_nonneg _

theorem toNat_one : (one 16).toNat = 2 ^ 16 := rfl

/-- The reciprocal of a number. -/
theorem fixDiv_one (hy : 3 ≤ y.toNat) (hlt : y.toNat < 2 ^ 31) :
    ∃ r, fixDiv 16 (one 16) y = some r ∧ r.toNat = 2 * (2 ^ 31 / y.toNat) ∧ r.toNat < 2 ^ 31 := by
  have hle : 2 ^ 31 / y.toNat ≤ 2 ^ 31 / 3 := Nat.div_le_div_left hy (by decide)
  have hquotient : quotient (2 ^ 16) y.toNat = 2 * (2 ^ 31 / y.toNat) :=
    Nat.mul_div_cancel_left _ (by decide)
  have hdiv := fixDiv_of_nonneg (x := one 16) (by rw [toNat_one]; decide) (by omega) hlt
  rw [toNat_one, hquotient] at hdiv
  refine ⟨_, hdiv, ?_⟩
  rw [BitVec.toNat_ofNat]
  omega

/-- The two paths for what is neither 0 nor 1. -/
theorem fixSqrt_eq (h0 : a ≠ 0) (hone : a ≠ one 16) (hlt : a.toNat < 2 ^ 31) : fixSqrt fuel a =
    if 6 < a.toNat ∧ a.toNat < 2 ^ 16 then
      (fixDiv 16 (one 16) a).bind fun a => (root fuel a).bind fun l => fixDiv 16 (one 16) l
    else root fuel a := by
  have hsign : a.slt 0 = true ↔ a.toNat < 0 := Lib.slt_of_nonneg (by omega) (by decide)
  have hsix : (6 : Word).slt a = true ↔ 6 < a.toNat := Lib.slt_of_nonneg (by decide) (by omega)
  have hbelow : a.slt (one 16) = true ↔ a.toNat < 2 ^ 16 :=
    Lib.slt_of_nonneg (by omega) (by decide)
  have hinv : (a.slt (one 16) && (6 : Word).slt a) = decide (6 < a.toNat ∧ a.toNat < 2 ^ 16) := by
    rw [Bool.eq_iff_iff, Bool.and_eq_true, decide_eq_true_iff, hsix, hbelow, and_comm]
  rw [fixSqrt, if_neg (hsign.not.mpr (Nat.not_lt_zero _)), if_neg (not_or.mpr ⟨h0, hone⟩)]
  simp only [hinv, decide_eq_true_eq]
  split
  · rfl
  · exact Option.bind_fun_some (root fuel a)

/-- From 7 to what is below 1 the reciprocal has a root, and the root a reciprocal. -/
theorem fixSqrt_inverted (h6 : 6 < a.toNat) (hlt : a.toNat < 2 ^ 16) (hfuel : 16 < fuel) :
    ∃ r, fixSqrt fuel a = some r ∧ 0 ≤ r.toInt := by
  have hne : ∀ b : Word, b.toNat ≤ 6 ∨ 2 ^ 16 ≤ b.toNat → a ≠ b := by
    rintro b hb rfl
    omega
  have hlow : 2 ^ 31 / (2 ^ 16 - 1) ≤ 2 ^ 31 / a.toNat :=
    Nat.div_le_div_left (by omega) (by omega)
  obtain ⟨b, hb, hvalue, hbound⟩ := fixDiv_one (y := a) (by omega) (by omega)
  obtain ⟨l, hl, hestimate⟩ := root_eq (a := b) (by omega) hbound hfuel
  have hpos := hestimate.pos (by omega)
  have hhigh := hestimate.high
  obtain ⟨r, hr, -, hrbound⟩ := fixDiv_one (y := l) (by omega) (by omega)
  refine ⟨r, ?_, toInt_nonneg_of_lt hrbound⟩
  rw [fixSqrt_eq (hne _ (by decide)) (hne _ (by decide)) (by omega), if_pos ⟨h6, hlt⟩, hb,
    Option.bind_some, hl, Option.bind_some, hr]

/-- From 1 on the estimate is the result. -/
theorem fixSqrt_direct (hle : 2 ^ 16 ≤ a.toNat) (hlt : a.toNat < 2 ^ 31) (hfuel : 16 < fuel) :
    ∃ r, fixSqrt fuel a = some r ∧ 0 ≤ r.toInt := by
  by_cases hone : a = one 16
  · subst hone
    exact ⟨_, rfl, by decide⟩
  · have hzero : a ≠ 0 := by
      rintro rfl
      exact absurd hle (by decide)
    obtain ⟨l, hl, hestimate⟩ := root_eq hle hlt hfuel
    have hhigh := hestimate.high
    refine ⟨l, ?_, toInt_nonneg_of_lt (by omega)⟩
    rw [fixSqrt_eq hzero hone hlt, if_neg (by omega), hl]

/-- The smallest numbers are not inverted, and have the rounds that `FIX_FBITS` gives them. -/
theorem fixSqrt_small (fuel : ℕ) : ∀ n ∈ [0, 2, 3, 4, 5, 6],
    ∃ r, fixSqrt fuel (BitVec.ofNat 32 n) = some r ∧ 0 ≤ r.toInt := by
  have hroots : ∀ p ∈ [(0, 0), (2, 362), (3, 443), (4, 512), (5, 572), (6, 627)],
      fixSqrt fuel (BitVec.ofNat 32 p.1) = some (BitVec.ofNat 32 p.2) := by
    simp only [List.forall_mem_cons]
    exact ⟨rfl, rfl, rfl, rfl, rfl, rfl, fun _ h => absurd h List.not_mem_nil⟩
  simp only [List.forall_mem_cons] at hroots ⊢
  obtain ⟨h0, h2, h3, h4, h5, h6, -⟩ := hroots
  exact ⟨⟨_, h0, by decide⟩, ⟨_, h2, by decide⟩, ⟨_, h3, by decide⟩, ⟨_, h4, by decide⟩,
    ⟨_, h5, by decide⟩, ⟨_, h6, by decide⟩, fun _ h => absurd h List.not_mem_nil⟩

end HfRisc.Soft

namespace HfRisc.Results

open HfRisc.Soft

/-- In the root of the smallest number above 0 there is a quotient by 0. -/
theorem fixSqrt_divides_by_zero : ¬∃ fuel, ∀ a : Word, 0 ≤ a.toInt →
    ∃ r, fixSqrt fuel a = some r ∧ 0 ≤ r.toInt := by
  rintro ⟨fuel, h⟩
  obtain ⟨r, hr, -⟩ := h 1 (by decide)
  have hnone : fixSqrt fuel 1 = none := rfl
  rw [hnone] at hr
  cases hr

/-- The divisor is never 0, and the root is not negative, for all other numbers. -/
theorem fixSqrt_safe_iff {a : Word} {fuel : ℕ} (ha : 0 ≤ a.toInt) (hfuel : 16 < fuel) :
    (∃ r, fixSqrt fuel a = some r ∧ 0 ≤ r.toInt) ↔ a ≠ 1 := by
  have hlt : a.toNat < 2 ^ 31 := by
    rw [BitVec.toInt_eq_toNat_cond] at ha
    split at ha <;> omega
  constructor
  · rintro ⟨r, hr, -⟩ rfl
    have hnone : fixSqrt fuel 1 = none := rfl
    rw [hnone] at hr
    cases hr
  · intro hne
    rcases Nat.lt_or_ge 6 a.toNat with h6 | h6
    · rcases Nat.lt_or_ge a.toNat (2 ^ 16) with hbelow | habove
      · exact fixSqrt_inverted h6 hbelow hfuel
      · exact fixSqrt_direct habove hlt hfuel
    · have hne' : a.toNat ≠ 1 := fun h => hne (BitVec.eq_of_toNat_eq h)
      have hsmall : a.toNat ∈ [0, 2, 3, 4, 5, 6] := by
        simp only [List.mem_cons, List.not_mem_nil, or_false]
        omega
      have hroot := fixSqrt_small fuel a.toNat hsmall
      rwa [BitVec.ofNat_toNat, BitVec.setWidth_eq] at hroot

/-- The root of 2. -/
theorem fixSqrt_safe_two : (∃ r, fixSqrt 17 131072 = some r ∧ 0 ≤ r.toInt) ↔ (131072 : Word) ≠ 1 :=
  fixSqrt_safe_iff (by decide) (by decide)

end HfRisc.Results

/-! ## `fixtoa` -/

namespace HfRisc.Soft

open HfRisc.Lib (TextAt)
open Fixed

variable {a : Word}

/-- The exact text of a number. -/
def exactText (a : Word) (dec : ℕ) : List (BitVec 8) :=
  fixedText (a.slt 0) (a.toInt.natAbs / 2 ^ 16) (a.toInt.natAbs % 2 ^ 16) (max 1 dec)

/-- What is in front of the point, where the sign could be dropped. -/
theorem toNat_front (h : a ≠ 0x80000000) :
    ((dropSign a).sshiftRight 16).toNat = a.toInt.natAbs / 2 ^ 16 := by
  have hle := natAbs_toInt_le a
  have hne : a.toInt.natAbs ≠ 2 ^ 31 := fun heq => by
    have hmin : (0x80000000 : Word).toInt = -2 ^ 31 := by decide
    have hlt : a.toInt < 2 ^ 31 := BitVec.toInt_lt
    exact h (BitVec.eq_of_toInt_eq (by omega))
  rw [Lib.toNat_sshiftRight (by rw [toNat_dropSign]; omega), toNat_dropSign]

/-- A text with one number in front of the point does not begin with another one. -/
theorem front_unique {buf : ℕ → BitVec 8} {neg : Bool} {xs ys : List (BitVec 8)} {c d : BitVec 8}
    (hxs : TextAt buf 0 (signText neg ++ (c :: xs)))
    (hys : TextAt buf 0 (signText neg ++ (d :: ys))) : c = d := by
  rw [TextAt.append_iff, TextAt.cons_iff] at hxs hys
  exact hxs.2.1.symm.trans hys.2.1

/-- 4294934528 is printed for 32768. -/
theorem fixtoa_min {fuel : ℕ} (dec : Word) (hfuel : max 10 dec.toInt.toNat < fuel)
    (str : ℕ → BitVec 8) :
    ¬∃ str', fixtoa 16 fuel 0x80000000 str dec = some str' ∧
      TextAt str' 0 (exactText 0x80000000 dec.toInt.toNat ++ [0]) := by
  rintro ⟨str', hreturn, hexact⟩
  obtain ⟨str'', hreturn', htext⟩ := fixtoa_text hfuel 0x80000000 str
  obtain rfl := Option.some.inj (hreturn.symm.trans hreturn')
  have hprinted : digitText 10 ((dropSign 0x80000000).sshiftRight 16).toNat =
      [52, 50, 57, 52, 57, 51, 52, 53, 50, 56] := by decide
  have hfront : digitText 10 ((0x80000000 : Word).toInt.natAbs / 2 ^ 16) =
      [51, 50, 55, 54, 56] := by decide
  rw [fixedText, hprinted, List.cons_append, List.append_assoc, List.cons_append] at htext
  rw [exactText, fixedText, hfront, List.cons_append, List.append_assoc, List.cons_append] at hexact
  exact absurd (front_unique htext hexact) (by decide)

end HfRisc.Soft

namespace HfRisc.Results

open HfRisc.Soft HfRisc.Lib

/-- The text is exact for all numbers but the most negative one. -/
theorem fixtoa_exact_iff {fuel : ℕ} {dec : Word} (hfuel : max 10 dec.toInt.toNat < fuel) (a : Word)
    (str : ℕ → BitVec 8) :
    (∃ str', fixtoa 16 fuel a str dec = some str' ∧
      TextAt str' 0 (exactText a dec.toInt.toNat ++ [0])) ↔ a ≠ 0x80000000 := by
  constructor
  · rintro h rfl
    exact fixtoa_min dec hfuel str h
  · intro hne
    obtain ⟨str', hreturn, htext⟩ := fixtoa_text hfuel a str
    rw [Fixed.toNat_dropSign, toNat_front hne] at htext
    exact ⟨str', hreturn, htext⟩

/-- 1.5 with two digits. -/
theorem fixtoa_exact_half :
    (∃ str', fixtoa 16 11 98304 (fun _ => 0) 2 = some str' ∧
      TextAt str' 0 (exactText 98304 (2 : Word).toInt.toNat ++ [0])) ↔
      (98304 : Word) ≠ 0x80000000 :=
  fixtoa_exact_iff (by decide) 98304 _

/-- The most negative number is not printed. -/
theorem fixtoa_not_exact : ¬∀ (a dec : Word) (str : ℕ → BitVec 8) (fuel : ℕ),
    max 10 dec.toInt.toNat < fuel → ∃ str', fixtoa 16 fuel a str dec = some str' ∧
      TextAt str' 0 (exactText a dec.toInt.toNat ++ [0]) :=
  fun h => fixtoa_min 1 (show _ < 11 by decide) (fun _ => 0)
    (h 0x80000000 1 _ 11 (by decide))

end HfRisc.Results
