import HfRisc.Soft.FloatAdd

/-!
# Sums

The aligned sum is the exact sum rounded down on the grid of the guard bits. Where bits get lost
the exponents are far enough apart for the sum to lose at most one bit by cancellation, so what is
lost and the half unit of the rounding are together less than a unit.

A negative sum is rounded away from 0 by the alignment. Just before the magnitude from which
rounding to even goes to infinity it gets onto this magnitude, and the result is not finite.
-/

namespace HfRisc.Soft

open HfRisc.Lib (Format)

namespace FloatAddition

variable {w : ℕ} {M : Macros w} {A : Adder w} {F : Format} {a b x : BitVec w} {g : ℕ}

/-! ## The exact sum and the aligned one -/

/-- `s` on the grid of `g` guard bits at the exponent `e` is `q` rounded down. Where it is not `q`,
it has the length of a significand with its guard bits, or one bit less. -/
structure Floored (F : Format) (g : ℕ) (e s : ℤ) (q : ℚ) : Prop where
  le : s * (F.unitAt e / 2 ^ g) ≤ q
  lt : q < (s + 1) * (F.unitAt e / 2 ^ g)
  exact : q = s * (F.unitAt e / 2 ^ g) ∨ 2 ^ (F.fracBits + g) ≤ 2 * s.natAbs

theorem value_eq_guarded (g : ℕ) (h : 0 < F.exponent x) :
    F.value x = guarded F g x * (F.unitAt (F.exponent x) / 2 ^ g) := by
  have hne : (2 : ℚ) ^ g ≠ 0 := by positivity
  have hmagnitude : (F.significand x : ℚ) * F.unitAt (F.exponent x) =
      (F.significand x * 2 ^ g : ℕ) * (F.unitAt (F.exponent x) / 2 ^ g) := by
    push_cast
    field_simp
  rw [Format.value_of_pos h, guarded, hmagnitude]
  cases x.msb <;> simp

theorem alignedSum_of_le (g : ℕ) (h : F.exponent b ≤ F.exponent a) : alignedSum F g a b =
    guarded F g a + guarded F g b / 2 ^ (F.exponent a - F.exponent b) := by
  rw [alignedSum]
  rcases Nat.lt_or_eq_of_le h with hlt | heq
  · rw [if_pos hlt]
  · rw [heq, if_neg (Nat.lt_irrefl _), Nat.sub_self, pow_zero, Int.ediv_one, Int.ediv_one]

theorem le_natAbs_guarded (g : ℕ) (x : BitVec w) :
    2 ^ (F.fracBits + g) ≤ (guarded F g x).natAbs := by
  have hle : 2 ^ (F.fracBits + g) ≤ F.significand x * 2 ^ g := by
    rw [Nat.pow_add]
    exact Nat.mul_le_mul_right _ Format.significand_bounds.1
  rw [guarded]
  split <;> omega

/-- Exponents that are apart leave the leading bits of the larger number. -/
theorem le_natAbs_alignedSum (hg : 0 < g) {d : ℕ} (hd : 2 ≤ d) (a b : BitVec w) :
    2 ^ (F.fracBits + g) ≤ 2 * (guarded F g a + guarded F g b / 2 ^ d).natAbs := by
  obtain ⟨hlow, hhigh⟩ := guarded_bounds (F := F) g b
  have hlead := le_natAbs_guarded (F := F) g a
  obtain ⟨k, hk⟩ : ∃ k, 2 ^ (F.fracBits + g) = 2 * k :=
    ⟨2 ^ (F.fracBits + g - 1), by rw [← Nat.pow_succ']; congr 1; omega⟩
  have hpos : (0 : ℤ) < 2 ^ d := by positivity
  have hfour : (4 : ℤ) ≤ 2 ^ d := by
    calc (4 : ℤ) = 2 ^ 2 := by norm_num
      _ ≤ 2 ^ d := pow_le_pow_right₀ one_le_two hd
  rw [hk] at hlow hhigh hlead ⊢
  have hmul : (k : ℤ) * 4 ≤ k * 2 ^ d := mul_le_mul_of_nonneg_left hfour (Nat.cast_nonneg k)
  have hshift : -(k : ℤ) ≤ guarded F g b / 2 ^ d := by
    rw [Int.le_ediv_iff_mul_le hpos]
    rw [neg_mul]
    omega
  have hshift' : guarded F g b / 2 ^ d ≤ k := by
    refine Int.le_of_lt_add_one ((Int.ediv_lt_iff_lt_mul hpos).mpr ?_)
    rw [add_mul, one_mul]
    omega
  omega

/-- The aligned sum is the exact one rounded down. -/
theorem floored_of_le (hg : 0 < g) (ha : 0 < F.exponent a) (hb : 0 < F.exponent b)
    (h : F.exponent b ≤ F.exponent a) :
    Floored F g (F.exponent a) (alignedSum F g a b) (F.value a + F.value b) := by
  rw [alignedSum_of_le g h, value_eq_guarded g ha, value_eq_guarded g hb]
  obtain ⟨d, hd⟩ := Nat.exists_eq_add_of_le h
  have hunit : F.unitAt (F.exponent b) / 2 ^ g = F.unitAt (F.exponent a) / 2 ^ g / 2 ^ d := by
    have hne : (2 : ℚ) ^ d ≠ 0 := by positivity
    rw [hd, Nat.cast_add, Format.unitAt_add, div_div, mul_comm ((2 : ℚ) ^ g),
      mul_comm (F.unitAt _), mul_div_mul_left _ _ hne]
  rw [hunit, show F.exponent a - F.exponent b = d by omega]
  set u := F.unitAt (F.exponent a) / 2 ^ g with hu
  have hpos : 0 < u := div_pos (Format.unitAt_pos _) (by positivity)
  -- the shift is a floor
  have hfloor : ⌊(guarded F g b : ℚ) / (2 ^ d : ℕ)⌋ = guarded F g b / (2 ^ d : ℕ) :=
    Rat.floor_intCast_div_natCast _ _
  have hle := Int.floor_le ((guarded F g b : ℚ) / (2 ^ d : ℕ))
  have hlt := Int.lt_floor_add_one ((guarded F g b : ℚ) / (2 ^ d : ℕ))
  rw [hfloor] at hle hlt
  push_cast at hle hlt
  have hsplit : (guarded F g b : ℚ) * (u / 2 ^ d) = guarded F g b / 2 ^ d * u := by ring
  rw [hsplit]
  refine ⟨?_, ?_, ?_⟩
  · rw [← add_mul, Int.cast_add]
    exact mul_le_mul_of_nonneg_right (by linarith) hpos.le
  · rw [← add_mul, Int.cast_add]
    exact mul_lt_mul_of_pos_right (by linarith) hpos
  · rcases Nat.lt_or_ge g d with hlost | hkept
    · exact .inr (le_natAbs_alignedSum hg (by omega) a b)
    · left
      have hdvd : (2 ^ d : ℤ) ∣ guarded F g b := by
        have hnat : 2 ^ d ∣ F.significand b * 2 ^ g :=
          Dvd.dvd.mul_left (Nat.pow_dvd_pow 2 hkept) _
        rw [guarded]
        refine Dvd.dvd.mul_left ?_ _
        exact_mod_cast Int.natCast_dvd_natCast.mpr hnat
      have hexact : ((guarded F g b / 2 ^ d : ℤ) : ℚ) = guarded F g b / 2 ^ d := by
        rw [Int.cast_div hdvd (by positivity)]
        push_cast
        rfl
      rw [Int.cast_add, hexact, add_mul]

theorem floored (hg : 0 < g) (ha : 0 < F.exponent a) (hb : 0 < F.exponent b) :
    Floored F g (max (F.exponent a) (F.exponent b) : ℕ) (alignedSum F g a b)
      (F.value a + F.value b) := by
  rcases Nat.le_total (F.exponent b) (F.exponent a) with hle | hle
  · rw [max_eq_left hle]
    exact floored_of_le hg ha hb hle
  · rw [max_eq_right hle, alignedSum_comm, add_comm]
    exact floored_of_le hg hb ha hle

/-! ## The rounded sum -/

section Rounded

variable {e s y : ℤ} {q : ℚ} {n : ℕ}

theorem guardUnit_pos (F : Format) (g : ℕ) (e : ℤ) : 0 < F.unitAt e / 2 ^ g :=
  div_pos (Format.unitAt_pos e) (by positivity)

/-- A negative sum is rounded away from 0. -/
theorem Floored.of_neg (h : Floored F g e s q) (hs : s < 0) : q < 0 ∧
    (s.natAbs - 1 : ℚ) * (F.unitAt e / 2 ^ g) < |q| ∧
      |q| ≤ s.natAbs * (F.unitAt e / 2 ^ g) := by
  have hpos := guardUnit_pos F g e
  obtain ⟨m, hm⟩ : ∃ m : ℕ, s = -(m + 1 : ℕ) := ⟨s.natAbs - 1, by omega⟩
  have habs : s.natAbs = m + 1 := by omega
  have hle := h.le
  have hlt := h.lt
  rw [hm] at hle hlt
  rw [habs]
  push_cast at hle hlt ⊢
  have hq : q < 0 := by
    have hm0 : (0 : ℚ) ≤ m := Nat.cast_nonneg m
    nlinarith
  rw [abs_of_neg hq]
  exact ⟨hq, by linarith, by linarith⟩

theorem Floored.of_nonneg (h : Floored F g e s q) (hs : 0 ≤ s) : 0 ≤ q ∧
    s.natAbs * (F.unitAt e / 2 ^ g) ≤ |q| ∧
      |q| < (s.natAbs + 1 : ℚ) * (F.unitAt e / 2 ^ g) := by
  have hpos := guardUnit_pos F g e
  obtain ⟨m, rfl⟩ := Int.eq_ofNat_of_zero_le hs
  have hle := h.le
  have hlt := h.lt
  rw [Int.natAbs_natCast]
  push_cast at hle hlt
  have hq : 0 ≤ q := by
    have hm0 : (0 : ℚ) ≤ m := Nat.cast_nonneg m
    nlinarith
  rw [abs_of_nonneg hq]
  exact ⟨hq, hle, hlt⟩

theorem Floored.sign (h : Floored F g e s q) : s < 0 ↔ q < 0 := by
  constructor
  · exact fun hs => (h.of_neg hs).1
  · intro hq
    by_contra hs
    exact absurd (h.of_nonneg (not_lt.mp hs)).1 (not_le.mpr hq)

theorem Floored.exact_abs (h : Floored F g e s q) :
    |q| = s.natAbs * (F.unitAt e / 2 ^ g) ∨ 2 ^ (F.fracBits + g) ≤ 2 * s.natAbs := by
  refine h.exact.imp_left fun hq => ?_
  rw [hq, abs_mul, abs_of_pos (guardUnit_pos F g e), Nat.cast_natAbs, Int.cast_abs]

theorem Floored.eq_sign_mul_abs (h : Floored F g e s q) :
    q = (if decide (s < 0) then -1 else 1) * |q| := by
  rcases lt_or_ge s 0 with hneg | hnonneg
  · rw [if_pos (decide_eq_true hneg), abs_of_neg (h.of_neg hneg).1, neg_one_mul, neg_neg]
  · rw [decide_eq_false (not_lt.mpr hnonneg), if_neg Bool.false_ne_true,
      abs_of_nonneg (h.of_nonneg hnonneg).1, one_mul]

/-- A sum that is rounded down to 0 is 0. -/
theorem Floored.ne_zero (h : Floored F g e s q) (hq : q ≠ 0) : s ≠ 0 := fun hzero => by
  rcases h.exact_abs with hexact | hlong
  · rw [hzero, Int.natAbs_zero, Nat.cast_zero, zero_mul] at hexact
    exact hq (abs_eq_zero.mp hexact)
  · rw [hzero, Int.natAbs_zero, Nat.mul_zero] at hlong
    exact absurd (Nat.two_pow_pos _) (Nat.not_lt_of_le hlong)

theorem Floored.abs_close (h : Floored F g e s q) :
    |s.natAbs * (F.unitAt e / 2 ^ g) - (|q|)| ≤ F.unitAt e / 2 ^ g := by
  rw [abs_le]
  rcases lt_or_ge s 0 with hs | hs
  · obtain ⟨-, hlow, hhigh⟩ := h.of_neg hs
    constructor <;> linarith
  · obtain ⟨-, hlow, hhigh⟩ := h.of_nonneg hs
    constructor <;> linarith

/-- At the length of a significand less than two of the last guard bits are lost. -/
theorem Normalized.close (hn : Normalized F.fracBits g s.natAbs e n y) (h : Floored F g e s q) :
    |n * (F.unitAt y / 2 ^ g) - (|q|)| ≤ 2 * (F.unitAt y / 2 ^ g) := by
  have hclose := h.abs_close
  have hpos := guardUnit_pos F g y
  rcases hn.scaled with ⟨k, hk, hexp⟩ | ⟨hhalf, hexp, -⟩
  · have hunit : F.unitAt e / 2 ^ g = 2 ^ k * (F.unitAt y / 2 ^ g) := by
      rw [← hexp, Format.unitAt_add]
      ring
    have hvalue : (n : ℚ) * (F.unitAt y / 2 ^ g) = s.natAbs * (F.unitAt e / 2 ^ g) := by
      rw [hunit, hk]
      push_cast
      ring
    rw [hvalue]
    rcases h.exact_abs with hexact | hlong
    · rw [hexact, sub_self, abs_zero]
      linarith
    · have hpow : 2 ^ k < 2 ^ 2 := by
        have hhigh := hn.high
        rw [hk] at hhigh
        refine Nat.lt_of_mul_lt_mul_left (a := s.natAbs) ?_
        omega
      have hk1 : k ≤ 1 := Nat.le_of_lt_succ ((Nat.pow_lt_pow_iff_right (by decide)).mp hpow)
      have htwo : (2 : ℚ) ^ k ≤ 2 := by
        calc (2 : ℚ) ^ k ≤ 2 ^ 1 := pow_le_pow_right₀ one_le_two hk1
          _ = 2 := pow_one 2
      rw [hunit] at hclose ⊢
      exact hclose.trans (mul_le_mul_of_nonneg_right htwo hpos.le)
  · have hunit : F.unitAt y / 2 ^ g = 2 * (F.unitAt e / 2 ^ g) := by
      rw [hexp, Format.unitAt_succ]
      ring
    rw [hunit] at hpos ⊢
    have hmod := Nat.div_add_mod s.natAbs 2
    have hlt := Nat.mod_lt s.natAbs (show 2 > 0 by decide)
    rw [← hhalf] at hmod
    have hlow : (2 * n : ℚ) ≤ s.natAbs := by exact_mod_cast (show 2 * n ≤ s.natAbs by omega)
    have hhigh : (s.natAbs : ℚ) ≤ 2 * n + 1 := by
      exact_mod_cast (show s.natAbs ≤ 2 * n + 1 by omega)
    rw [abs_le] at hclose ⊢
    constructor <;> nlinarith

/-- The exponent after the rounding. -/
def roundedExponent (f g n : ℕ) (y : ℤ) : ℤ := y + if Carries f g n then 1 else 0

/-- The rounding changes the sum by at most half a unit. -/
theorem rounded_close (hg : 0 < g) (y : ℤ) (hhigh : n < 2 * 2 ^ (F.fracBits + g)) :
    |roundedSum F.fracBits g n * F.unitAt (roundedExponent F.fracBits g n y) -
      n * (F.unitAt y / 2 ^ g)| ≤ F.unitAt y / 2 := by
  set v := F.unitAt y / 2 ^ g with hv
  have hpos : 0 < v := guardUnit_pos F g y
  have hunit : F.unitAt y = 2 ^ g * v := by
    rw [hv, mul_div_cancel₀ _ (by positivity)]
  have hhalf : (2 : ℚ) ^ g / 2 = 2 ^ (g - 1) := by
    rw [div_eq_iff two_ne_zero, ← pow_succ, Nat.sub_add_cancel hg]
  rw [roundedSum, roundedExponent]
  by_cases hcarry : Carries F.fracBits g n
  · have hle := (roundEven_bounds g n).2
    have hcarry' : 2 * 2 ^ (F.fracBits + g) ≤ roundEven g n := hcarry
    have hless : (n : ℚ) ≤ 2 * 2 ^ (F.fracBits + g) := by exact_mod_cast hhigh.le
    have hreach : (2 : ℚ) * 2 ^ (F.fracBits + g) ≤ n + 2 ^ (g - 1) := by
      exact_mod_cast hcarry'.trans hle
    have hone : ((2 ^ F.fracBits : ℕ) : ℚ) * F.unitAt (y + 1) = 2 * 2 ^ (F.fracBits + g) * v := by
      rw [Format.unitAt_succ, hunit, pow_add]
      push_cast
      ring
    rw [if_pos hcarry, if_pos hcarry, hone, hunit, ← sub_mul, abs_mul, abs_of_pos hpos,
      mul_div_right_comm, hhalf]
    refine mul_le_mul_of_nonneg_right ?_ hpos.le
    rw [abs_le]
    constructor <;> linarith
  · have hnear : Lib.Near g n (roundEven g n / 2 ^ g) := by
      rw [roundEven]
      split
      · exact Lib.near_of_add hg (Nat.sub_le _ _) (by omega)
      · exact Lib.near_of_add hg le_rfl (Nat.le_succ _)
    have hround := hnear.abs_le hg
    rw [if_neg hcarry, if_neg hcarry, add_zero, hunit, ← mul_assoc, ← sub_mul, abs_mul,
      abs_of_pos hpos, mul_div_right_comm]
    exact mul_le_mul_of_nonneg_right hround hpos.le

/-- The rounded sum is at less than a unit from the exact one. -/
theorem sum_approximates (hg : 3 ≤ g) (hn : Normalized F.fracBits g s.natAbs e n y)
    (h : Floored F g e s q) :
    Format.Approximates F |q| (roundedSum F.fracBits g n)
      (roundedExponent F.fracBits g n y) := by
  obtain ⟨hlow, hhigh⟩ := roundedSum_bounds hn.low
  refine ⟨hlow, hhigh, ?_⟩
  have hunit := Format.unitAt_pos (F := F) y
  have hguard : F.unitAt y / 2 ^ g ≤ F.unitAt y / 8 := by
    refine div_le_div_of_nonneg_left hunit.le (by norm_num) ?_
    calc (8 : ℚ) = 2 ^ 3 := by norm_num
      _ ≤ 2 ^ g := pow_le_pow_right₀ one_le_two hg
  have hexp : F.unitAt y ≤ F.unitAt (roundedExponent F.fracBits g n y) := by
    refine Format.unitAt_le ?_
    rw [roundedExponent]
    split <;> omega
  calc |roundedSum F.fracBits g n * F.unitAt (roundedExponent F.fracBits g n y) - (|q|)|
      ≤ |roundedSum F.fracBits g n * F.unitAt (roundedExponent F.fracBits g n y) -
          n * (F.unitAt y / 2 ^ g)| + |n * (F.unitAt y / 2 ^ g) - (|q|)| := abs_sub_le _ _ _
    _ ≤ F.unitAt y / 2 + 2 * (F.unitAt y / 2 ^ g) :=
        add_le_add (rounded_close (by omega) y hn.high) (hn.close h)
    _ ≤ 7 / 8 * F.unitAt y := by linarith
    _ ≤ 7 / 8 * F.unitAt (roundedExponent F.fracBits g n y) := by linarith

/-! ## The largest magnitudes -/

/-- The magnitude up to which negative sums are rounded to finite numbers: one unit of the guard
bits less than what is rounded to infinity. -/
def sumLimit (F : Format) (g w : ℕ) : ℚ :=
  (2 ^ (F.fracBits + 1) - 1 / 2 - 1 / 2 ^ g) * F.unitAt (F.top w)

theorem sumLimit_eq (hg : 0 < g) : sumLimit F g w =
    (2 * 2 ^ (F.fracBits + g) - 2 ^ (g - 1) - 1) * (F.unitAt (F.top w) / 2 ^ g) := by
  have hhalf : (2 : ℚ) ^ g / 2 = 2 ^ (g - 1) := by
    rw [div_eq_iff two_ne_zero, ← pow_succ, Nat.sub_add_cancel hg]
  rw [sumLimit, ← hhalf, pow_add, pow_succ]
  field_simp
  ring

/-- What is rounded to infinity, in units of the guard bits. -/
theorem infinity_eq (hg : 0 < g) : (2 ^ (F.fracBits + 1) - 1 / 2) * F.unitAt (F.top w) =
    (2 * 2 ^ (F.fracBits + g) - 2 ^ (g - 1)) * (F.unitAt (F.top w) / 2 ^ g) := by
  have hhalf : (2 : ℚ) ^ g / 2 = 2 ^ (g - 1) := by
    rw [div_eq_iff two_ne_zero, ← pow_succ, Nat.sub_add_cancel hg]
  rw [← hhalf, pow_add, pow_succ]
  field_simp
  ring

/-- Where nothing is shifted up, the exact sum is not less than the normalized one by a unit, and
not at all less than it where it is not negative. -/
theorem Normalized.lower (hn : Normalized F.fracBits g s.natAbs e n y) (h : Floored F g e s q)
    (hy : e ≤ y) : (n - 1) * (F.unitAt y / 2 ^ g) < |q| ∧
      (0 ≤ q → n * (F.unitAt y / 2 ^ g) ≤ |q|) := by
  have hpos := guardUnit_pos F g e
  -- a unit of the normalized sum is that of the aligned one, or two of them
  obtain ⟨c, hc, hunit, hle⟩ : ∃ c : ℚ, 1 ≤ c ∧ F.unitAt y / 2 ^ g = c * (F.unitAt e / 2 ^ g) ∧
      n * c ≤ s.natAbs := by
    rcases hn.scaled with ⟨k, hk, hexp⟩ | ⟨hhalf, hexp, -⟩
    · obtain rfl : k = 0 := by omega
      refine ⟨1, le_rfl, ?_, ?_⟩
      · rw [one_mul, show y = e by omega]
      · rw [hk, pow_zero, mul_one, mul_one]
    · refine ⟨2, one_le_two, ?_, ?_⟩
      · rw [hexp, Format.unitAt_succ]
        ring
      · exact_mod_cast (show n * 2 ≤ s.natAbs by omega)
  have hscaled : n * c * (F.unitAt e / 2 ^ g) ≤ s.natAbs * (F.unitAt e / 2 ^ g) :=
    mul_le_mul_of_nonneg_right hle hpos.le
  have hone : F.unitAt e / 2 ^ g ≤ c * (F.unitAt e / 2 ^ g) := le_mul_of_one_le_left hpos.le hc
  rw [hunit, sub_mul, one_mul, ← mul_assoc]
  rcases lt_or_ge s 0 with hs | hs
  · obtain ⟨hq, hlow, -⟩ := h.of_neg hs
    refine ⟨by linarith, fun hq' => absurd hq (not_lt.mpr hq')⟩
  · obtain ⟨hq, hlow, -⟩ := h.of_nonneg hs
    exact ⟨by linarith, fun _ => by linarith⟩

/-- Up to the limit the exponent is that of a finite number. -/
theorem roundedExponent_le (hg : 3 ≤ g) (hn : Normalized F.fracBits g s.natAbs e n y)
    (h : Floored F g e s q) (he : e ≤ F.top w)
    (hq : |q| < (2 ^ (F.fracBits + 1) - 1 / 2) * F.unitAt (F.top w))
    (hlimit : -sumLimit F g w ≤ q) :
    roundedExponent F.fracBits g n y ≤ F.top w := by
  by_contra hgt
  have hpos := guardUnit_pos F g (F.top w)
  have hlow : (2 : ℚ) ^ (F.fracBits + g) ≤ n := by exact_mod_cast hn.low
  have hone : (1 : ℚ) ≤ 2 ^ (g - 1) := one_le_pow₀ one_le_two
  have hfour : (4 : ℚ) ≤ 2 ^ (g - 1) := by
    calc (4 : ℚ) = 2 ^ 2 := by norm_num
      _ ≤ 2 ^ (g - 1) := pow_le_pow_right₀ one_le_two (by omega)
  rw [roundedExponent] at hgt
  -- a sum that is shifted to the left stays below the largest exponent, with a carry as well
  have hy : e ≤ y := by
    rcases hn.scaled with ⟨k, -, hexp⟩ | ⟨-, hexp, -⟩
    · rcases Nat.eq_zero_or_pos k with rfl | hk
      · omega
      · split at hgt <;> omega
    · omega
  have hy' : y ≤ e + 1 := by
    rcases hn.scaled with ⟨k, -, hexp⟩ | ⟨-, hexp, -⟩ <;> omega
  obtain ⟨hless, hleast⟩ := hn.lower h hy
  rw [infinity_eq (g := g) (by omega)] at hq
  rw [sumLimit_eq (by omega)] at hlimit
  rcases eq_or_lt_of_le (show y ≤ F.top w + 1 by omega) with htop | hlt
  · -- the next exponent: already its least magnitude is too large
    have hunit : F.unitAt y / 2 ^ g = 2 * (F.unitAt (F.top w) / 2 ^ g) := by
      rw [htop, Format.unitAt_succ]
      ring
    rw [hunit] at hless
    nlinarith
  · -- the largest exponent and a carry
    obtain ⟨hcarry, htop⟩ : Carries F.fracBits g n ∧ y = F.top w := by
      split at hgt
      · exact ⟨‹_›, by omega⟩
      · omega
    have hcarry' : 2 * 2 ^ (F.fracBits + g) ≤ roundEven g n := hcarry
    have hreach : (2 : ℚ) * 2 ^ (F.fracBits + g) ≤ n + 2 ^ (g - 1) := by
      exact_mod_cast hcarry'.trans (roundEven_bounds g n).2
    rw [htop] at hless hleast
    -- a negative sum is larger than its bits by what the shift loses, and the limit allows for it
    rcases lt_or_ge q 0 with hneg | hnonneg
    · rw [abs_of_neg hneg] at hless
      nlinarith
    · have := hleast hnonneg
      nlinarith

/-- Between the limit and what is rounded to infinity, a negative sum is rounded to infinity: the
alignment gets it onto the magnitude in the middle, from which rounding to even carries. -/
theorem roundedExponent_eq (hg : 3 ≤ g)
    (hn : Normalized F.fracBits g s.natAbs (F.top w) n y) (h : Floored F g (F.top w) s q)
    (hq : |q| < (2 ^ (F.fracBits + 1) - 1 / 2) * F.unitAt (F.top w))
    (hlimit : q < -sumLimit F g w) :
    roundedExponent F.fracBits g n y = F.top w + 1 := by
  have hpos := guardUnit_pos F g (F.top w)
  have hsplit : 2 ^ (F.fracBits + g) = 2 ^ F.fracBits * 2 ^ g := Nat.pow_add 2 _ _
  have hguard : 2 ^ g = 2 * 2 ^ (g - 1) := by
    rw [← Nat.pow_succ', Nat.succ_eq_add_one, Nat.sub_add_cancel (by omega)]
  have hfour : 2 ^ 2 ≤ 2 ^ (g - 1) := Nat.pow_le_pow_right (by decide) (by omega)
  have hlong : 2 * 2 ^ (g - 1) ≤ 2 ^ (F.fracBits + g) := by
    rw [← hguard]
    exact Nat.pow_le_pow_right (by decide) (Nat.le_add_left _ _)
  rw [infinity_eq (g := g) (by omega)] at hq
  rw [sumLimit_eq (by omega)] at hlimit
  have hneg : s < 0 := by
    rw [h.sign]
    have hcast : (2 * 2 ^ (g - 1) : ℚ) ≤ 2 ^ (F.fracBits + g) := by exact_mod_cast hlong
    have hcast' : (4 : ℚ) ≤ 2 ^ (g - 1) := by exact_mod_cast hfour
    nlinarith
  obtain ⟨hq0, hlow, hhigh⟩ := h.of_neg hneg
  rw [abs_of_neg hq0] at hq hlow hhigh
  -- the magnitude of the aligned sum is in the middle
  have hmiddle : s.natAbs + 2 ^ (g - 1) = 2 * 2 ^ (F.fracBits + g) := by
    refine Nat.le_antisymm ?_ ?_
    · have hlt : (s.natAbs - 1 : ℚ) < 2 * 2 ^ (F.fracBits + g) - 2 ^ (g - 1) :=
        lt_of_mul_lt_mul_right (hlow.trans hq) hpos.le
      have hlt' : (s.natAbs + 2 ^ (g - 1) : ℚ) < 2 * 2 ^ (F.fracBits + g) + 1 := by linarith
      exact Nat.le_of_lt_succ (by exact_mod_cast hlt')
    · have hlt : (2 * 2 ^ (F.fracBits + g) - 2 ^ (g - 1) - 1 : ℚ) < s.natAbs :=
        lt_of_mul_lt_mul_right (by linarith) hpos.le
      have hlt' : (2 * 2 ^ (F.fracBits + g) : ℚ) < s.natAbs + 2 ^ (g - 1) + 1 := by linarith
      exact Nat.le_of_lt_succ (by exact_mod_cast hlt')
  obtain ⟨rfl, rfl⟩ : n = s.natAbs ∧ y = F.top w := by
    rcases hn.scaled with ⟨k, hk, hexp⟩ | ⟨-, -, hlarge⟩
    · have hhigh := hn.high
      have hk0 : k = 0 := by
        by_contra hne
        have htwo : 2 ^ 1 ≤ 2 ^ k := Nat.pow_le_pow_right (by decide) (by omega)
        have hmul : s.natAbs * 2 ≤ s.natAbs * 2 ^ k := Nat.mul_le_mul_left _ htwo
        omega
      subst hk0
      exact ⟨by rw [hk, Nat.pow_zero, Nat.mul_one], by omega⟩
    · omega
  have hodd : s.natAbs / 2 ^ g % 2 = 1 := by
    have hquotient : s.natAbs / 2 ^ g = 2 * 2 ^ F.fracBits - 1 := by
      have hone := Nat.two_pow_pos F.fracBits
      refine Nat.div_eq_of_lt_le ?_ ?_
      · rw [Nat.sub_mul, Nat.mul_assoc, ← hsplit]
        omega
      · rw [Nat.sub_add_cancel (by omega), Nat.mul_assoc, ← hsplit]
        omega
    have hone := Nat.two_pow_pos F.fracBits
    rw [hquotient]
    omega
  have hcarry : Carries F.fracBits g s.natAbs := by
    rw [Carries, roundEven, if_neg (by omega)]
    exact hmiddle.ge
  rw [roundedExponent, if_pos hcarry]

end Rounded

/-! ## Sums of numbers -/

section Numbers

variable {fuel : ℕ}

/-- A number that is far smaller is less than a quarter of a unit. -/
theorem abs_value_far (hb : 0 < F.exponent b) (h : F.exponent b + F.fracBits + 2 < F.exponent a) :
    |F.value b| < F.unitAt (F.exponent a) / 4 := by
  have hunit := Format.unitAt_pos (F := F) (F.exponent b)
  have hsignificand : (F.significand b : ℚ) < 2 ^ (F.fracBits + 1) := by
    exact_mod_cast (Format.significand_bounds (F := F) (x := b)).2
  have hle := Format.unitAt_le (F := F)
    (show (F.exponent b : ℤ) + (F.fracBits + 3 : ℕ) ≤ F.exponent a by push_cast; omega)
  rw [Format.unitAt_add] at hle
  have hpow : (2 : ℚ) ^ (F.fracBits + 3) = 2 ^ (F.fracBits + 1) * 4 := by
    rw [pow_add, pow_add]
    norm_num
    ring
  rw [Format.abs_value_of_pos hb]
  calc F.significand b * F.unitAt (F.exponent b)
      < 2 ^ (F.fracBits + 1) * F.unitAt (F.exponent b) := mul_lt_mul_of_pos_right hsignificand hunit
    _ = F.unitAt (F.exponent b) * 2 ^ (F.fracBits + 3) / 4 := by
        rw [hpow]
        ring
    _ ≤ F.unitAt (F.exponent a) / 4 := by linarith

/-- The magnitude of a number of an exponent. -/
theorem abs_value_le (ha : 0 < F.exponent a) :
    |F.value a| ≤ (2 ^ (F.fracBits + 1) - 1) * F.unitAt (F.exponent a) := by
  have hunit := Format.unitAt_pos (F := F) (F.exponent a)
  have hsignificand : (F.significand a : ℚ) + 1 ≤ 2 ^ (F.fracBits + 1) := by
    exact_mod_cast (Format.significand_bounds (F := F) (x := a)).2
  rw [Format.abs_value_of_pos ha]
  exact mul_le_mul_of_nonneg_right (by linarith) hunit.le

/-- The larger one of two numbers that are far apart is their sum up to a unit. -/
theorem within_far (ha : F.IsNormal a) (hb : 0 < F.exponent b)
    (h : F.exponent b + F.fracBits + 2 < F.exponent a) : F.Within a (F.value a + F.value b) := by
  have hunit := Format.unitAt_pos (F := F) (F.exponent a)
  have hfar := abs_value_far hb h
  have hmax : max (F.exponent a) 1 = F.exponent a := max_eq_left ha.pos
  refine ⟨ha.finite, ?_⟩
  rw [sub_add_cancel_left, abs_neg, Format.ulp, hmax]
  linarith

/-- The limit is not reached by the numbers of an exponent and a quarter of a unit. -/
theorem le_sumLimit (hg : 3 ≤ g) {e : ℤ} (he : e ≤ F.top w) :
    (2 ^ (F.fracBits + 1) - 1 + 1 / 4) * F.unitAt e ≤ sumLimit F g w := by
  have hunit := Format.unitAt_pos (F := F) e
  have hpow : (1 : ℚ) ≤ 2 ^ (F.fracBits + 1) := one_le_pow₀ one_le_two
  have height : (8 : ℚ) ≤ 2 ^ g := by
    calc (8 : ℚ) = 2 ^ 3 := by norm_num
      _ ≤ 2 ^ g := pow_le_pow_right₀ one_le_two hg
  have hguard : 1 / (2 : ℚ) ^ g ≤ 1 / 8 := one_div_le_one_div_of_le (by norm_num) height
  exact mul_le_mul (by linarith) (Format.unitAt_le he) hunit.le (by linarith)

theorem neg_sumLimit_le_far (hg : 3 ≤ g) (ha : F.IsNormal a) (hb : 0 < F.exponent b)
    (h : F.exponent b + F.fracBits + 2 < F.exponent a) :
    -sumLimit F g w ≤ F.value a + F.value b := by
  have hfar := abs_lt.mp (abs_value_far hb h)
  have hle := abs_le.mp (abs_value_le ha.pos)
  have hlimit := le_sumLimit (F := F) (w := w) (g := g) hg (Nat.cast_le.mpr ha.le_top)
  rw [add_mul] at hlimit
  linarith

/-- A sum beyond the limit has an operand with the largest exponent. -/
theorem max_exponent_eq (hg : 3 ≤ g) (ha : F.IsNormal a) (hb : F.IsNormal b)
    (hlimit : F.value a + F.value b < -sumLimit F g w) :
    ((max (F.exponent a) (F.exponent b) : ℕ) : ℤ) = F.top w := by
  have hle := ha.le_top
  have hle' := hb.le_top
  by_contra hne
  have hpow : (1 : ℚ) ≤ 2 ^ (F.fracBits + 1) := one_le_pow₀ one_le_two
  have hunit : F.unitAt (F.top w) = F.unitAt (F.top w - 1) * 2 := by
    rw [← Format.unitAt_succ, sub_add_cancel]
  have hpos := Format.unitAt_pos (F := F) (F.top w - 1)
  have hsmall : ∀ x : BitVec w, 0 < F.exponent x → (F.exponent x : ℤ) ≤ F.top w - 1 →
      |F.value x| ≤ (2 ^ (F.fracBits + 1) - 1) * F.unitAt (F.top w - 1) := fun x hx hxle =>
    (abs_value_le hx).trans
      (mul_le_mul_of_nonneg_left (Format.unitAt_le hxle) (by linarith))
  have ha' := abs_le.mp (hsmall a ha.pos (by omega))
  have hb' := abs_le.mp (hsmall b hb.pos (by omega))
  have hle := le_sumLimit (F := F) (w := w) (g := g) hg le_rfl
  rw [hunit] at hle
  nlinarith

theorem within_zero (hw : 2 ≤ 2 ^ (w - 1 - F.fracBits)) : F.Within (0 : BitVec w) 0 := by
  have hexp : F.exponent (0 : BitVec w) = 0 := Format.exponent_zero
  refine ⟨Format.isFinite_of_le hw (by rw [hexp]; exact Nat.zero_le _), ?_⟩
  rw [Format.value_of_zero hexp, Format.fraction_zero, Nat.cast_zero, zero_mul, mul_zero, sub_zero,
    abs_zero]
  exact Format.unitAt_pos _

/-- Numbers that are not far apart are aligned and added. -/
theorem add_eq_finish (hM : M.Lawful F) (hA : A.Lawful F.fracBits)
    (h : ¬F.exponent b + F.fracBits + 2 < F.exponent a)
    (h' : ¬F.exponent a + F.fracBits + 2 < F.exponent b) :
    add M A fuel a b = finish M A fuel (sum M A a b) := by
  rw [add, hM.exp_eq, hM.exp_eq, hA.far_eq, if_neg (by omega), if_neg (by omega)]

theorem add_eq_left (hM : M.Lawful F) (hA : A.Lawful F.fracBits)
    (h : F.exponent b + F.fracBits + 2 < F.exponent a) : add M A fuel a b = some a := by
  rw [add, hM.exp_eq, hM.exp_eq, hA.far_eq, if_pos (by omega)]

theorem add_eq_right (hM : M.Lawful F) (hA : A.Lawful F.fracBits)
    (h : F.exponent a + F.fracBits + 2 < F.exponent b) : add M A fuel a b = some b := by
  rw [add, hM.exp_eq, hM.exp_eq, hA.far_eq, if_neg (by omega), if_pos (by omega)]

/-- The sum of numbers that are not far apart. -/
theorem finish_within_iff (hM : M.Lawful F) (hA : A.Lawful F.fracBits)
    (hw : 2 ≤ 2 ^ (w - 1 - F.fracBits)) (hfuel : F.fracBits + A.guard < fuel)
    (ha : F.IsNormal a) (hb : F.IsNormal b)
    (h : F.RoundsToNormal w (F.value a + F.value b)) :
    (∃ r, finish M A fuel (sum M A a b) = some r ∧ F.Within r (F.value a + F.value b)) ↔
      -sumLimit F A.guard w ≤ F.value a + F.value b := by
  have hg := hA.guard_le
  have hfloor := floored (F := F) (g := A.guard) (by omega) ha.pos hb.pos
  obtain ⟨hlow, hhigh⟩ := alignedSum_bounds (F := F) A.guard a b
  obtain ⟨hmant, hexp⟩ := toInt_sum hM hA a b
  have hmax : ((max (F.exponent a) (F.exponent b) : ℕ) : ℤ) ≤ F.top w :=
    Nat.cast_le.mpr (max_le ha.le_top hb.le_top)
  have hlargest := max_exponent_eq (g := A.guard) hg ha hb
  generalize F.value a + F.value b = q at *
  rw [← hmant] at hfloor hlow hhigh
  rw [← hexp] at hfloor hmax hlargest
  generalize sum M A a b = s at *
  have hne : s.mant1.toInt ≠ 0 := by
    have hunit := Format.unitAt_pos (F := F) 1
    have hpow : (1 : ℚ) ≤ 2 ^ F.fracBits := one_le_pow₀ one_le_two
    have hleast : 0 < |q| := lt_of_lt_of_le (mul_pos (by linarith) hunit) h.1
    exact hfloor.ne_zero (abs_pos.mp hleast)
  obtain ⟨n, y, m, hn, hfinish, hm⟩ := finish_eq hM hA hfuel hne hlow hhigh
  have happrox := sum_approximates hg hn hfloor
  have hzero := happrox.exponent_nonneg h.1
  -- so the fraction does not reach the exponent
  have hmlt : m.toNat < 2 ^ F.fracBits := by
    have := happrox.high
    rw [← hm, Nat.pow_succ] at this
    omega
  rw [← roundedExponent] at hfinish
  obtain ⟨e, he⟩ := Int.eq_ofNat_of_zero_le hzero
  rw [hfinish]
  constructor
  · -- beyond the limit the exponent is that of infinity
    rintro ⟨r, hr, hwithin⟩
    by_contra hlimit
    have htop := hlargest (not_le.mp hlimit)
    rw [htop] at hn hfloor
    have hover := roundedExponent_eq hg hn hfloor h.2 (not_le.mp hlimit)
    have hlast : F.top w + 1 < 2 ^ (w - 1 - F.fracBits) := by
      rw [Format.top]
      omega
    obtain ⟨-, hexponent, -⟩ := hM.fields (decide (s.mant1.toInt < 0)) (F.top w + 1) m hlast hmlt
    rw [hover] at hr
    have hfinite : F.exponent r + 1 < 2 ^ (w - 1 - F.fracBits) := hwithin.finite
    rw [← Option.some.inj hr, ← Nat.cast_succ, hexponent, Format.top] at hfinite
    omega
  · intro hlimit
    have htop := roundedExponent_le hg hn hfloor hmax h.2 hlimit
    rw [he] at happrox htop ⊢
    rw [Format.top] at htop
    obtain ⟨hmsb, hexponent, hfraction⟩ :=
      hM.fields (decide (s.mant1.toInt < 0)) e m (by omega) hmlt
    refine ⟨_, rfl, ?_⟩
    generalize M.pack (signOf (decide (s.mant1.toInt < 0))) e m = r at *
    rw [hfloor.eq_sign_mul_abs]
    refine happrox.within h.1 (Format.isFinite_of_le hw ?_) hmsb hexponent (by rw [hfraction, hm])
    rw [hexponent, Format.top]
    omega

/-- Equal magnitudes cancel each other. -/
theorem finish_of_eq_zero (hM : M.Lawful F) (hA : A.Lawful F.fracBits) (ha : 0 < F.exponent a)
    (hb : 0 < F.exponent b) (h : F.value a + F.value b = 0) :
    finish M A fuel (sum M A a b) = some 0 := by
  have hg := hA.guard_le
  have hfloor := floored (F := F) (g := A.guard) (by omega) ha hb
  have hpos := guardUnit_pos F A.guard (max (F.exponent a) (F.exponent b) : ℕ)
  have hle := hfloor.le
  have hlt := hfloor.lt
  rw [h] at hle hlt
  have hzero : alignedSum F A.guard a b = 0 := by
    have hnonpos : (alignedSum F A.guard a b : ℚ) ≤ 0 := by
      by_contra hgt
      exact absurd (mul_pos (not_le.mp hgt) hpos) (not_lt.mpr hle)
    have hnonneg : (0 : ℚ) < alignedSum F A.guard a b + 1 := pos_of_mul_pos_left hlt hpos.le
    have hle' : alignedSum F A.guard a b ≤ 0 := by exact_mod_cast hnonpos
    have hlt' : 0 < alignedSum F A.guard a b + 1 := by exact_mod_cast hnonneg
    omega
  have hmant : (sum M A a b).mant1 = 0 :=
    BitVec.eq_of_toInt_eq ((toInt_sum hM hA a b).1.trans (hzero.trans BitVec.toInt_zero.symm))
  rw [finish, if_pos hmant]

/-- A sum that is 0 or is rounded to a normal number is at less than one unit in the last place
where it is not below the limit, and only there. -/
theorem add_within_iff (hM : M.Lawful F) (hA : A.Lawful F.fracBits)
    (hw : 2 ≤ 2 ^ (w - 1 - F.fracBits)) (hfuel : F.fracBits + A.guard < fuel)
    (ha : F.IsNormal a) (hb : F.IsNormal b)
    (h : F.value a + F.value b = 0 ∨ F.RoundsToNormal w (F.value a + F.value b)) :
    (∃ r, add M A fuel a b = some r ∧ F.Within r (F.value a + F.value b)) ↔
      -sumLimit F A.guard w ≤ F.value a + F.value b := by
  have hg := hA.guard_le
  by_cases hfar : F.exponent b + F.fracBits + 2 < F.exponent a
  · rw [add_eq_left hM hA hfar]
    exact iff_of_true ⟨a, rfl, within_far ha hb.pos hfar⟩ (neg_sumLimit_le_far hg ha hb.pos hfar)
  by_cases hfar' : F.exponent a + F.fracBits + 2 < F.exponent b
  · rw [add_eq_right hM hA hfar', add_comm]
    exact iff_of_true ⟨b, rfl, within_far hb ha.pos hfar'⟩ (neg_sumLimit_le_far hg hb ha.pos hfar')
  rw [add_eq_finish hM hA hfar hfar']
  rcases h with hzero | hnormal
  · have hlimit : 0 ≤ sumLimit F A.guard w := by
      have hle := le_sumLimit (F := F) (w := w) hg (e := F.top w) le_rfl
      have hunit := Format.unitAt_pos (F := F) (F.top w)
      have hpow : (1 : ℚ) ≤ 2 ^ (F.fracBits + 1) := one_le_pow₀ one_le_two
      nlinarith
    rw [finish_of_eq_zero hM hA ha.pos hb.pos hzero, hzero]
    exact iff_of_true ⟨0, rfl, within_zero hw⟩ (by linarith)
  · exact finish_within_iff hM hA hw hfuel ha hb hnormal

end Numbers

end FloatAddition

end HfRisc.Soft
