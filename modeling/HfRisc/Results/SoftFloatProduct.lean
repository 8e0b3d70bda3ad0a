import HfRisc.Soft.FloatMul

/-!
# Products

The sum of the partial products is less than the product by what is left out and cut off, which is
less than 6 of the last bits that are kept. At least 3 bits are dropped by the rounding, so this
and the half unit of the rounding are together at most 7/8 of a unit.
-/

namespace HfRisc.Soft

open HfRisc.Lib (Format Near)

/-! ## The error of the significand -/

section Rounded

variable {f d n : ℕ}

/-- The number of bits that are dropped. -/
def dropped (f d n : ℕ) : ℕ := if Reaches f d n then d else d - 1

theorem roundedProduct_near (hd : 3 ≤ d) : Near (dropped f d n) n (roundedProduct f d n) := by
  obtain ⟨hhalf, hquarter⟩ := two_pow_halves hd
  rw [dropped, roundedProduct]
  by_cases hlong : 2 ^ (f + d) ≤ n
  · rw [if_pos (reaches_of_le hlong), if_pos hlong]
    exact Lib.near_of_add (by omega) le_rfl (Nat.le_succ _)
  · rw [if_neg hlong]
    by_cases hover : Reaches f d n
    · rw [if_pos hover, if_pos hover]
      have hreach : 2 ^ (f + d) ≤ n + 2 ^ (d - 2) := hover
      constructor
      · rw [← Nat.pow_add]
        omega
      · rw [← Nat.pow_add]
        omega
    · rw [if_neg hover, if_neg hover]
      exact Lib.near_of_add (by omega) le_rfl (Nat.le_succ _)

theorem dropped_le (hd : 3 ≤ d) : 2 ≤ dropped f d n ∧ dropped f d n ≤ d := by
  rw [dropped]
  split <;> omega

end Rounded

section Product

variable {w : ℕ} {M : Macros w} {P : Multiplier w} {F : Format} {a b : BitVec w}

/-- The exact product of the significands, with as many bits as one has before the point. -/
def exactProduct (F : Format) (a b : BitVec w) : ℚ :=
  F.significand a * F.significand b / 2 ^ F.fracBits

/-- The exact product of two numbers by its sign, its significand and its exponent. -/
theorem value_mul_value (ha : 0 < F.exponent a) (hb : 0 < F.exponent b) :
    F.value a * F.value b = (if (a.msb ^^ b.msb) then -1 else 1) *
      (exactProduct F a b * F.unitAt (F.exponent a + F.exponent b - F.bias)) := by
  have hunit : F.unitAt (F.exponent a) * F.unitAt (F.exponent b) =
      F.unitAt (F.exponent a + F.exponent b - F.bias) / 2 ^ F.fracBits := by
    rw [Format.unitAt, Format.unitAt, Format.unitAt, ← zpow_natCast, ← zpow_sub₀ two_ne_zero,
      ← zpow_add₀ two_ne_zero]
    congr 1
    ring
  have hmagnitude : F.significand a * F.unitAt (F.exponent a) *
      (F.significand b * F.unitAt (F.exponent b)) =
      exactProduct F a b * F.unitAt (F.exponent a + F.exponent b - F.bias) := by
    rw [mul_mul_mul_comm, hunit, exactProduct]
    ring
  rw [Format.value_of_pos ha, Format.value_of_pos hb, ← hmagnitude]
  cases a.msb <;> cases b.msb <;> simp

/-- What is cut down is less than the product by less than 6 quarters of its last bit. -/
theorem cutProduct_close (hP : P.Lawful F.fracBits) (a b : BitVec w) :
    (cutProduct P F a b : ℚ) ≤ exactProduct F a b * 2 ^ (P.dropHigh - 1) ∧
      exactProduct F a b * 2 ^ (P.dropHigh - 1) < cutProduct P F a b + 3 / 2 := by
  obtain ⟨hle, hlt⟩ := partialProduct_bounds P.split (F.significand a) (F.significand b)
  have hmod := Nat.div_add_mod (partialProduct P.split (F.significand a) (F.significand b)) 4
  have hmod' := Nat.mod_lt (partialProduct P.split (F.significand a) (F.significand b))
    (show 4 > 0 by decide)
  rw [← cutProduct] at hmod
  generalize cutProduct P F a b = n at *
  generalize partialProduct P.split (F.significand a) (F.significand b) % 4 = t at *
  rw [← hmod] at hle hlt
  have hscale : (2 : ℚ) ^ F.fracBits = 2 ^ (P.dropHigh - 1) * (4 * 2 ^ (2 * P.split)) := by
    have hsplit := hP.split_eq
    have hdrop := hP.drop_eq
    have hd := hP.drop_le
    have hfrac : F.fracBits = P.dropHigh - 1 + (2 + 2 * P.split) := by omega
    rw [hfrac, pow_add, pow_add]
    norm_num
  have hle' : (4 * n + t : ℚ) * 2 ^ (2 * P.split) ≤ F.significand a * F.significand b := by
    exact_mod_cast hle
  have hlt' : (F.significand a * F.significand b : ℚ) < (4 * n + t + 3) * 2 ^ (2 * P.split) := by
    exact_mod_cast hlt
  have hcast : (t : ℚ) ≤ 3 := by exact_mod_cast Nat.le_of_lt_succ hmod'
  have hcast' : (0 : ℚ) ≤ t := Nat.cast_nonneg t
  have hpos : (0 : ℚ) < 2 ^ (2 * P.split) := by positivity
  have hexact : exactProduct F a b * 2 ^ (P.dropHigh - 1) =
      F.significand a * F.significand b / (4 * 2 ^ (2 * P.split)) := by
    have hne : (2 : ℚ) ^ (P.dropHigh - 1) ≠ 0 := by positivity
    rw [exactProduct, hscale, div_mul_eq_mul_div, mul_comm _ ((2 : ℚ) ^ (P.dropHigh - 1)),
      mul_div_mul_left _ _ hne]
  rw [hexact, le_div_iff₀ (by positivity), div_lt_iff₀ (by positivity)]
  constructor <;> nlinarith

/-- The rounded product is at less than a unit from the exact one. -/
theorem product_approximates (hP : P.Lawful F.fracBits) (a b : BitVec w) :
    Format.Approximates F (exactProduct F a b * F.unitAt (F.exponent a + F.exponent b - F.bias))
      (roundedProduct F.fracBits P.dropHigh (cutProduct P F a b)) (productExponent P F a b) := by
  have hd := hP.drop_le
  obtain ⟨hlow, hhigh⟩ := (cutProduct_bounds hP a b).rounded_bounds hd
  refine ⟨hlow, hhigh, ?_⟩
  have hnear := roundedProduct_near (f := F.fracBits) (n := cutProduct P F a b) hd
  obtain ⟨htwo, -⟩ := dropped_le (f := F.fracBits) (n := cutProduct P F a b) hd
  have hround := hnear.abs_le (by omega)
  obtain ⟨hle, hlt⟩ := cutProduct_close hP a b
  -- in units of the last bit that is kept
  set u := F.unitAt (F.exponent a + F.exponent b - F.bias) / 2 ^ (P.dropHigh - 1) with hu
  have hpos : 0 < u := div_pos (Format.unitAt_pos _) (by positivity)
  have hne : (2 : ℚ) ^ (P.dropHigh - 1) ≠ 0 := by positivity
  have hunit : F.unitAt (F.exponent a + F.exponent b - F.bias) = 2 ^ (P.dropHigh - 1) * u := by
    rw [hu, mul_div_cancel₀ _ hne]
  have hunit' : F.unitAt (productExponent P F a b) =
      2 ^ dropped F.fracBits P.dropHigh (cutProduct P F a b) * u := by
    rw [productExponent, dropped]
    split
    · rw [Format.unitAt_succ, hunit, mul_right_comm, ← pow_succ, Nat.sub_add_cancel (by omega)]
    · rw [add_zero, hunit]
  have hfour : (4 : ℚ) ≤ 2 ^ dropped F.fracBits P.dropHigh (cutProduct P F a b) := by
    calc (4 : ℚ) = 2 ^ 2 := by norm_num
      _ ≤ _ := pow_le_pow_right₀ one_le_two htwo
  rw [hunit', hunit, ← mul_assoc, ← mul_assoc, ← mul_assoc, ← sub_mul, abs_mul, abs_of_pos hpos]
  refine mul_le_mul_of_nonneg_right ?_ hpos.le
  rw [abs_le] at hround ⊢
  constructor <;> linarith

/-- The exponent is not larger than that of what is rounded to the nearest. -/
theorem product_lower (hP : P.Lawful F.fracBits) (a b : BitVec w) :
    (2 ^ (F.fracBits + 1) - 1 / 2) * F.unitAt (productExponent P F a b - 1) ≤
      exactProduct F a b * F.unitAt (F.exponent a + F.exponent b - F.bias) := by
  have hd := hP.drop_le
  have hunit := Format.unitAt_pos (F := F) (F.exponent a + F.exponent b - F.bias)
  rw [productExponent]
  split
  · -- the cut product reaches the next length, and the exact one is not smaller
    rename_i hreach
    rw [add_sub_cancel_right]
    refine mul_le_mul_of_nonneg_right ?_ hunit.le
    obtain ⟨hle, -⟩ := cutProduct_close hP a b
    obtain ⟨k, hk⟩ : ∃ k, P.dropHigh = k + 2 := ⟨P.dropHigh - 2, by omega⟩
    have hreach' : (2 : ℚ) ^ (F.fracBits + P.dropHigh) ≤
        cutProduct P F a b + 2 ^ (P.dropHigh - 2) := by exact_mod_cast hreach
    have hone : P.dropHigh - 1 = k + 1 := by omega
    have htwo : P.dropHigh - 2 = k := by omega
    rw [hone] at hle
    rw [htwo, hk] at hreach'
    have hpos : (0 : ℚ) < 2 ^ (k + 1) := by positivity
    refine le_of_mul_le_mul_right ?_ hpos
    have hpow : (2 : ℚ) ^ (F.fracBits + (k + 2)) = 2 ^ (F.fracBits + 1) * 2 ^ (k + 1) := by
      rw [← pow_add]
      congr 1
      omega
    rw [hpow] at hreach'
    have hhalf : (2 : ℚ) ^ (k + 1) = 2 * 2 ^ k := pow_succ' 2 k
    linarith
  · -- both significands have their implicit bit
    have hsucc : F.unitAt (F.exponent a + F.exponent b - F.bias) =
        F.unitAt (F.exponent a + F.exponent b - F.bias + 0 - 1) * 2 := by
      rw [← Format.unitAt_succ]
      congr 1
      ring
    have hbound : (2 : ℚ) ^ F.fracBits ≤ exactProduct F a b := by
      have ha : (2 : ℚ) ^ F.fracBits ≤ F.significand a := by
        exact_mod_cast (Format.significand_bounds (F := F) (x := a)).1
      have hb : (2 : ℚ) ^ F.fracBits ≤ F.significand b := by
        exact_mod_cast (Format.significand_bounds (F := F) (x := b)).1
      rw [exactProduct, le_div_iff₀ (by positivity)]
      exact mul_le_mul ha hb (by positivity) (by positivity)
    have hunit' := Format.unitAt_pos (F := F) (F.exponent a + F.exponent b - F.bias + 0 - 1)
    rw [hsucc, pow_succ]
    nlinarith

/-- The product is at less than one unit in the last place from the exact one. -/
theorem multiply_within (hM : M.Lawful F) (hP : P.Lawful F.fracBits)
    (hw : 2 ≤ 2 ^ (w - 1 - F.fracBits)) (ha : 0 < F.exponent a) (hb : 0 < F.exponent b)
    (h : F.RoundsToNormal w (F.value a * F.value b)) :
    F.Within (multiply M P a b) (F.value a * F.value b) := by
  obtain ⟨m, hmultiply, hm⟩ := multiply_eq hM hP a b
  have happrox := product_approximates hP a b
  have hlower := product_lower hP a b
  have hvalue := value_mul_value ha hb
  have hnonneg : 0 ≤ exactProduct F a b * F.unitAt (F.exponent a + F.exponent b - F.bias) := by
    have hunit := Format.unitAt_pos (F := F) (F.exponent a + F.exponent b - F.bias)
    rw [exactProduct]
    positivity
  rw [Format.RoundsToNormal, hvalue, Format.abs_sign_mul _ hnonneg] at h
  have hzero := happrox.exponent_nonneg h.1
  have htop := Format.exponent_le_top w h.2 hlower
  obtain ⟨e, he⟩ := Int.eq_ofNat_of_zero_le hzero
  rw [he] at hmultiply htop happrox
  rw [Format.top] at htop
  obtain ⟨hmsb, hexp, hfraction⟩ := hM.fields (a.msb ^^ b.msb) e m (by omega)
    (by have := happrox.high; rw [← hm, Nat.pow_succ] at this; omega)
  rw [hmultiply, hvalue]
  generalize M.pack (signOf (a.msb ^^ b.msb)) e m = r at *
  refine happrox.within h.1 (Format.isFinite_of_le hw ?_) hmsb hexp (by rw [hfraction, hm])
  rw [hexp, Format.top]
  omega

theorem mulsf3_eq {a b : Word} (ha : binary32.IsNormal a) (hb : binary32.IsNormal b) :
    mulsf3 a b = multiply single multiplier32 a b := by
  rw [mulsf3, if_neg (not_or_intro (Format.ne_zero_of_pos ha.pos) (Format.ne_zero_of_pos hb.pos))]

theorem muldf3_eq {a b : BitVec 64} (ha : binary64.IsNormal a) (hb : binary64.IsNormal b) :
    muldf3 a b = multiply double multiplier64 a b := by
  rw [muldf3, if_neg (not_or_intro (Format.ne_zero_of_pos ha.pos) (Format.ne_zero_of_pos hb.pos))]

end Product

end HfRisc.Soft

namespace HfRisc.Results

open HfRisc.Soft HfRisc.Lib

/-- Both multiplications are less than one unit in the last place off where the product is rounded
to a normal number, and the sum of the partial products stays in its word. -/
theorem float_products :
    (∀ a b : Word, binary32.IsNormal a → binary32.IsNormal b →
      binary32.RoundsToNormal 32 (binary32.value a * binary32.value b) →
      binary32.Within (mulsf3 a b) (binary32.value a * binary32.value b) ∧
        Soft.partialProduct 8 (mant a).toNat (mant b).toNat < 2 ^ 32 ∧
        (multiplier32.sum (mant a) (mant b)).toNat =
          Soft.partialProduct 8 (mant a).toNat (mant b).toNat) ∧
    (∀ a b : BitVec 64, binary64.IsNormal a → binary64.IsNormal b →
      binary64.RoundsToNormal 64 (binary64.value a * binary64.value b) →
      binary64.Within (muldf3 a b) (binary64.value a * binary64.value b) ∧
        Soft.partialProduct 21 (mantdLl a).toNat (mantdLl b).toNat < 2 ^ 64 ∧
        (multiplier64.sum (mantdLl a) (mantdLl b)).toNat =
          Soft.partialProduct 21 (mantdLl a).toNat (mantdLl b).toNat) := by
  constructor
  · intro a b ha hb h
    have hmant : ∀ x, (mant x).toNat < 2 ^ (binary32.fracBits + 1) := fun x =>
      (lawful_single.mant_eq x).trans_lt Format.significand_bounds.2
    rw [mulsf3_eq ha hb]
    exact ⟨multiply_within lawful_single multiplier32_lawful (by decide) ha.pos hb.pos h,
      partialProduct_lt multiplier32_lawful (hmant a) (hmant b),
      toNat_sum multiplier32_lawful (hmant a) (hmant b)⟩
  · intro a b ha hb h
    have hmant : ∀ x, (mantdLl x).toNat < 2 ^ (binary64.fracBits + 1) := fun x =>
      (lawful_double.mant_eq x).trans_lt Format.significand_bounds.2
    rw [muldf3_eq ha hb]
    exact ⟨multiply_within lawful_double multiplier64_lawful (by decide) ha.pos hb.pos h,
      partialProduct_lt multiplier64_lawful (hmant a) (hmant b),
      toNat_sum multiplier64_lawful (hmant a) (hmant b)⟩

/-- 1.5 by 1.5. -/
theorem float_products_square :
    (binary32.Within (mulsf3 0x3FC00000 0x3FC00000)
        (binary32.value (0x3FC00000 : Word) * binary32.value (0x3FC00000 : Word)) ∧
      Soft.partialProduct 8 (mant 0x3FC00000).toNat (mant 0x3FC00000).toNat < 2 ^ 32 ∧
      (multiplier32.sum (mant 0x3FC00000) (mant 0x3FC00000)).toNat =
        Soft.partialProduct 8 (mant 0x3FC00000).toNat (mant 0x3FC00000).toNat) ∧
    (binary64.Within (muldf3 0x3FF8000000000000 0x3FF8000000000000)
        (binary64.value (0x3FF8000000000000 : BitVec 64) *
          binary64.value (0x3FF8000000000000 : BitVec 64)) ∧
      Soft.partialProduct 21 (mantdLl 0x3FF8000000000000).toNat (mantdLl 0x3FF8000000000000).toNat <
        2 ^ 64 ∧
      (multiplier64.sum (mantdLl 0x3FF8000000000000) (mantdLl 0x3FF8000000000000)).toNat =
        Soft.partialProduct 21 (mantdLl 0x3FF8000000000000).toNat
          (mantdLl 0x3FF8000000000000).toNat) := by
  have hthree : binary32.value (0x3FC00000 : Word) = 3 / 2 := by
    rw [Format.value_of_fields (b := false) (e := 127) (s := 3 * 2 ^ 22) (by decide) (by decide)
      (by decide) (by decide)]
    norm_num [Format.unitAt, binary32]
  have hthree' : binary64.value (0x3FF8000000000000 : BitVec 64) = 3 / 2 := by
    rw [Format.value_of_fields (b := false) (e := 1023) (s := 3 * 2 ^ 51) (by decide) (by decide)
      (by decide) (by decide)]
    norm_num [Format.unitAt, binary64]
  refine ⟨float_products.1 _ _ (by decide) (by decide) ?_,
    float_products.2 _ _ (by decide) (by decide) ?_⟩
  · rw [hthree]
    refine Format.roundsToNormal_of_lt (e := 128) ?_ ?_ (by decide) (by decide)
    all_goals norm_num [Format.unitAt, binary32, abs_of_pos]
  · rw [hthree']
    refine Format.roundsToNormal_of_lt (e := 1024) ?_ ?_ (by decide) (by decide)
    all_goals norm_num [Format.unitAt, binary64, abs_of_pos]

end HfRisc.Results
