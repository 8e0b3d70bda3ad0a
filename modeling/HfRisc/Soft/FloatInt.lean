import HfRisc.Lib.While
import HfRisc.Soft.Float

/-!
# Conversions between `double` and integers (`libc.c`)

The four functions to integers shift the bits of the fraction down by what the exponent is short
of the width of the result. They differ in that width, in which bits they take, and in what they
do with a sign. A value whose exponent is exactly that width is taken for one that is too small.
-/

namespace HfRisc.Soft

/-! ## To integers -/

/-- The common part of the functions: the exponent is compared with `point`, and `l` is shifted
by less than `limit`. `exp` is an `int` that is far from its bounds. -/
def fixdf {w : ℕ} (point limit : ℕ) (large : BitVec w) (shift : BitVec w → ℕ → BitVec w)
    (neg : Bool) (l : BitVec w) (a1 : BitVec 64) : BitVec w :=
  let exp : ℤ := (expd a1).toNat - excessd.toNat - point
  if 0 < exp then large
  else if exp < 0 ∧ -limit < exp ∧ l ≠ 0 then
    let l := shift l (-exp).toNat
    if neg then -l else l
  -- too small, or `exp = 0`
  else 0

/-- `__fixdfsi`. -/
def fixdfsi (a1 : BitVec 64) : Word :=
  if upper a1 = 0 ∧ lower a1 = 0 then 0
  else fixdf 31 32 (if signd a1 ≠ 0 then (1 : Word) <<< 31 else (1 : Word) <<< 31 - 1)
    BitVec.sshiftRight (signd a1 ≠ 0) (mantd a1) a1

/-- `__fixdfdi`. -/
def fixdfdi (a1 : BitVec 64) : BitVec 64 :=
  if upper a1 = 0 ∧ lower a1 = 0 then 0
  else fixdf 64 64 (if signd a1 ≠ 0 then (1 : BitVec 64) <<< 63 else (1 : BitVec 64) <<< 63 - 1)
    BitVec.sshiftRight (signd a1 ≠ 0) (mantdLl a1) a1

/-- `__fixunsdfsi`. -/
def fixunsdfsi (a1 : BitVec 64) : Word :=
  if upper a1 = 0 ∧ lower a1 = 0 then 0
  else fixdf 32 32 0xFFFFFFFF (fun l n => l >>> n) false
    (((upper a1 &&& 0xFFFFF) ||| hiddend) <<< 11 ||| (lower a1 >>> 21)) a1

/-- `__fixunsdfdi`. -/
def fixunsdfdi (a1 : BitVec 64) : BitVec 64 :=
  if a1 = 0 then 0
  else fixdf 64 64 (-1) (fun l n => l >>> n) false a1 a1

/-! ## From integers -/

namespace Floatsidf

/-- The variables of the loops. -/
structure Vars where
  a1 : Word
  exp : Word

/-- `a1 <<= k; exp -= k`. -/
def shift (k : ℕ) (s : Vars) : Vars := ⟨s.a1 <<< k, s.exp - BitVec.ofNat 32 k⟩

/-- The number is packed up. -/
def pack (sign : Word) (s : Vars) : BitVec 64 :=
  halves (sign ||| s.exp <<< 20 ||| (s.a1.sshiftRight 10 &&& ~~~hiddend)) (s.a1 <<< 22)

end Floatsidf

/-- `__floatsidf`, where its loops end within `fuel` tests. -/
def floatsidf (fuel : ℕ) (a1 : Word) : Option (BitVec 64) :=
  if a1 = 0 then some (halves 0 0) else
  let sign := if a1.slt 0 then signbit else 0
  let a := if a1.slt 0 then -a1 else a1
  if a1.slt 0 ∧ a.slt 0 then some (halves (signbit ||| ((32 + excessd) <<< 20)) 0) else do
    let s ← Lib.whileLoop (fun s => s.a1.slt 0x1000000) (Floatsidf.shift 4) fuel
      ⟨a, 31 + excessd⟩
    let t ← Lib.whileLoop (fun s => s.a1.slt 0x40000000) (Floatsidf.shift 1) fuel s
    return Floatsidf.pack sign t

/-! ## The exponents -/

section Exponents

variable {w point limit : ℕ} {large l : BitVec w} {shift : BitVec w → ℕ → BitVec w} {neg : Bool}
  {a : BitVec 64}

theorem exp_eq (a : BitVec 64) (point : ℕ) :
    ((expd a).toNat : ℤ) - excessd.toNat - point = binary64.exponent a - (1022 + point) := by
  have h : excessd.toNat = 1022 := rfl
  rw [toNat_expd, h]
  omega

theorem fixdf_large (h : 1022 + point < binary64.exponent a) :
    fixdf point limit large shift neg l a = large := by
  simp only [fixdf, exp_eq]
  rw [if_pos (by omega)]

/-- Too small, or with the exponent where the shift would be by 0. -/
theorem fixdf_zero
    (h : binary64.exponent a = 1022 + point ∨ binary64.exponent a + limit ≤ 1022 + point) :
    fixdf point limit large shift neg l a = 0 := by
  simp only [fixdf, exp_eq]
  rw [if_neg (by omega), if_neg fun hc => by omega]

/-- The same where a function has a case of its own for 0. -/
theorem fixdf_guarded {p : Prop} [Decidable p]
    (h : binary64.exponent a = 1022 + point ∨ binary64.exponent a + limit ≤ 1022 + point) :
    (if p then 0 else fixdf point limit large shift neg l a) = 0 := by
  split
  · rfl
  · exact fixdf_zero h

theorem fixdf_shift (hlow : 1022 + point < binary64.exponent a + limit)
    (hhigh : binary64.exponent a < 1022 + point) (hl : l ≠ 0) :
    fixdf point limit large shift neg l a =
      if neg then -shift l (1022 + point - binary64.exponent a)
      else shift l (1022 + point - binary64.exponent a) := by
  have hamount : (-((binary64.exponent a : ℤ) - (1022 + point))).toNat =
      1022 + point - binary64.exponent a := by omega
  simp only [fixdf, exp_eq, hamount]
  rw [if_neg (by omega), if_pos ⟨by omega, by omega, hl⟩]

end Exponents

/-! ## The bits of the fraction -/

section Bits

variable (a : BitVec 64)

theorem toNat_mantdLl : (mantdLl a).toNat = 2 ^ 52 + binary64.fraction a := by
  rw [fraction_eq]
  exact Lib.toNat_or_hidden (by decide) (by decide)

end Bits

/-! ## The loops of `__floatsidf` -/

namespace Floatsidf

variable {m c k fuel t : ℕ} {s : Vars}

/-- The variables stand for `m`. -/
structure Scaled (m : ℕ) (s : Vars) : Prop where
  fits : s.a1.toNat < 2 ^ 31
  shifted : ∃ i, s.a1.toNat = m * 2 ^ i ∧ s.exp.toNat + i = 1053

theorem toNat_shift (hfits : s.a1.toNat * 2 ^ c < 2 ^ 31) :
    (shift c s).a1.toNat = s.a1.toNat * 2 ^ c := by
  show (s.a1 <<< c).toNat = _
  rw [BitVec.toNat_shiftLeft, Nat.shiftLeft_eq, Nat.mod_eq_of_lt (by omega)]

theorem Scaled.shift (h : Scaled m s) (hm : 0 < m) (hfits : s.a1.toNat * 2 ^ c < 2 ^ 31) :
    Scaled m (shift c s) := by
  obtain ⟨i, ha, hexp⟩ := h.shifted
  have hpow : 2 ^ (i + c) < 2 ^ 31 := by
    refine Nat.lt_of_le_of_lt (Nat.le_mul_of_pos_left _ hm) ?_
    rw [Nat.pow_add, ← Nat.mul_assoc, ← ha]
    exact hfits
  have hlt : i + c < 31 := (Nat.pow_lt_pow_iff_right (by decide)).mp hpow
  refine ⟨toNat_shift hfits ▸ hfits, i + c, ?_, ?_⟩
  · rw [toNat_shift hfits, ha, Nat.pow_add, Nat.mul_assoc]
  · show (s.exp - BitVec.ofNat 32 c).toNat + _ = _
    rw [BitVec.toNat_sub, BitVec.toNat_ofNat]
    omega

/-- A loop shifts by `c` bits until the value has `t` bits. -/
theorem Scaled.loop (bound : Word) (hbound : bound.toNat = 2 ^ t) (hc : 0 < c) (ht : t + c ≤ 31)
    (h : Scaled m s) (hm : 0 < m) (hk : 2 ^ t ≤ s.a1.toNat * 2 ^ (c * k)) (hfuel : k < fuel) :
    ∃ s', Lib.whileLoop (fun s => s.a1.slt bound) (Floatsidf.shift c) fuel s = some s' ∧
      Scaled m s' ∧ 2 ^ t ≤ s'.a1.toNat := by
  have hless : 2 ^ t < 2 ^ 31 := Nat.pow_lt_pow_right (by decide) (by omega)
  have hround : ∀ k s, (Scaled m s ∧ 2 ^ t ≤ s.a1.toNat * 2 ^ (c * k)) → s.a1.slt bound = true →
      ∃ j < k, Scaled m (Floatsidf.shift c s) ∧
        2 ^ t ≤ (Floatsidf.shift c s).a1.toNat * 2 ^ (c * j) := by
    rintro k s ⟨hs, hleft⟩ htest
    have hsmall := (Lib.slt_of_nonneg (by have := hs.fits; omega) (by omega)).mp htest
    rw [hbound] at hsmall
    have hfits : s.a1.toNat * 2 ^ c < 2 ^ 31 :=
      Nat.lt_of_lt_of_le (Nat.mul_lt_mul_of_pos_right hsmall (Nat.two_pow_pos c))
        (by rw [← Nat.pow_add]; exact Nat.pow_le_pow_right (by decide) ht)
    cases k with
    | zero =>
      rw [Nat.mul_zero, Nat.pow_zero, Nat.mul_one] at hleft
      exact absurd hsmall (Nat.not_lt_of_le hleft)
    | succ j =>
      refine ⟨j, Nat.lt_succ_self j, hs.shift hm hfits, ?_⟩
      rw [toNat_shift hfits, Nat.mul_assoc, ← Nat.pow_add, Nat.add_comm, ← Nat.mul_succ]
      exact hleft
  obtain ⟨s', hloop, ⟨_, hs', -⟩, hexit⟩ := Lib.whileLoop_total hround ⟨h, hk⟩ hfuel
  refine ⟨s', hloop, hs', Nat.le_of_not_lt fun hlt => ?_⟩
  rw [← hbound] at hlt
  rw [(Lib.slt_of_nonneg (by have := hs'.fits; omega) (by omega)).mpr hlt] at hexit
  cases hexit

theorem toNat_pack (sign : Word) (hsign : 2 ^ 31 ∣ sign.toNat) (hexp : s.exp.toNat < 2 ^ 11)
    (hlow : 2 ^ 30 ≤ s.a1.toNat) (hhigh : s.a1.toNat < 2 ^ 31) : (pack sign s).toNat =
      sign.toNat * 2 ^ 32 + s.exp.toNat * 2 ^ 52 + (s.a1.toNat - 2 ^ 30) * 2 ^ 22 := by
  have hraised : (s.exp <<< 20).toNat = s.exp.toNat * 2 ^ 20 := by
    rw [BitVec.toNat_shiftLeft, Nat.shiftLeft_eq]
    omega
  have hsigned : (sign ||| s.exp <<< 20).toNat = sign.toNat + s.exp.toNat * 2 ^ 20 := by
    rw [Lib.toNat_or_of_dvd hsign, hraised]
    rw [hraised]
    omega
  have hshift : (s.a1.sshiftRight 10).toNat = s.a1.toNat / 2 ^ 10 :=
    Lib.toNat_sshiftRight (by omega)
  have hclear : (s.a1.sshiftRight 10 &&& ~~~hiddend).toNat = s.a1.toNat / 2 ^ 10 % 2 ^ 20 := by
    rw [Lib.toNat_clear (k := 20) (by decide), hshift]
    rw [hshift]
    omega
  have hlower : (s.a1 <<< 22).toNat = s.a1.toNat % 2 ^ 10 * 2 ^ 22 := by
    rw [BitVec.toNat_shiftLeft, Nat.shiftLeft_eq]
    omega
  rw [pack, halves, Lib.toNat_append, Lib.toNat_or_of_dvd (i := 20), hsigned, hclear, hlower]
  · omega
  · rw [hsigned]
    omega
  · rw [hclear]
    omega

/-- The variables that stand for `m`, packed. -/
theorem Scaled.value (h : Scaled m s) (hm : 0 < m) (hlow : 2 ^ 30 ≤ s.a1.toNat) {neg : Bool}
    {sign : Word} (hsign : sign = if neg then signbit else 0) :
    binary64.value (pack sign s) = (if neg then -1 else 1) * m := by
  obtain ⟨i, ha, hexp⟩ := h.shifted
  have hfits := h.fits
  have hi : i < 31 := by
    refine (Nat.pow_lt_pow_iff_right (show 1 < 2 by decide)).mp ?_
    exact Nat.lt_of_le_of_lt (Nat.le_mul_of_pos_left _ hm) (ha ▸ hfits)
  have htop : sign.toNat = if neg then 2 ^ 31 else 0 := by
    rw [hsign]
    cases neg <;> rfl
  have hnat := toNat_pack (s := s) sign (by rw [htop]; split <;> decide) (by omega) hlow
    hfits
  have hmsb : (pack sign s).msb = neg := by
    rw [BitVec.msb_eq_decide, hnat, htop]
    cases neg
    · exact decide_eq_false (by show ¬_ ≤ 0 * 2 ^ 32 + _ + _; omega)
    · exact decide_eq_true (by show _ ≤ 2 ^ 31 * 2 ^ 32 + _ + _; omega)
  have hmagnitude : Lib.magnitude (pack sign s) =
      (s.exp.toNat - 1 + 1) * 2 ^ 52 + (s.a1.toNat - 2 ^ 30) * 2 ^ 22 := by
    rw [Lib.magnitude, hnat, htop]
    cases neg
    · show (0 * 2 ^ 32 + _ + _) % 2 ^ 63 = _
      omega
    · show (2 ^ 31 * 2 ^ 32 + _ + _) % 2 ^ 63 = _
      omega
  rw [← hmsb]
  refine Lib.Format.value_of_scaled ?_
  have hscaled := Lib.scaled_exponent (f := 52) (e := s.exp.toNat - 1)
    (r := (s.a1.toNat - 2 ^ 30) * 2 ^ 22) (by omega)
  have hsum : 2 ^ 52 + (s.a1.toNat - 2 ^ 30) * 2 ^ 22 = s.a1.toNat * 2 ^ 22 := by omega
  have hunit : 2 ^ i * 2 ^ 22 * 2 ^ (s.exp.toNat - 1) = binary64.unit := by
    have hexponent : i + 22 + (s.exp.toNat - 1) = binary64.bias + binary64.fracBits - 1 := by
      show _ = 1023 + 52 - 1
      omega
    rw [← Nat.pow_add, ← Nat.pow_add, hexponent, Lib.Format.unit]
  rw [hmagnitude, ← hunit, ← Nat.mul_assoc, ← Nat.mul_assoc, ← ha, ← hsum]
  exact hscaled

/-- The two loops. -/
theorem normalised (hfuel : 6 < fuel) {a : Word} (h0 : 0 < a.toNat) (hlt : a.toNat < 2 ^ 31) :
    ∃ s t, Lib.whileLoop (fun s => s.a1.slt 0x1000000) (shift 4) fuel ⟨a, 31 + excessd⟩ = some s ∧
      Lib.whileLoop (fun s => s.a1.slt 0x40000000) (shift 1) fuel s = some t ∧
      Scaled a.toNat t ∧ 2 ^ 30 ≤ t.a1.toNat := by
  have hexp : (31 + excessd : Word).toNat + 0 = 1053 := by decide
  have hinit : Scaled a.toNat ⟨a, 31 + excessd⟩ := ⟨hlt, 0, (Nat.mul_one _).symm, hexp⟩
  obtain ⟨s, hfirst, hs, hlow⟩ := hinit.loop (t := 24) (c := 4) (k := 6) 0x1000000 (by decide)
    (by decide) (by decide) h0 (by show _ ≤ a.toNat * 2 ^ 24; omega) hfuel
  obtain ⟨t, hsecond, ht, htop⟩ := hs.loop (t := 30) (c := 1) (k := 6) 0x40000000 (by decide)
    (by decide) (by decide) h0 (by show _ ≤ s.a1.toNat * 2 ^ 6; omega) hfuel
  exact ⟨s, t, hfirst, hsecond, ht, htop⟩

end Floatsidf

theorem value_zero : binary64.value (0 : BitVec 64) = 0 := by
  have hscaled : Lib.scaled binary64.fracBits (Lib.magnitude (0 : BitVec 64)) =
      0 * binary64.unit := by
    rw [Nat.zero_mul]
    exact Lib.scaled_of_lt (Nat.two_pow_pos _)
  rw [Lib.Format.value_of_scaled hscaled, Nat.cast_zero, mul_zero]

/-- The least integer has no opposite: its number is put together from constants. -/
theorem value_least :
    binary64.value (halves (signbit ||| ((32 + excessd) <<< 20)) 0) = (-2 ^ 31 : ℤ) := by
  have hbits : halves (signbit ||| ((32 + excessd) <<< 20)) 0 = 0xC1E0000000000000 := by decide
  have hmagnitude : Lib.magnitude (0xC1E0000000000000 : BitVec 64) =
      (binary64.bias + 31) * 2 ^ binary64.fracBits := by decide
  have hscaled : Lib.scaled binary64.fracBits (Lib.magnitude (0xC1E0000000000000 : BitVec 64)) =
      2 ^ 31 * binary64.unit := by
    rw [hmagnitude, Lib.Format.scaled_two_pow]
  have hmsb : (0xC1E0000000000000 : BitVec 64).msb = true := by decide
  rw [hbits, Lib.Format.value_of_scaled hscaled, if_pos hmsb]
  norm_num

/-- A number whose opposite is in range goes through the loops. -/
theorem floatsidf_normalised {fuel : ℕ} (hfuel : 6 < fuel) {n a : Word} (h0 : n ≠ 0)
    (ha : (if n.slt 0 then -n else n) = a) (hpos : 0 < a.toNat) (hfits : a.toNat < 2 ^ 31) :
    ∃ d, floatsidf fuel n = some d ∧ binary64.value d = (if n.slt 0 then -1 else 1) * a.toNat := by
  obtain ⟨s, t, hfirst, hsecond, hscaled, htop⟩ := Floatsidf.normalised hfuel hpos hfits
  have hsigned : ¬(n.slt 0 = true ∧ a.slt 0 = true) := fun h => by
    have hmsb : a.msb = true := BitVec.slt_zero_eq_msb.symm.trans h.2
    have hge := BitVec.msb_eq_true_iff_two_mul_ge.mp hmsb
    omega
  refine ⟨Floatsidf.pack (if n.slt 0 then signbit else 0) t, ?_, hscaled.value hpos htop rfl⟩
  simp only [floatsidf, if_neg h0, ha, if_neg hsigned]
  rw [hfirst, Option.bind_eq_bind, Option.bind_some, hsecond]
  rfl

/-- Every integer of 32 bits is a double. -/
theorem floatsidf_value {fuel : ℕ} (hfuel : 6 < fuel) (n : Word) :
    ∃ d, floatsidf fuel n = some d ∧ binary64.value d = n.toInt := by
  by_cases h0 : n = 0
  · subst h0
    exact ⟨0, rfl, by rw [value_zero]; rfl⟩
  by_cases hleast : n = 0x80000000
  · subst hleast
    exact ⟨_, rfl, value_least⟩
  have hlt := n.isLt
  have hpos : 0 < n.toNat := Nat.pos_of_ne_zero fun h => h0 (BitVec.eq_of_toNat_eq h)
  have hne : n.toNat ≠ 2 ^ 31 := fun h => hleast (BitVec.eq_of_toNat_eq h)
  have hslt : n.slt 0 = decide (2 ^ 31 ≤ n.toNat) :=
    BitVec.slt_zero_eq_msb.trans (BitVec.msb_eq_decide n)
  rcases Nat.lt_or_ge n.toNat (2 ^ 31) with hsmall | hlarge
  · have hclear : n.slt 0 = false := hslt.trans (decide_eq_false (Nat.not_le_of_lt hsmall))
    obtain ⟨d, hd, hvalue⟩ :=
      floatsidf_normalised hfuel h0 (a := n) (by rw [hclear]; rfl) hpos hsmall
    refine ⟨d, hd, hvalue.trans ?_⟩
    rw [hclear, if_neg Bool.false_ne_true, one_mul, BitVec.toInt_eq_toNat_of_lt (by omega),
      Int.cast_natCast]
  · have hset : n.slt 0 = true := hslt.trans (decide_eq_true hlarge)
    have hneg : (-n).toNat = 2 ^ 32 - n.toNat := by
      rw [BitVec.toNat_neg, Nat.mod_eq_of_lt (by omega)]
    obtain ⟨d, hd, hvalue⟩ := floatsidf_normalised hfuel h0 (a := -n) (by rw [hset]; rfl)
      (by omega) (by omega)
    have hint : n.toInt = -((-n).toNat : ℤ) := by
      rw [BitVec.toInt_eq_toNat_cond, if_neg (by omega), hneg]
      omega
    refine ⟨d, hd, hvalue.trans ?_⟩
    rw [hset, if_pos rfl, hint, neg_one_mul, Int.cast_neg, Int.cast_natCast]

end HfRisc.Soft
