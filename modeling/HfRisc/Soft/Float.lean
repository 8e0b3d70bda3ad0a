import HfRisc.Arch
import HfRisc.Lib.Bits
import HfRisc.Lib.Ieee
import HfRisc.Lib.Mask

/-!
# Floating-point numbers (`libc.c`)

The unions are the bits of a number, and the macros of `libc.h` take them apart. A `double` in a
conversion is its upper and its lower half. Signed values shift their sign in, and the numbers of
bits are those of RV32, where `int` and `long` have 32.
-/

namespace HfRisc.Soft

/-- `float`. -/
def binary32 : Lib.Format := ⟨23, 127, by decide⟩

/-- `double`. -/
def binary64 : Lib.Format := ⟨52, 1023, by decide⟩

/-! ## The macros -/

def signbit : Word := 0x80000000

def excess : Word := 126

def hidden : Word := (1 : Word) <<< 23

/-- `SIGN`. -/
def sign (fp : Word) : Word := fp &&& signbit

/-- `EXP`. -/
def exp (fp : Word) : Word := fp.sshiftRight 23 &&& 0xFF

/-- `MANT`. -/
def mant (fp : Word) : Word := (fp &&& 0x7FFFFF) ||| hidden

/-- `PACK`. -/
def pack (s e m : Word) : Word := s ||| (e <<< 23) ||| m

def excessd : Word := 1022

def hiddend : Word := (1 : Word) <<< 20

/-- `l.upper` of a `union double_long`. -/
def upper (fp : BitVec 64) : Word := fp.extractLsb' 32 32

/-- `l.lower`. -/
def lower (fp : BitVec 64) : Word := fp.extractLsb' 0 32

/-- The union with both halves written. -/
def halves (upper lower : Word) : BitVec 64 := upper ++ lower

/-- `EXPD`. -/
def expd (fp : BitVec 64) : Word := (upper fp).sshiftRight 20 &&& 0x7FF

/-- `SIGND`. -/
def signd (fp : BitVec 64) : Word := upper fp &&& signbit

/-- `MANTD`. -/
def mantd (fp : BitVec 64) : Word :=
  (((upper fp &&& 0xFFFFF) ||| hiddend) <<< 10) ||| (lower fp >>> 22)

def hiddendLl : BitVec 64 := (1 : BitVec 64) <<< 52

/-- `MANTD_LL`. -/
def mantdLl (fp : BitVec 64) : BitVec 64 := (fp &&& (hiddendLl - 1)) ||| hiddendLl

/-! ## Comparisons of `float` -/

/-- The value of a condition. -/
def ofCondition (p : Prop) [Decidable p] : Word := if p then 1 else 0

/-- `__cmpsf2`. -/
def cmpsf2 (a1 a2 : Word) : Word :=
  let i := sign a1 ≠ 0 ∧ sign a2 ≠ 0
  let fl1 := if i then a1 ^^^ signbit else a1
  let fl2 := if i then a2 ^^^ signbit else a2
  if ¬i then
    if fl1.slt fl2 then -1 else if fl2.slt fl1 then 1 else 0
  else
    if fl2.slt fl1 then -1 else if fl1.slt fl2 then 1 else 0

/-- `__ltsf2`. -/
def ltsf2 (a b : Word) : Word := -ofCondition ((cmpsf2 a b).slt 0)

/-- `__lesf2`. -/
def lesf2 (a b : Word) : Word := ofCondition (BitVec.slt 0 (cmpsf2 a b))

/-- `__gtsf2`. -/
def gtsf2 (a b : Word) : Word := ofCondition (BitVec.slt 0 (cmpsf2 a b))

/-- `__gesf2`. -/
def gesf2 (a b : Word) : Word := ofCondition (BitVec.sle 0 (cmpsf2 a b)) - 1

/-- `__eqsf2`. -/
def eqsf2 (a b : Word) : Word := ofCondition (¬a = b)

/-- `__nesf2`. -/
def nesf2 (a b : Word) : Word := ofCondition (a ≠ b)

/-! ## Conversions between `float` and `double` -/

/-- `__extendsfdf2`. -/
def extendsfdf2 (a1 : Word) : BitVec 64 :=
  if a1 = 0 then halves 0 0 else
  let upper := sign a1
  let exp := exp a1 - excess + excessd
  let upper := upper ||| exp <<< 20
  let upper := upper ||| (mant a1 &&& ~~~hidden).sshiftRight 3
  halves upper (mant a1 <<< 29)

/-- `__truncdfsf2`. -/
def truncdfsf2 (a1 : BitVec 64) : Word :=
  if upper a1 = 0 ∧ lower a1 = 0 then 0 else
  let exp := expd a1 - excessd + excess
  let mant := mantd a1 >>> 6
  let mant := (mant + 1).sshiftRight 1
  -- the carry of the rounding
  let overflow := mant &&& 0xFF000000 ≠ 0
  let exp := if overflow then exp + 1 else exp
  let mant := if overflow then mant.sshiftRight 1 else mant
  pack (signd a1) exp (mant &&& ~~~hidden)

/-! ## Comparisons of `double` -/

/-- `__cmpdf2`. -/
def cmpdf2 (a1 a2 : BitVec 64) : Word :=
  let both := signd a1 ≠ 0 ∧ signd a2 ≠ 0
  -- with both signs cleared the larger magnitude counts as the larger number
  let upper1 := if both then upper a1 ^^^ signbit else upper a1
  let upper2 := if both then upper a2 ^^^ signbit else upper a2
  if upper1.slt upper2 then -1
  else if upper2.slt upper1 then 1
  else if lower a1 < lower a2 then -1
  else if lower a2 < lower a1 then 1
  else 0

/-- `(float) a`, for a parameter of type `double`. -/
def throughFloat (a : BitVec 64) : BitVec 64 := extendsfdf2 (truncdfsf2 a)

/-- `__gtdf2`. -/
def gtdf2 (a1 a2 : BitVec 64) : Word :=
  ofCondition (BitVec.slt 0 (cmpdf2 (throughFloat a1) (throughFloat a2)))

/-- `__gedf2`. -/
def gedf2 (a1 a2 : BitVec 64) : Word :=
  ofCondition (BitVec.sle 0 (cmpdf2 (throughFloat a1) (throughFloat a2))) - 1

/-- `__ltdf2`. -/
def ltdf2 (a1 a2 : BitVec 64) : Word :=
  -ofCondition ((cmpdf2 (throughFloat a1) (throughFloat a2)).slt 0)

/-- `__ledf2`. -/
def ledf2 (a1 a2 : BitVec 64) : Word :=
  ofCondition (BitVec.slt 0 (cmpdf2 (throughFloat a1) (throughFloat a2)))

/-! ## Signs and halves -/

section Signs

variable {x y : Word} {a b : BitVec 64}

theorem sign_eq_zero : sign x = 0 ↔ x.msb = false := Lib.and_top (by decide) (by decide)

theorem sign_ne_zero : sign x ≠ 0 ↔ x.msb = true := by
  rw [ne_eq, sign_eq_zero, Bool.not_eq_false]

theorem msb_upper : (upper a).msb = a.msb := by
  rw [BitVec.msb_eq_getLsbD_last, BitVec.msb_eq_getLsbD_last, upper, BitVec.getLsbD_extractLsb']
  rfl

theorem signd_ne_zero : signd a ≠ 0 ↔ a.msb = true := by
  rw [← msb_upper, ← sign_ne_zero]
  rfl

theorem toNat_upper : (upper a).toNat = a.toNat / 2 ^ 32 := by
  have hlt := a.isLt
  rw [upper, Lib.toNat_extract]
  omega

theorem toNat_lower : (lower a).toNat = a.toNat % 2 ^ 32 := by
  rw [lower, Lib.toNat_extract, Nat.pow_zero, Nat.div_one]

/-- The halves of a double as an integer. -/
theorem toInt_halves : a.toInt = (upper a).toInt * 2 ^ 32 + (lower a).toNat := by
  rw [BitVec.toInt_eq_msb_cond, BitVec.toInt_eq_msb_cond, msb_upper, toNat_upper, toNat_lower]
  split <;> omega

/-- A sign that is set is cleared. -/
theorem toInt_xor_signbit (hx : x.msb = true) : (x ^^^ signbit).toInt = x.toInt + 2 ^ 31 := by
  have hmask : (0x7FFFFFFF : Word).toNat = 2 ^ 31 - 1 := rfl
  have hclear : x ^^^ signbit = x &&& 0x7FFFFFFF := by
    have htop : signbit = BitVec.twoPow 32 31 := by decide
    apply BitVec.eq_of_getLsbD_eq
    intro i hi
    rw [BitVec.getLsbD_xor, BitVec.getLsbD_and, Lib.getLsbD_mask hmask, htop,
      BitVec.getLsbD_twoPow]
    rcases Nat.lt_or_eq_of_le (Nat.le_of_lt_succ hi) with hlt | rfl
    · simp [hlt, hlt.ne']
    · rw [BitVec.msb_eq_getLsbD_last] at hx
      simp [hx]
  have hlt := x.isLt
  have hge : 2 * x.toNat ≥ 2 ^ 32 := BitVec.msb_eq_true_iff_two_mul_ge.mp hx
  have hnat : (x ^^^ signbit).toNat = x.toNat % 2 ^ 31 := by rw [hclear, Lib.toNat_and_mask hmask]
  rw [BitVec.toInt_eq_toNat_cond, BitVec.toInt_eq_toNat_cond, hnat, if_pos (by omega),
    if_neg (by omega)]
  omega

/-- Two signs that are set do not matter for the order. -/
theorem slt_xor_signbit (hx : x.msb = true) (hy : y.msb = true) :
    (x ^^^ signbit).slt (y ^^^ signbit) = x.slt y := by
  rw [BitVec.slt, BitVec.slt, toInt_xor_signbit hx, toInt_xor_signbit hy]
  simp

end Signs

/-! ## Three-way comparisons -/

/-- -1, 0 or 1, as the first number is less than, equal to or greater than the second. -/
def threeWay {α : Type*} [LT α] [DecidableRel (α := α) (· < ·)] (x y : α) : Word :=
  if x < y then -1 else if y < x then 1 else 0

section ThreeWay

variable {α : Type*} [LinearOrder α] {x y : α}

theorem threeWay_cases (x y : α) :
    (x < y ∧ threeWay x y = -1) ∨ (x = y ∧ threeWay x y = 0) ∨ (y < x ∧ threeWay x y = 1) := by
  rw [threeWay]
  rcases lt_trichotomy x y with hlt | rfl | hgt
  · exact .inl ⟨hlt, if_pos hlt⟩
  · exact .inr (.inl ⟨rfl, by rw [if_neg (lt_irrefl x), if_neg (lt_irrefl x)]⟩)
  · exact .inr (.inr ⟨hgt, by rw [if_neg hgt.not_gt, if_pos hgt]⟩)

/-- A comparison depends on the order alone. -/
theorem threeWay_congr {β : Type*} [LinearOrder β] {v z : β} (hlt : x < y ↔ v < z)
    (hgt : y < x ↔ z < v) : threeWay x y = threeWay v z := by
  rw [threeWay, threeWay]
  simp only [hlt, hgt]

theorem toInt_threeWay_neg : (threeWay x y).toInt < 0 ↔ x < y := by
  rcases threeWay_cases x y with ⟨h, hc⟩ | ⟨rfl, hc⟩ | ⟨h, hc⟩ <;> rw [hc]
  · exact iff_of_true (by decide) h
  · exact iff_of_false (by decide) (lt_irrefl x)
  · exact iff_of_false (by decide) h.not_gt

theorem toInt_threeWay_pos : 0 < (threeWay x y).toInt ↔ y < x := by
  rcases threeWay_cases x y with ⟨h, hc⟩ | ⟨rfl, hc⟩ | ⟨h, hc⟩ <;> rw [hc]
  · exact iff_of_false (by decide) h.not_gt
  · exact iff_of_false (by decide) (lt_irrefl x)
  · exact iff_of_true (by decide) h

/-- `-(c < 0)`. -/
theorem lt_convention : (-ofCondition ((threeWay x y).slt 0)).toInt < 0 ↔ x < y := by
  refine Iff.trans ?_ toInt_threeWay_neg
  rcases threeWay_cases x y with ⟨-, hc⟩ | ⟨-, hc⟩ | ⟨-, hc⟩ <;> rw [hc] <;> decide

/-- `c > 0`, for "greater". -/
theorem gt_convention : 0 < (ofCondition (BitVec.slt 0 (threeWay x y))).toInt ↔ y < x := by
  refine Iff.trans ?_ toInt_threeWay_pos
  rcases threeWay_cases x y with ⟨-, hc⟩ | ⟨-, hc⟩ | ⟨-, hc⟩ <;> rw [hc] <;> decide

/-- `c > 0`, for "less or equal". -/
theorem le_convention : (ofCondition (BitVec.slt 0 (threeWay x y))).toInt ≤ 0 ↔ x ≤ y := by
  rw [← not_lt, gt_convention, not_lt]

/-- `(c >= 0) - 1`. -/
theorem ge_convention : 0 ≤ (ofCondition (BitVec.sle 0 (threeWay x y)) - 1).toInt ↔ y ≤ x := by
  refine Iff.trans ?_ (toInt_threeWay_neg.not.trans not_lt)
  rcases threeWay_cases x y with ⟨-, hc⟩ | ⟨-, hc⟩ | ⟨-, hc⟩ <;> rw [hc] <;> decide

end ThreeWay

/-- The conventions for the four results: less: negative, less or equal: not positive, greater:
positive, greater or equal: not negative. -/
structure Agree {α : Type*} [LinearOrder α] (lt le gt ge : Word) (x y : α) : Prop where
  lt_iff : lt.toInt < 0 ↔ x < y
  le_iff : le.toInt ≤ 0 ↔ x ≤ y
  gt_iff : 0 < gt.toInt ↔ y < x
  ge_iff : 0 ≤ ge.toInt ↔ y ≤ x

/-- Integers by their halves: the upper ones with their signs, and then the lower ones. -/
theorem threeWay_halves (a b : BitVec 64) :
    (if (upper a).slt (upper b) then -1
      else if (upper b).slt (upper a) then 1
      else if lower a < lower b then -1
      else if lower b < lower a then 1
      else 0) = threeWay a.toInt b.toInt := by
  have hla := (lower a).isLt
  have hlb := (lower b).isLt
  rw [threeWay, toInt_halves, toInt_halves]
  simp only [BitVec.slt, decide_eq_true_eq, BitVec.lt_def]
  split_ifs <;> first | rfl | omega

/-- The bits of two doubles are compared as integers. -/
theorem cmpdf2_eq (a b : BitVec 64) : cmpdf2 a b = threeWay a.toInt b.toInt := by
  rw [← threeWay_halves, cmpdf2]
  by_cases hboth : signd a ≠ 0 ∧ signd b ≠ 0
  · have ha : (upper a).msb = true := msb_upper.trans (signd_ne_zero.mp hboth.1)
    have hb : (upper b).msb = true := msb_upper.trans (signd_ne_zero.mp hboth.2)
    simp only [if_pos hboth, slt_xor_signbit ha hb, slt_xor_signbit hb ha]
  · simp only [if_neg hboth]

/-- The bits of two floats are compared as integers, and in the opposite order with both signs
set. -/
theorem cmpsf2_eq (a b : Word) : cmpsf2 a b =
    if a.msb ∧ b.msb then threeWay b.toInt a.toInt else threeWay a.toInt b.toInt := by
  rw [cmpsf2, threeWay, threeWay]
  simp only [sign_ne_zero]
  by_cases hboth : a.msb = true ∧ b.msb = true
  · have hneg : ¬¬(a.msb = true ∧ b.msb = true) := not_not.mpr hboth
    simp only [if_pos hboth, if_neg hneg, slt_xor_signbit hboth.1 hboth.2,
      slt_xor_signbit hboth.2 hboth.1]
    simp only [BitVec.slt, decide_eq_true_eq]
  · simp only [if_neg hboth, if_pos hboth, BitVec.slt, decide_eq_true_eq]

/-! ## Fields -/

section Fields

variable (x : Word) (a : BitVec 64)

theorem sign_eq : sign x = if x.msb then signbit else 0 := by
  have htop : signbit = BitVec.twoPow 32 31 := by decide
  rw [sign, htop, BitVec.and_twoPow, ← BitVec.msb_eq_getLsbD_last]
  rfl

theorem toNat_exp : (exp x).toNat = x.toNat / 2 ^ 23 % 2 ^ 8 :=
  Lib.toNat_field (by decide) (by decide)

theorem toNat_mant : (mant x).toNat = 2 ^ 23 + x.toNat % 2 ^ 23 :=
  Lib.toNat_or_hidden (k := 23) (by decide) (by decide)

theorem toNat_expd : (expd a).toNat = binary64.exponent a := by
  have hfield : (expd a).toNat = (upper a).toNat / 2 ^ 20 % 2 ^ 11 :=
    Lib.toNat_field (by decide) (by decide)
  rw [hfield, toNat_upper]
  show _ = a.toNat % 2 ^ 63 / 2 ^ 52
  omega

theorem fraction_eq : binary64.fraction a = a.toNat % 2 ^ 52 :=
  Nat.mod_mod_of_dvd a.toNat (Nat.pow_dvd_pow 2 (by decide))

/-- The bits of the significand from bit `32 - k` on. -/
theorem toNat_window {k : ℕ} (hk : k ≤ 11) :
    (((upper a &&& 0xFFFFF) ||| hiddend) <<< k ||| lower a >>> (32 - k)).toNat =
      (2 ^ 52 + binary64.fraction a) / 2 ^ (32 - k) := by
  have hlow : (lower a >>> (32 - k)).toNat = (lower a).toNat / 2 ^ (32 - k) := by
    rw [BitVec.toNat_ushiftRight, Nat.shiftRight_eq_div_pow]
  have hhigh : ((upper a &&& 0xFFFFF) ||| hiddend).toNat = 2 ^ 20 + (upper a).toNat % 2 ^ 20 :=
    Lib.toNat_or_hidden (by decide) (by decide)
  have hpow : 2 ^ k * 2 ^ (32 - k) = 2 ^ 32 := by rw [← Nat.pow_add, Nat.add_sub_cancel' (by omega)]
  have hfits : (2 ^ 20 + (upper a).toNat % 2 ^ 20) * 2 ^ k < 2 ^ 32 :=
    Nat.lt_of_lt_of_le (Nat.mul_lt_mul_of_pos_right (by omega) (Nat.two_pow_pos k))
      (Nat.mul_le_mul_left (2 ^ 21) (Nat.pow_le_pow_right (by decide) hk))
  have hshift : (((upper a &&& 0xFFFFF) ||| hiddend) <<< k).toNat =
      (2 ^ 20 + (upper a).toNat % 2 ^ 20) * 2 ^ k := by
    rw [BitVec.toNat_shiftLeft, hhigh, Nat.shiftLeft_eq, Nat.mod_eq_of_lt hfits]
  have hsplit : 2 ^ 52 + binary64.fraction a =
      (lower a).toNat + (2 ^ 20 + (upper a).toNat % 2 ^ 20) * 2 ^ k * 2 ^ (32 - k) := by
    rw [Nat.mul_assoc, hpow, fraction_eq, toNat_upper, toNat_lower]
    omega
  have hbelow : (lower a).toNat / 2 ^ (32 - k) < 2 ^ k := by
    rw [Nat.div_lt_iff_lt_mul (Nat.two_pow_pos _), hpow]
    exact (lower a).isLt
  rw [Lib.toNat_or_of_dvd (i := k), hshift, hlow, hsplit,
    Nat.add_mul_div_right _ _ (Nat.two_pow_pos _), Nat.add_comm]
  · rw [hshift]
    exact Nat.dvd_mul_left _ _
  · rw [hlow]
    exact hbelow

theorem toNat_mantd : (mantd a).toNat = (2 ^ 52 + binary64.fraction a) / 2 ^ 22 :=
  toNat_window a (k := 10) (by decide)

end Fields

/-- Packed fields that fit. -/
theorem toNat_pack {s e m : Word} (hs : 2 ^ 31 ∣ s.toNat) (he : e.toNat < 2 ^ 8)
    (hm : m.toNat < 2 ^ 23) : (pack s e m).toNat = s.toNat + e.toNat * 2 ^ 23 + m.toNat := by
  have hraised : (e <<< 23).toNat = e.toNat * 2 ^ 23 := by
    rw [BitVec.toNat_shiftLeft, Nat.shiftLeft_eq]
    omega
  have hsigned : (s ||| e <<< 23).toNat = s.toNat + e.toNat * 2 ^ 23 := by
    rw [Lib.toNat_or_of_dvd hs, hraised]
    rw [hraised]
    omega
  rw [pack, Lib.toNat_or_of_dvd (i := 23) _ hm, hsigned]
  rw [hsigned]
  omega

/-! ## From `float` to `double` -/

theorem toNat_sign (x : Word) : (sign x).toNat = x.toNat / 2 ^ 31 * 2 ^ 31 := by
  have hlt := x.isLt
  have hmsb := BitVec.msb_eq_decide x
  rw [sign_eq, hmsb]
  split
  · next h =>
    have hge : 2 ^ 31 ≤ x.toNat := of_decide_eq_true h
    show 2 ^ 31 = _
    omega
  · next h =>
    have hless : x.toNat < 2 ^ 31 := Nat.lt_of_not_le fun hc => h (decide_eq_true hc)
    show 0 = _
    omega

/-- The exponent is rebased, and the fraction gets zeros behind it. -/
theorem toNat_extendsfdf2 {x : Word} (hx : x ≠ 0) : (extendsfdf2 x).toNat =
    x.toNat / 2 ^ 31 * 2 ^ 63 + (x.toNat % 2 ^ 31 + 896 * 2 ^ 23) * 2 ^ 29 := by
  have hlt := x.isLt
  have hexp : (exp x - excess + excessd).toNat = x.toNat / 2 ^ 23 % 2 ^ 8 + 896 := by
    have hless : x.toNat / 2 ^ 23 % 2 ^ 8 < 2 ^ 8 := Nat.mod_lt _ (by decide)
    have h1 : excess.toNat = 126 := rfl
    have h2 : excessd.toNat = 1022 := rfl
    rw [BitVec.toNat_add, BitVec.toNat_sub, toNat_exp, h1, h2]
    omega
  have hraised : ((exp x - excess + excessd) <<< 20).toNat =
      (x.toNat / 2 ^ 23 % 2 ^ 8 + 896) * 2 ^ 20 := by
    rw [BitVec.toNat_shiftLeft, hexp, Nat.shiftLeft_eq]
    omega
  have hsigned : (sign x ||| (exp x - excess + excessd) <<< 20).toNat =
      x.toNat / 2 ^ 31 * 2 ^ 31 + (x.toNat / 2 ^ 23 % 2 ^ 8 + 896) * 2 ^ 20 := by
    rw [Lib.toNat_or_of_dvd (i := 31), toNat_sign, hraised]
    · rw [toNat_sign]
      exact Nat.dvd_mul_left _ _
    · rw [hraised]
      omega
  have hclear : (mant x &&& ~~~hidden).toNat = x.toNat % 2 ^ 23 := by
    rw [Lib.toNat_clear (k := 23) (by decide), toNat_mant]
    · omega
    · rw [toNat_mant]
      omega
  have hfraction : ((mant x &&& ~~~hidden).sshiftRight 3).toNat = x.toNat % 2 ^ 23 / 2 ^ 3 := by
    rw [Lib.toNat_sshiftRight, hclear]
    rw [hclear]
    omega
  have hlow : (mant x <<< 29).toNat = x.toNat % 2 ^ 3 * 2 ^ 29 := by
    rw [BitVec.toNat_shiftLeft, toNat_mant, Nat.shiftLeft_eq]
    omega
  rw [extendsfdf2, if_neg hx, halves]
  rw [Lib.toNat_append, Lib.toNat_or_of_dvd (i := 20), hsigned, hfraction, hlow]
  · omega
  · rw [hsigned]
    omega
  · rw [hfraction]
    omega

theorem toInt_extendsfdf2 (x : Word) : (extendsfdf2 x).toInt =
    if x.toInt = 0 then 0
    else if x.toInt < 0 then (x.toInt + 2 ^ 31 + 896 * 2 ^ 23) * 2 ^ 29 - 2 ^ 63
    else (x.toInt + 896 * 2 ^ 23) * 2 ^ 29 := by
  by_cases hx : x = 0
  · subst hx
    rfl
  · have hne : x.toInt ≠ 0 := fun h => hx (BitVec.eq_of_toInt_eq (h.trans BitVec.toInt_zero.symm))
    have hlt := x.isLt
    have hnat := toNat_extendsfdf2 hx
    rw [if_neg hne, BitVec.toInt_eq_toNat_cond, BitVec.toInt_eq_toNat_cond, hnat]
    split_ifs <;> omega

/-- Floats keep their order as doubles, and those with no `float` in mind too. -/
theorem extendsfdf2_lt {x y : Word} :
    (extendsfdf2 x).toInt < (extendsfdf2 y).toInt ↔ x.toInt < y.toInt := by
  have hx : -2 ^ 31 ≤ x.toInt := BitVec.le_toInt x
  have hy : -2 ^ 31 ≤ y.toInt := BitVec.le_toInt y
  have hx' : x.toInt < 2 ^ 31 := BitVec.toInt_lt
  have hy' : y.toInt < 2 ^ 31 := BitVec.toInt_lt
  rw [toInt_extendsfdf2, toInt_extendsfdf2]
  split_ifs <;> omega

/-! ## From `double` to `float` -/

/-- The magnitude of a double rounded to the fraction of a float, half up, and with the exponent
rebased. It is not a magnitude of a float where the exponent is out of range. -/
def rebased (a : BitVec 64) : ℤ := ((Lib.magnitude a / 2 ^ 28 + 1) / 2 : ℕ) - 896 * 2 ^ 23

/-- The word that is left of a double, as an integer: 32 bits of the rebased magnitude, with the
sign over them where it is set. -/
def narrowed (a : BitVec 64) : ℤ :=
  if a = 0 then 0
  else if a.msb then rebased a % 2 ^ 31 - 2 ^ 31
  else (rebased a).bmod (2 ^ 32)

theorem toInt_or_signbit (y : Word) : (signbit ||| y).toInt = y.toNat % 2 ^ 31 - 2 ^ 31 := by
  have hmask : (0x7FFFFFFF : Word).toNat = 2 ^ 31 - 1 := rfl
  have htop : signbit = BitVec.twoPow 32 31 := by decide
  have hbelow : signbit ||| y = signbit ||| (y &&& 0x7FFFFFFF) := by
    apply BitVec.eq_of_getLsbD_eq
    intro i hi
    rw [BitVec.getLsbD_or, BitVec.getLsbD_or, BitVec.getLsbD_and, Lib.getLsbD_mask hmask, htop,
      BitVec.getLsbD_twoPow]
    rcases Nat.lt_or_eq_of_le (Nat.le_of_lt_succ hi) with hlt | rfl
    · rw [decide_eq_true hlt, Bool.and_true]
    · simp
  have hsum : (signbit ||| y).toNat = 2 ^ 31 + y.toNat % 2 ^ 31 := by
    rw [hbelow, Lib.toNat_or_of_dvd (i := 31) (by decide), Lib.toNat_and_mask hmask]
    · rfl
    · rw [Lib.toNat_and_mask hmask]
      exact Nat.mod_lt _ (by decide)
  rw [BitVec.toInt_eq_toNat_cond, hsum, if_neg (by omega)]
  omega

/-- The significand with one bit more, rounded. -/
theorem toNat_rounded (a : BitVec 64) : ((mantd a >>> 6 + 1).sshiftRight 1).toNat =
    (2 ^ 24 + binary64.fraction a / 2 ^ 28 + 1) / 2 := by
  have hfraction : binary64.fraction a < 2 ^ 52 := Lib.Format.fraction_lt
  have h1 : (1 : Word).toNat = 1 := rfl
  have hsum : (mantd a >>> 6 + 1).toNat = 2 ^ 24 + binary64.fraction a / 2 ^ 28 + 1 := by
    rw [BitVec.toNat_add, BitVec.toNat_ushiftRight, toNat_mantd, Nat.shiftRight_eq_div_pow, h1]
    omega
  rw [Lib.toNat_sshiftRight, hsum, Nat.pow_one]
  rw [hsum]
  omega

theorem toNat_packed (e : Word) {m : Word} (hm : m.toNat < 2 ^ 24) :
    ((e <<< 23) ||| (m &&& ~~~hidden)).toNat = e.toNat % 2 ^ 9 * 2 ^ 23 + m.toNat % 2 ^ 23 := by
  have hraised : (e <<< 23).toNat = e.toNat % 2 ^ 9 * 2 ^ 23 := by
    rw [BitVec.toNat_shiftLeft, Nat.shiftLeft_eq]
    omega
  have hclear : (m &&& ~~~hidden).toNat = m.toNat % 2 ^ 23 :=
    Lib.toNat_clear (k := 23) (by decide) hm
  rw [Lib.toNat_or_of_dvd (i := 23), hraised, hclear]
  · rw [hraised]
    exact Nat.dvd_mul_left _ _
  · rw [hclear]
    exact Nat.mod_lt _ (by decide)

theorem toNat_rebase (a : BitVec 64) :
    ((expd a - excessd + excess).toNat : ℤ) = (binary64.exponent a - 896) % 2 ^ 32 := by
  have h1 : excess.toNat = 126 := rfl
  have h2 : excessd.toNat = 1022 := rfl
  have hlt : binary64.exponent a < 2 ^ 32 := toNat_expd a ▸ (expd a).isLt
  rw [BitVec.toNat_add, BitVec.toNat_sub, toNat_expd, h1, h2]
  omega

theorem rebased_eq (a : BitVec 64) : rebased a = (binary64.exponent a - 896) * 2 ^ 23 +
    ((binary64.fraction a / 2 ^ 28 + 1) / 2 : ℕ) := by
  have hm : Lib.magnitude a = binary64.exponent a * 2 ^ 52 + binary64.fraction a :=
    Lib.Format.magnitude_eq
  rw [rebased, hm]
  omega

theorem halves_eq_zero {a : BitVec 64} : upper a = 0 ∧ lower a = 0 ↔ a = 0 := by
  constructor
  · rintro ⟨hu, hl⟩
    have hupper := toNat_upper (a := a)
    have hlower := toNat_lower (a := a)
    have hzero : (0 : Word).toNat = 0 := rfl
    rw [hu, hzero] at hupper
    rw [hl, hzero] at hlower
    exact BitVec.eq_of_toNat_eq (show a.toNat = 0 by omega)
  · rintro rfl
    exact ⟨rfl, rfl⟩

/-- The word of a double apart from its sign. -/
theorem truncdfsf2_eq {a : BitVec 64} (ha : a ≠ 0) :
    ∃ y : Word, truncdfsf2 a = signd a ||| y ∧ (y.toNat : ℤ) = rebased a % 2 ^ 32 := by
  have hne := halves_eq_zero.not.mpr ha
  have hfraction : binary64.fraction a < 2 ^ 52 := Lib.Format.fraction_lt
  have hrounded := toNat_rounded a
  have hrebase := toNat_rebase a
  have hrebased := rebased_eq a
  have hoverflow : (mantd a >>> 6 + 1).sshiftRight 1 &&& 0xFF000000 = 0 ↔
      ((mantd a >>> 6 + 1).sshiftRight 1).toNat < 2 ^ 24 :=
    Lib.and_not_mask (m := 0x00FFFFFF) (by decide)
  simp only [truncdfsf2, if_neg hne, pack, BitVec.or_assoc, ne_eq]
  generalize (mantd a >>> 6 + 1).sshiftRight 1 = m at *
  generalize expd a - excessd + excess = e at *
  by_cases hlt : m.toNat < 2 ^ 24
  · have hfits := hoverflow.mpr hlt
    refine ⟨(e <<< 23) ||| (m &&& ~~~hidden), ?_, ?_⟩
    · simp only [hfits, not_true_eq_false, if_false]
    · rw [toNat_packed e hlt]
      omega
  · have hover := hoverflow.not.mpr hlt
    have hhalf : (m.sshiftRight 1).toNat = 2 ^ 23 := by
      rw [Lib.toNat_sshiftRight] <;> omega
    have h1 : (1 : Word).toNat = 1 := rfl
    refine ⟨((e + 1) <<< 23) ||| (m.sshiftRight 1 &&& ~~~hidden), ?_, ?_⟩
    · simp only [hover, not_false_eq_true, if_true]
    · rw [toNat_packed _ (by omega), hhalf, BitVec.toNat_add, h1]
      omega

theorem toInt_truncdfsf2 (a : BitVec 64) : (truncdfsf2 a).toInt = narrowed a := by
  rw [narrowed]
  split
  · next h =>
    subst h
    rfl
  · next h =>
    obtain ⟨y, htrunc, hy⟩ := truncdfsf2_eq h
    have hsign : signd a = if a.msb then signbit else 0 := by
      rw [← msb_upper, ← sign_eq]
      rfl
    rw [htrunc, hsign]
    split
    · rw [toInt_or_signbit, hy]
      omega
    · have hor : 0 ||| y = y := BitVec.zero_or
      rw [hor, BitVec.toInt_eq_toNat_bmod, hy]
      exact Int.emod_bmod (rebased a) (2 ^ 32)

end HfRisc.Soft
