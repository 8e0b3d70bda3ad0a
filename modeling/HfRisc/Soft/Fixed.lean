import HfRisc.Arch
import HfRisc.Lib.Mask
import Mathlib.Tactic.Positivity
import Mathlib.Tactic.Ring

/-!
# Fixed-point multiplication and division (`fixed.h`)

A fixed-point number is an integer of 32 bits, with `FIX_FBITS` of them behind the point. The build
for 64 bits has products and dividends of that width. The one for 32 bits puts a product together
from four partial products, and multiplies by a truncated reciprocal for a quotient. Its functions
drop the signs first, and see -2 ^ 31, which has no opposite, as 2 ^ 31.
-/

namespace HfRisc.Soft

/-! ## The functions -/

namespace Fixed

variable (ibits : ℕ)

/-- `FIX_FBITS`. -/
def fbits : ℕ := 32 - ibits

/-- `FIX_ONE`. -/
def one : Word := (1 : Word) <<< fbits ibits

/-- `FIX_FMASK`. -/
def fmask : Word := (1 : Word) <<< fbits ibits - 1

/-- `if (x < 0) x = -x`. -/
def dropSign (x : Word) : Word := if x.slt 0 then -x else x

/-- What is multiplied by: `0x80000000 / y`, brought to the place of the point. -/
def reciprocal (y : Word) : Word :=
  if ibits ≤ 16 then (0x80000000 / y) <<< (33 - ibits * 2)
  else (0x80000000 / y) >>> (ibits * 2 - 33)

end Fixed

open Fixed

/-- `fix_mul` of the build for 32 bits. -/
def fixMul (ibits : ℕ) (x y : Word) : Word :=
  let neg := x.slt 0
  let x := dropSign x
  let neg := if y.slt 0 then !neg else neg
  let y := dropSign y
  let a := x.sshiftRight (fbits ibits)
  let b := x &&& fmask ibits
  let c := y.sshiftRight (fbits ibits)
  let d := y &&& fmask ibits
  let res := (d * b) >>> fbits ibits + d * a + c * b + (c * a) <<< fbits ibits
  if neg then -res else res

/-- `fix_div` of the build for 32 bits. There is no quotient by 0. -/
def fixDiv (ibits : ℕ) (x y : Word) : Option Word :=
  let neg := x.slt 0
  let x := dropSign x
  let neg := if y.slt 0 then !neg else neg
  let y := dropSign y
  if y = 0 then none
  else
    let res := fixMul ibits x (reciprocal ibits y)
    some (if neg then -res else res)

/-- `fix_mul` of the build for 64 bits. -/
def fixMulWide (ibits : ℕ) (x y : Word) : Word :=
  ((x.signExtend 64 * y.signExtend 64).sshiftRight (fbits ibits)).setWidth 32

/-- `fix_div` of the build for 64 bits. -/
def fixDivWide (ibits : ℕ) (x y : Word) : Option Word :=
  if y.signExtend 64 = 0 then none
  else some (((x.signExtend 64 <<< fbits ibits).sdiv (y.signExtend 64)).setWidth 32)

/-! ## The four partial products -/

namespace Fixed

variable {ibits : ℕ} {x y : Word}

theorem fbits_le (h : 16 ≤ ibits) : fbits ibits ≤ 16 := by
  rw [fbits]
  omega

theorem toNat_fmask (h : 16 ≤ ibits) : (fmask ibits).toNat = 2 ^ fbits ibits - 1 := by
  have hle := fbits_le h
  have hpow : 2 ^ fbits ibits ≤ 2 ^ 16 := Nat.pow_le_pow_right (by decide) hle
  have hpos := Nat.two_pow_pos (fbits ibits)
  have hone : (1 : Word).toNat = 1 := rfl
  rw [fmask, BitVec.toNat_sub, BitVec.toNat_shiftLeft, Nat.shiftLeft_eq, hone, Nat.one_mul]
  omega

/-- What is behind the point. -/
theorem toNat_frac (h : 16 ≤ ibits) (x : Word) :
    ((x &&& fmask ibits).toNat : ℤ) = x.toInt % 2 ^ fbits ibits := by
  have hle := fbits_le h
  have hword : (2 ^ 32 : ℤ) = 2 ^ fbits ibits * 2 ^ (32 - fbits ibits) := by
    rw [← pow_add, show fbits ibits + (32 - fbits ibits) = 32 by omega]
  have hcast : ((x.toNat % 2 ^ fbits ibits : ℕ) : ℤ) = (x.toNat : ℤ) % 2 ^ fbits ibits := by
    push_cast
    rfl
  rw [Lib.toNat_and_mask (toNat_fmask h), hcast, BitVec.toInt_eq_toNat_cond]
  split
  · rfl
  · rw [Nat.cast_pow, Nat.cast_ofNat, hword, Int.sub_mul_emod_self_left]

theorem frac_eq_ofInt (h : 16 ≤ ibits) (x : Word) :
    x &&& fmask ibits = BitVec.ofInt 32 (x.toInt % 2 ^ fbits ibits) := by
  rw [← toNat_frac h, BitVec.ofInt_natCast, BitVec.ofNat_toNat, BitVec.setWidth_eq]

/-- The lowest product fits in a word. -/
theorem lowest_eq_ofInt (h : 16 ≤ ibits) (x y : Word) :
    ((y &&& fmask ibits) * (x &&& fmask ibits)) >>> fbits ibits = BitVec.ofInt 32
      (y.toInt % 2 ^ fbits ibits * (x.toInt % 2 ^ fbits ibits) / 2 ^ fbits ibits) := by
  have hle : 2 ^ fbits ibits ≤ 2 ^ 16 := Nat.pow_le_pow_right (by decide) (fbits_le h)
  have hlt : ∀ z : Word, (z &&& fmask ibits).toNat < 2 ^ fbits ibits := fun z => by
    rw [Lib.toNat_and_mask (toNat_fmask h)]
    exact Nat.mod_lt _ (Nat.two_pow_pos _)
  have hfits : (y &&& fmask ibits).toNat * (x &&& fmask ibits).toNat < 2 ^ 32 :=
    (Nat.mul_lt_mul'' ((hlt y).trans_le hle) ((hlt x).trans_le hle)).trans_eq rfl
  apply BitVec.eq_of_toNat_eq
  rw [← toNat_frac h, ← toNat_frac h, BitVec.toNat_ushiftRight, BitVec.toNat_mul,
    Nat.mod_eq_of_lt hfits, Nat.shiftRight_eq_div_pow]
  have hcast : ((y &&& fmask ibits).toNat * (x &&& fmask ibits).toNat / 2 ^ fbits ibits : ℤ) =
      ((y &&& fmask ibits).toNat * (x &&& fmask ibits).toNat / 2 ^ fbits ibits : ℕ) := by
    push_cast
    rfl
  rw [hcast, BitVec.ofInt_natCast, BitVec.toNat_ofNat,
    Nat.mod_eq_of_lt ((Nat.div_le_self _ _).trans_lt hfits)]

/-- The sum is the product of the integers, rounded down behind the point. -/
theorem sum_eq_ofInt (h : 16 ≤ ibits) (x y : Word) :
    let a := x.sshiftRight (fbits ibits)
    let b := x &&& fmask ibits
    let c := y.sshiftRight (fbits ibits)
    let d := y &&& fmask ibits
    (d * b) >>> fbits ibits + d * a + c * b + (c * a) <<< fbits ibits =
      BitVec.ofInt 32 (x.toInt * y.toInt / 2 ^ fbits ibits) := by
  have hshift : ∀ z : ℤ, BitVec.ofInt 32 z <<< fbits ibits =
      BitVec.ofInt 32 (z * 2 ^ fbits ibits) := fun z => by
    have hpow : (2 ^ fbits ibits : ℤ) = (2 ^ fbits ibits : ℕ) := by push_cast; rfl
    rw [BitVec.shiftLeft_eq_mul_twoPow, BitVec.ofInt_mul, hpow, BitVec.ofInt_natCast]
    congr 1
    apply BitVec.eq_of_toNat_eq
    rw [BitVec.toNat_twoPow, BitVec.toNat_ofNat]
  have hpos : (0 : ℤ) < 2 ^ fbits ibits := by positivity
  have hx := Int.ediv_mul_add_emod x.toInt (2 ^ fbits ibits)
  have hy := Int.ediv_mul_add_emod y.toInt (2 ^ fbits ibits)
  simp only [lowest_eq_ofInt h]
  simp only [frac_eq_ofInt h, Lib.sshiftRight_eq_ofInt, ← BitVec.ofInt_mul, hshift,
    ← BitVec.ofInt_add]
  congr 1
  generalize x.toInt / 2 ^ fbits ibits = a at *
  generalize x.toInt % 2 ^ fbits ibits = b at *
  generalize y.toInt / 2 ^ fbits ibits = c at *
  generalize y.toInt % 2 ^ fbits ibits = d at *
  have hproduct : x.toInt * y.toInt =
      d * b + (d * a + c * b + c * a * 2 ^ fbits ibits) * 2 ^ fbits ibits := by
    rw [← hx, ← hy]
    ring
  rw [hproduct, Int.add_mul_ediv_right _ _ hpos.ne']
  ring

/-! ## Signs -/

/-- The sign that is dropped and put back: -2 ^ 31 keeps its own. -/
def signed (x : Word) : Bool := x.slt 0 && x != 0x80000000

/-- `neg` is flipped by the sign of the second operand. -/
theorem flip_eq_xor (b c : Bool) : (if c then !b else b) = (b ^^ c) := by
  cases b <;> cases c <;> rfl

theorem toNat_dropSign (x : Word) : (dropSign x).toNat = x.toInt.natAbs := Lib.toNat_without_sign x

theorem natAbs_toInt_le (x : Word) : x.toInt.natAbs ≤ 2 ^ 31 := by
  have hlow : -2 ^ 31 ≤ x.toInt := BitVec.le_toInt x
  have hhigh : x.toInt < 2 ^ 31 := BitVec.toInt_lt
  omega

/-- -2 ^ 31 goes into the products as it is. -/
theorem toInt_dropSign (x : Word) : (dropSign x).toInt =
    if x = 0x80000000 then -(x.toInt.natAbs : ℤ) else x.toInt.natAbs := by
  by_cases hx : x = 0x80000000
  · subst hx
    rfl
  · have hne : x.toInt ≠ -2 ^ 31 := fun h => hx (BitVec.eq_of_toInt_eq h)
    have hlow : -2 ^ 31 ≤ x.toInt := BitVec.le_toInt x
    have hhigh : x.toInt < 2 ^ 31 := BitVec.toInt_lt
    have hlt : 2 * (dropSign x).toNat < 2 ^ 32 := by
      rw [toNat_dropSign]
      omega
    rw [if_neg hx, BitVec.toInt_eq_toNat_of_lt hlt, toNat_dropSign]

/-- There the product is the opposite one, without a remainder. -/
theorem ofInt_dropSign {f : ℕ} (hf : f ≤ 16) (x : Word) (z : ℤ) :
    BitVec.ofInt 32 ((dropSign x).toInt * z / 2 ^ f) =
      let res := BitVec.ofInt 32 (x.toInt.natAbs * z / 2 ^ f)
      if x = 0x80000000 then -res else res := by
  rw [toInt_dropSign]
  by_cases hx : x = 0x80000000
  · have hdvd : (2 ^ f : ℤ) ∣ x.toInt.natAbs * z := by
      have hword : (x.toInt.natAbs : ℤ) = 2 ^ 31 := by
        rw [hx]
        rfl
      rw [hword]
      exact Dvd.dvd.mul_right (pow_dvd_pow 2 (by omega)) z
    rw [if_pos hx, neg_mul, Int.neg_ediv_of_dvd hdvd, BitVec.ofInt_neg]
    exact (if_pos hx).symm
  · rw [if_neg hx]
    exact (if_neg hx).symm

end Fixed

/-- The product of the magnitudes, rounded down, with the sign of the product. -/
theorem fixMul_eq {ibits : ℕ} (h : 16 ≤ ibits) (x y : Word) : fixMul ibits x y =
    let res := BitVec.ofNat 32 (x.toInt.natAbs * y.toInt.natAbs / 2 ^ fbits ibits)
    if signed x ^^ signed y then -res else res := by
  have hle := fbits_le h
  have hmul : fixMul ibits x y =
      let res := BitVec.ofInt 32 ((dropSign x).toInt * (dropSign y).toInt / 2 ^ fbits ibits)
      if x.slt 0 ^^ y.slt 0 then -res else res := by
    rw [fixMul, ← sum_eq_ofInt h, flip_eq_xor]
  have hcast : (x.toInt.natAbs * y.toInt.natAbs / 2 ^ fbits ibits : ℤ) =
      (x.toInt.natAbs * y.toInt.natAbs / 2 ^ fbits ibits : ℕ) := by
    push_cast
    rfl
  rw [hmul, ofInt_dropSign hle, mul_comm, ofInt_dropSign hle, mul_comm, hcast, BitVec.ofInt_natCast]
  generalize BitVec.ofNat 32 (x.toInt.natAbs * y.toInt.natAbs / 2 ^ fbits ibits) = res
  -- the opposite product and the sign that is not dropped cancel each other
  have hflip : ∀ (z r : Word) (b : Bool),
      (if z.slt 0 ^^ b then -(if z = 0x80000000 then -r else r)
        else if z = 0x80000000 then -r else r) = if signed z ^^ b then -r else r := by
    intro z r b
    by_cases hz : z = 0x80000000
    · subst hz
      cases b
      · exact neg_neg r
      · rfl
    · rw [signed, if_neg hz, bne_iff_ne.mpr hz, Bool.and_true]
  refine (hflip x _ (y.slt 0)).trans ?_
  rw [Bool.xor_comm, hflip y res, Bool.xor_comm]

/-! ## The reciprocal -/

namespace Fixed

variable {x y z : Word}

/-- What is at most 2 ^ 31 counts as a number without a sign. -/
theorem unsigned_of_le (h : z.toNat ≤ 2 ^ 31) : signed z = false ∧ z.toInt.natAbs = z.toNat := by
  rcases Nat.eq_or_lt_of_le h with heq | hlt
  · obtain rfl : z = 0x80000000 := BitVec.eq_of_toNat_eq heq
    decide
  · have hint := BitVec.toInt_eq_toNat_of_lt (x := z) (by omega)
    have hzero : (0 : Word).toInt = 0 := rfl
    refine ⟨?_, by rw [hint, Int.natAbs_natCast]⟩
    rw [signed, BitVec.slt, hint, hzero, decide_eq_false (by omega), Bool.false_and]

/-- 2 ^ 31 by 1 is too large for a word when it is doubled. -/
theorem toNat_reciprocal (h : 2 ≤ y.toNat) : (reciprocal 16 y).toNat = 2 * (2 ^ 31 / y.toNat) := by
  have hone : (0x80000000 : Word).toNat = 2 ^ 31 := rfl
  have hle : 2 ^ 31 / y.toNat ≤ 2 ^ 31 / 2 := Nat.div_le_div_left h (by decide)
  rw [reciprocal, if_pos le_rfl, BitVec.toNat_shiftLeft, BitVec.toNat_udiv, hone, Nat.shiftLeft_eq]
  omega

/-- The magnitude of a quotient. -/
def quotient (m n : ℕ) : ℕ := m * (2 * (2 ^ 31 / n)) / 2 ^ 16

/-- The reciprocal is rounded down. -/
theorem quotient_le {m n : ℕ} (hn : 0 < n) : quotient m n ≤ m * 2 ^ 16 / n := by
  have hrecip := Nat.div_mul_le_self (2 ^ 31) n
  rw [Nat.le_div_iff_mul_le hn, quotient]
  have hcut := Nat.div_mul_le_self (m * (2 * (2 ^ 31 / n))) (2 ^ 16)
  generalize 2 ^ 31 / n = r at *
  have hscaled : m * (2 * r) / 2 ^ 16 * n * 2 ^ 16 ≤ m * 2 ^ 16 * 2 ^ 16 := by
    calc m * (2 * r) / 2 ^ 16 * n * 2 ^ 16 = m * (2 * r) / 2 ^ 16 * 2 ^ 16 * n := by ring
      _ ≤ m * (2 * r) * n := Nat.mul_le_mul_right n hcut
      _ = m * 2 * (r * n) := by ring
      _ ≤ m * 2 * 2 ^ 31 := Nat.mul_le_mul_left _ hrecip
      _ = m * 2 ^ 16 * 2 ^ 16 := by ring
  exact Nat.le_of_mul_le_mul_right hscaled (by decide)

end Fixed

theorem fixDiv_eq {x y : Word} (h : 2 ≤ y.toInt.natAbs) : fixDiv 16 x y =
    let res := BitVec.ofNat 32 (quotient x.toInt.natAbs y.toInt.natAbs)
    some (if x.slt 0 ^^ y.slt 0 then -res else res) := by
  have hx := toNat_dropSign x
  have hy := toNat_dropSign y
  have hne : dropSign y ≠ 0 := fun hzero => by
    rw [hzero] at hy
    have hnat : (0 : Word).toNat = 0 := rfl
    omega
  have hrecip := toNat_reciprocal (y := dropSign y) (by omega)
  rw [hy] at hrecip
  have hhalf : 2 ^ 31 / y.toInt.natAbs ≤ 2 ^ 31 / 2 := Nat.div_le_div_left h (by decide)
  obtain ⟨hsign, habs⟩ := unsigned_of_le (z := dropSign x) (by rw [hx]; exact natAbs_toInt_le x)
  obtain ⟨hsign', habs'⟩ := unsigned_of_le (z := reciprocal 16 (dropSign y)) (by omega)
  have hmul : fixMul 16 (dropSign x) (reciprocal 16 (dropSign y)) =
      BitVec.ofNat 32 (quotient x.toInt.natAbs y.toInt.natAbs) := by
    rw [fixMul_eq le_rfl, hsign, hsign', habs, habs', hrecip, hx]
    rfl
  simp only [fixDiv, if_neg hne, flip_eq_xor, hmul]

/-- Where neither operand has a sign. -/
theorem fixDiv_of_nonneg {x y : Word} (hx : x.toNat < 2 ^ 31) (hy : 2 ≤ y.toNat)
    (hlt : y.toNat < 2 ^ 31) :
    fixDiv 16 x y = some (BitVec.ofNat 32 (quotient x.toNat y.toNat)) := by
  have hsign : ∀ z : Word, z.toNat < 2 ^ 31 → z.slt 0 = false := fun z hz => by
    have hzero : (0 : Word).toInt = 0 := rfl
    rw [BitVec.slt, hzero, BitVec.toInt_eq_toNat_of_lt (by omega), decide_eq_false (by omega)]
  have hxabs := (unsigned_of_le hx.le).2
  have hyabs := (unsigned_of_le hlt.le).2
  have hdiv := fixDiv_eq (x := x) (hyabs.symm ▸ hy)
  rw [hxabs, hyabs, hsign x hx, hsign y hlt] at hdiv
  exact hdiv

/-! ## The build for 64 bits -/

section Wide

variable {x y : Word}

/-- What fits in a word keeps its value. -/
theorem toInt_narrow {z : BitVec 64} (hlow : -2 ^ 31 ≤ z.toInt) (hhigh : z.toInt < 2 ^ 31) :
    (z.setWidth 32).toInt = z.toInt := by
  rw [BitVec.toInt_eq_toNat_cond] at hlow hhigh ⊢
  rw [BitVec.toInt_eq_toNat_cond, BitVec.toNat_setWidth]
  split_ifs at * <;> omega

theorem toInt_fixMulWide (hlow : -2 ^ 31 ≤ x.toInt * y.toInt / 2 ^ 16)
    (hhigh : x.toInt * y.toInt / 2 ^ 16 < 2 ^ 31) :
    (fixMulWide 16 x y).toInt = x.toInt * y.toInt / 2 ^ 16 := by
  have hproduct : (x.signExtend 64 * y.signExtend 64).toInt = x.toInt * y.toInt := by
    rw [BitVec.toInt_mul, BitVec.toInt_signExtend_of_le (by decide),
      BitVec.toInt_signExtend_of_le (by decide), Int.bmod_eq_of_le (by omega) (by omega)]
  have hshift : ((x.signExtend 64 * y.signExtend 64).sshiftRight 16).toInt =
      x.toInt * y.toInt / 2 ^ 16 := by
    rw [BitVec.toInt_sshiftRight, hproduct, Int.shiftRight_eq_div_pow]
    rfl
  rw [← hshift] at hlow hhigh ⊢
  exact toInt_narrow hlow hhigh

theorem toInt_fixDivWide (hy : y.toInt ≠ 0) (hlow : -2 ^ 31 ≤ (x.toInt * 2 ^ 16).tdiv y.toInt)
    (hhigh : (x.toInt * 2 ^ 16).tdiv y.toInt < 2 ^ 31) :
    ∃ w, fixDivWide 16 x y = some w ∧ w.toInt = (x.toInt * 2 ^ 16).tdiv y.toInt := by
  have hx := natAbs_toInt_le x
  have hdivisor : (y.signExtend 64).toInt = y.toInt := BitVec.toInt_signExtend_of_le (by decide)
  have hne : y.signExtend 64 ≠ 0 := fun hzero => by
    rw [hzero] at hdivisor
    exact hy hdivisor.symm
  have hdividend : (x.signExtend 64 <<< 16).toInt = x.toInt * 2 ^ 16 := by
    have hsign : (x.signExtend 64).toInt = x.toInt := BitVec.toInt_signExtend_of_le (by decide)
    have hpow : (BitVec.twoPow 64 16).toInt = 2 ^ 16 := by decide
    rw [BitVec.shiftLeft_eq_mul_twoPow, BitVec.toInt_mul, hsign, hpow,
      Int.bmod_eq_of_le (by omega) (by omega)]
  have hquotient : ((x.signExtend 64 <<< 16).sdiv (y.signExtend 64)).toInt =
      (x.toInt * 2 ^ 16).tdiv y.toInt := by
    rw [BitVec.toInt_sdiv, hdividend, hdivisor, Int.bmod_eq_of_le (by omega) (by omega)]
  rw [← hquotient] at hlow hhigh
  exact ⟨_, if_neg hne, (toInt_narrow hlow hhigh).trans hquotient⟩

end Wide

end HfRisc.Soft
