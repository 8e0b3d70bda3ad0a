import HfRisc.Lib.While
import HfRisc.Soft.Float

/-!
# Conversions between `float` and integers (`libc.c`)

The two functions to integers shift the significand right from the place it has in the largest
numbers of 31 bits, and never left. The functions from integers bring the leading bit to its place
with one loop for each direction. `__floatdidf` has the loops of `__floatsidf` on 64 bits.
-/

namespace HfRisc.Soft

/-! ## To integers -/

/-- The code of both functions. `ae` and `shift` are `int`s that are far from their bounds. -/
def fixsf (a : Word) : Word :=
  let as := a >>> 31
  let ae : ℤ := (a >>> 23 &&& 0xff).toNat
  let af := (0x00800000 ||| (a &&& 0x007fffff)) <<< 7
  let shift := -(ae - 0x80 - 29)
  let af :=
    if 0 < shift then if shift < 31 then af.sshiftRight shift.toNat else 0
    -- also where the shift would be to the left
    else af
  if as ≠ 0 then -af else af

/-- `__fixsfsi`. -/
def fixsfsi (a_fp : Word) : Word := fixsf a_fp

/-- `__fixunssfsi`. -/
def fixunssfsi (a_fp : Word) : Word := fixsf a_fp

/-! ## From integers of 32 bits -/

namespace Floatsf

/-- The variables of the loops. -/
structure Vars where
  af : Word
  ae : Word

/-- `++ae; af >>= 1`, for the type of `af`. -/
def down (shr : Word → ℕ → Word) (s : Vars) : Vars := ⟨shr s.af 1, s.ae + 1⟩

/-- `--ae; af <<= 1`. -/
def up (s : Vars) : Vars := ⟨s.af <<< 1, s.ae - 1⟩

end Floatsf

/-- What the two functions share, where the loops end within `fuel` tests. -/
def floatsf (shr : Word → ℕ → Word) (fuel : ℕ) (as af : Word) : Option Word :=
  if af = 0 then some af else do
    let s ← Lib.whileLoop (fun s => s.af &&& 0xff000000 ≠ 0) (Floatsf.down shr) fuel
      ⟨af, 0x80 + 22⟩
    let t ← Lib.whileLoop (fun s => s.af &&& 0xff800000 = 0) Floatsf.up fuel s
    return (as <<< 31) ||| (t.ae <<< 23) ||| (t.af &&& 0x007fffff)

/-- `__floatsisf`. -/
def floatsisf (fuel : ℕ) (af : Word) : Option Word :=
  floatsf BitVec.sshiftRight fuel (if BitVec.sle 0 af then 0 else 1)
    (if BitVec.sle 0 af then af else -af)

/-- `__floatunsisf`. -/
def floatunsisf (fuel : ℕ) (af : Word) : Option Word :=
  floatsf (fun x n => x >>> n) fuel (if 0 ≤ af then 0 else 1) (if 0 ≤ af then af else -af)

/-! ## From integers of 64 bits -/

namespace Floatdidf

/-- The variables of the loops. -/
structure Vars where
  a1 : BitVec 64
  exp : Word

/-- `a1 <<= k; exp -= k`. -/
def shift (k : ℕ) (s : Vars) : Vars := ⟨s.a1 <<< k, s.exp - BitVec.ofNat 32 k⟩

end Floatdidf

/-- `__floatdidf`, where its loops end within `fuel` tests. -/
def floatdidf (fuel : ℕ) (a1 : BitVec 64) : Option (BitVec 64) :=
  if a1 = 0 then some (halves 0 0) else do
    let dl := halves (if a1.slt 0 then signbit else 0) 0
    let a := if a1.slt 0 then -a1 else a1
    let s ← Lib.whileLoop (fun s => s.a1.slt ((1 : BitVec 64) <<< 54)) (Floatdidf.shift 8) fuel
      ⟨a, 63 + excessd⟩
    let t ← Lib.whileLoop (fun s => s.a1.slt ((1 : BitVec 64) <<< 62)) (Floatdidf.shift 1) fuel s
    let dl := dl ||| (t.a1.sshiftRight 10 &&& ~~~hiddendLl)
    return halves (upper dl ||| t.exp <<< 20) (lower dl)

/-! ## Fields of a `float` -/

section Fields

variable (a : Word)

theorem exponent_eq : binary32.exponent a = a.toNat / 2 ^ 23 % 2 ^ 8 := by
  show a.toNat % 2 ^ 31 / 2 ^ 23 = _
  omega

theorem fraction_eq32 : binary32.fraction a = a.toNat % 2 ^ 23 :=
  Nat.mod_mod_of_dvd a.toNat (Nat.pow_dvd_pow 2 (by decide))

theorem shiftRight_31_ne_zero : a >>> 31 ≠ 0 ↔ a.msb = true := by
  have hlt := a.isLt
  have hnat : (a >>> 31).toNat = a.toNat / 2 ^ 31 := by
    rw [BitVec.toNat_ushiftRight, Nat.shiftRight_eq_div_pow]
  have hzero : a >>> 31 = 0 ↔ (a >>> 31).toNat = 0 :=
    ⟨fun h => by rw [h]; rfl, fun h => BitVec.eq_of_toNat_eq h⟩
  rw [ne_eq, hzero, hnat, BitVec.msb_eq_true_iff_two_mul_ge]
  omega

end Fields

/-! ## The magnitude of `fixsf` -/

/-- What is left of the significand, and its sign. No shift is to the left. -/
theorem fixsf_eq (a : Word) : ∃ af : Word, fixsf a = (if a.msb then -af else af) ∧
    af.toNat = (2 ^ 23 + binary32.fraction a) * 2 ^ 7 / 2 ^ (157 - binary32.exponent a) := by
  have hae : (a >>> 23 &&& 0xff).toNat = binary32.exponent a := by
    rw [Lib.toNat_and_mask (k := 8) (by decide), BitVec.toNat_ushiftRight,
      Nat.shiftRight_eq_div_pow, exponent_eq]
  have hfraction : binary32.fraction a < 2 ^ 23 := Lib.Format.fraction_lt
  have haf : ((0x00800000 ||| (a &&& 0x007fffff)) <<< 7 : Word).toNat =
      (2 ^ 23 + binary32.fraction a) * 2 ^ 7 := by
    rw [BitVec.toNat_shiftLeft, Nat.shiftLeft_eq, BitVec.or_comm,
      Lib.toNat_or_hidden (k := 23) (by decide) (by decide), ← fraction_eq32]
    omega
  simp only [fixsf, hae, shiftRight_31_ne_zero]
  generalize (0x00800000 ||| (a &&& 0x007fffff)) <<< 7 = af at *
  refine ⟨_, rfl, ?_⟩
  split
  · next hpos =>
    split
    · next hshift =>
      have hamount : (-((binary32.exponent a : ℤ) - 128 - 29)).toNat =
          157 - binary32.exponent a := by omega
      rw [Lib.toNat_sshiftRight (by omega), haf, hamount]
    · next hshift =>
      -- everything is shifted out
      have hpow : 2 ^ 31 ≤ 2 ^ (157 - binary32.exponent a) :=
        Nat.pow_le_pow_right (by decide) (by omega)
      exact (Nat.div_eq_of_lt (by omega)).symm
  · next hpos =>
    rw [haf, show 157 - binary32.exponent a = 0 by omega, Nat.pow_zero, Nat.div_one]

/-- Up to the exponent of the largest numbers of 31 bits this is the whole part. -/
theorem shifted_eq_whole {a : Word} (h : binary32.exponent a ≤ 157) :
    (2 ^ 23 + binary32.fraction a) * 2 ^ 7 / 2 ^ (157 - binary32.exponent a) =
      binary32.whole a := by
  have hfraction : binary32.fraction a < 2 ^ 23 := Lib.Format.fraction_lt
  rcases Nat.eq_zero_or_pos (binary32.exponent a) with h0 | hpos
  · have hwhole : binary32.whole a < 2 ^ 0 := Lib.Format.whole_lt.mpr (by rw [h0]; decide)
    have hpow : 2 ^ 31 ≤ 2 ^ (157 - 0) := Nat.pow_le_pow_right (by decide) (by decide)
    rw [h0, Nat.div_eq_of_lt (by omega)]
    omega
  · exact (Lib.Format.whole_eq_shifted (F := binary32) (j := 7) hpos.ne' h).symm

/-! ## The loops of `floatsf` -/

namespace Floatsf

variable {shr : Word → ℕ → Word} {s : Vars} {fuel k m N : ℕ}

/-- `shr` halves what is less than `N`. -/
def Halves (shr : Word → ℕ → Word) (N : ℕ) : Prop :=
  ∀ x : Word, x.toNat < N → (shr x 1).toNat = x.toNat / 2

theorem halves_signed : Halves BitVec.sshiftRight (2 ^ 31) := fun x hx => by
  rw [Lib.toNat_sshiftRight (by omega), Nat.pow_one]

theorem halves_unsigned : Halves (fun x n => x >>> n) (2 ^ 32) := fun x _ => by
  rw [BitVec.toNat_ushiftRight, Nat.shiftRight_eq_div_pow, Nat.pow_one]

theorem iterate_down_ae : ((down shr)^[k] s).ae = s.ae + BitVec.ofNat 32 k := by
  induction k with
  | zero => exact (BitVec.add_zero _).symm
  | succ k ih =>
    rw [Function.iterate_succ_apply']
    show ((down shr)^[k] s).ae + 1 = _
    rw [ih, BitVec.ofNat_add, BitVec.add_assoc]
    rfl

theorem iterate_up_ae : (up^[k] s).ae = s.ae - BitVec.ofNat 32 k := by
  induction k with
  | zero => exact (BitVec.sub_zero _).symm
  | succ k ih =>
    rw [Function.iterate_succ_apply']
    show (up^[k] s).ae - 1 = _
    rw [ih, BitVec.ofNat_add, ← sub_sub]
    rfl

/-- The first loop ends with at most 24 bits. -/
theorem loop_down (hshr : Halves shr N) (hs : s.af.toNat < N) (hfuel : 32 < fuel) :
    ∃ i, Lib.whileLoop (fun s => s.af &&& 0xff000000 ≠ 0) (down shr) fuel s =
        some ((down shr)^[i] s) ∧
      ((down shr)^[i] s).af.toNat = s.af.toNat / 2 ^ i ∧
      ((down shr)^[i] s).af.toNat < 2 ^ 24 ∧ (i = 0 ∨ 2 ^ 23 ≤ ((down shr)^[i] s).af.toNat) := by
  have htest : ∀ x : Vars, x.af.toNat < N →
      (decide (x.af &&& 0xff000000 ≠ 0) = true ↔ 2 ^ (23 + 1) ≤ x.af.toNat) := fun x _ => by
    have hmask : x.af &&& 0xff000000 = 0 ↔ x.af.toNat < 2 ^ 24 :=
      Lib.and_not_mask (m := 0x00ffffff) (by decide)
    rw [decide_eq_true_eq, ne_eq, hmask, not_lt]
  have hbody : ∀ x : Vars, x.af.toNat < N →
      (down shr x).af.toNat < N ∧ (down shr x).af.toNat = x.af.toNat / 2 := fun x hx => by
    have hhalf : (down shr x).af.toNat = x.af.toNat / 2 := hshr x.af hx
    exact ⟨by omega, hhalf⟩
  obtain ⟨i, hloop, -, hrest⟩ := Lib.whileLoop_halve htest hbody hs s.af.isLt hfuel
  exact ⟨i, hloop, hrest⟩

/-- The second one ends with the bit of `HIDDEN` as the highest. -/
theorem loop_up (hpos : 0 < s.af.toNat) (hs : s.af.toNat < 2 ^ 24) (hfuel : 32 < fuel) :
    ∃ j, Lib.whileLoop (fun s => s.af &&& 0xff800000 = 0) up fuel s = some (up^[j] s) ∧
      (up^[j] s).af.toNat = s.af.toNat * 2 ^ j ∧ 2 ^ 23 ≤ (up^[j] s).af.toNat ∧
      (up^[j] s).af.toNat < 2 ^ 24 := by
  have htest : ∀ x : Vars, x.af.toNat < 2 ^ 24 →
      (decide (x.af &&& 0xff800000 = 0) = true ↔ x.af.toNat < 2 ^ 23) := fun x _ => by
    rw [decide_eq_true_eq]
    exact Lib.and_not_mask (m := 0x007fffff) (by decide)
  have hbody : ∀ x : Vars, x.af.toNat < 2 ^ 24 → x.af.toNat < 2 ^ 23 →
      (up x).af.toNat < 2 ^ 24 ∧ (up x).af.toNat = x.af.toNat * 2 ^ 1 := fun x _ hx => by
    have hdouble : (up x).af.toNat = x.af.toNat * 2 ^ 1 := by
      show (x.af <<< 1).toNat = _
      rw [BitVec.toNat_shiftLeft, Nat.shiftLeft_eq]
      omega
    exact ⟨by omega, hdouble⟩
  obtain ⟨j, hloop, hlt, hvalue, hle, -⟩ :=
    Lib.whileLoop_scale (c := 1) (by decide) htest hbody hs hpos (by omega : 23 < fuel)
  rw [Nat.one_mul] at hvalue
  exact ⟨j, hloop, hvalue, hle, hlt⟩

/-- The leading 24 bits of `m`, and the exponent that goes with them. -/
structure Leading (m af ae : ℕ) : Prop where
  low : 2 ^ 23 ≤ af
  high : af < 2 ^ 24
  scaled : (∃ i, af = m / 2 ^ i ∧ ae = 150 + i) ∨ ∃ j, af = m * 2 ^ j ∧ ae + j = 150

end Floatsf

/-- A number that the shift halves goes through both loops. -/
theorem floatsf_eq {shr : Word → ℕ → Word} {N fuel : ℕ} (hshr : Floatsf.Halves shr N)
    (hfuel : 32 < fuel) (as af : Word) (hpos : 0 < af.toNat) (hN : af.toNat < N) :
    ∃ t : Floatsf.Vars, floatsf shr fuel as af =
        some ((as <<< 31) ||| (t.ae <<< 23) ||| (t.af &&& 0x007fffff)) ∧
      Floatsf.Leading af.toNat t.af.toNat t.ae.toNat := by
  have hlt := af.isLt
  have hbase : (0x80 + 22 : Word).toNat = 150 := rfl
  obtain ⟨i, hdown, hi, hsmall, hfirst⟩ :=
    Floatsf.loop_down (s := ⟨af, 0x80 + 22⟩) hshr hN hfuel
  change _ = af.toNat / 2 ^ i at hi
  -- the leading bit is still there
  have hleft : 0 < ((Floatsf.down shr)^[i] ⟨af, 0x80 + 22⟩).af.toNat := by
    rcases hfirst with rfl | hbit
    · exact hpos
    · omega
  obtain ⟨j, hup, hj, hlow, hhigh⟩ := Floatsf.loop_up hleft hsmall hfuel
  have hae : (Floatsf.up^[j] ((Floatsf.down shr)^[i] ⟨af, 0x80 + 22⟩)).ae =
      0x80 + 22 + BitVec.ofNat 32 i - BitVec.ofNat 32 j := by
    rw [Floatsf.iterate_up_ae, Floatsf.iterate_down_ae]
  have hne : af ≠ 0 := fun h => by
    rw [h] at hpos
    exact absurd hpos (by decide)
  refine ⟨Floatsf.up^[j] ((Floatsf.down shr)^[i] ⟨af, 0x80 + 22⟩), ?_, hlow, hhigh, ?_⟩
  · rw [floatsf, if_neg hne, hdown, Option.bind_eq_bind, Option.bind_some, hup]
    rfl
  · rw [hae, hj, hi, BitVec.toNat_sub, BitVec.toNat_add, BitVec.toNat_ofNat, BitVec.toNat_ofNat,
      hbase]
    rw [hi] at hsmall hfirst hleft
    rw [hj, hi] at hhigh
    rcases hfirst with rfl | hbit
    · have hj' : 2 ^ j < 2 ^ 24 :=
        Nat.lt_of_le_of_lt (Nat.le_mul_of_pos_left _ hleft) hhigh
      have hj24 : j < 24 := (Nat.pow_lt_pow_iff_right (by decide)).mp hj'
      right
      refine ⟨j, by rw [Nat.pow_zero, Nat.div_one], ?_⟩
      omega
    · have hj0 : 2 ^ j < 2 ^ 1 := by
        have hle : 2 ^ 23 * 2 ^ j ≤ af.toNat / 2 ^ i * 2 ^ j := Nat.mul_le_mul_right _ hbit
        omega
      obtain rfl : j = 0 := by
        have := (Nat.pow_lt_pow_iff_right (by decide : 1 < 2)).mp hj0
        omega
      have hi9 : 2 ^ (23 + i) < 2 ^ 32 := by
        rw [Nat.pow_add]
        exact Nat.lt_of_le_of_lt ((Nat.le_div_iff_mul_le (Nat.two_pow_pos i)).mp hbit) hlt
      have hi8 : i < 9 := by
        have := (Nat.pow_lt_pow_iff_right (by decide : 1 < 2)).mp hi9
        omega
      left
      refine ⟨i, by rw [Nat.pow_zero, Nat.mul_one], ?_⟩
      omega

/-- The fields of the result. -/
theorem fields_of_leading {m : ℕ} (hm : m < 2 ^ 32) {t : Floatsf.Vars}
    (ht : Floatsf.Leading m t.af.toNat t.ae.toNat) (neg : Bool) {as r : Word}
    (has : as = if neg then 1 else 0)
    (hr : r = (as <<< 31) ||| (t.ae <<< 23) ||| (t.af &&& 0x007fffff)) :
    r.msb = neg ∧ binary32.exponent r = t.ae.toNat ∧
      2 ^ 23 + binary32.fraction r = t.af.toNat := by
  have hlow := ht.low
  have hhigh := ht.high
  have hexp : t.ae.toNat < 2 ^ 8 := by
    rcases ht.scaled with ⟨i, haf, hae⟩ | ⟨j, -, hae⟩
    · have hi : 2 ^ (23 + i) < 2 ^ 32 := by
        rw [Nat.pow_add]
        exact Nat.lt_of_le_of_lt
          ((Nat.le_div_iff_mul_le (Nat.two_pow_pos i)).mp (haf ▸ hlow)) hm
      have := (Nat.pow_lt_pow_iff_right (by decide : 1 < 2)).mp hi
      omega
    · omega
  have hfraction : (t.af &&& 0x007fffff).toNat = t.af.toNat % 2 ^ 23 :=
    Lib.toNat_and_mask (by decide)
  have hsign : (as <<< 31).toNat = if neg then 2 ^ 31 else 0 := by
    rw [has]
    cases neg <;> rfl
  have hnat := toNat_pack (s := as <<< 31) (e := t.ae) (m := t.af &&& 0x007fffff)
    (by rw [hsign]; split <;> decide) hexp (by rw [hfraction]; exact Nat.mod_lt _ (by decide))
  rw [pack, ← hr, hsign, hfraction] at hnat
  rw [exponent_eq, fraction_eq32, BitVec.msb_eq_decide, hnat]
  cases neg
  · rw [if_neg Bool.false_ne_true]
    exact ⟨decide_eq_false (by omega), by omega, by omega⟩
  · rw [if_pos rfl]
    exact ⟨decide_eq_true (by omega), by omega, by omega⟩

end HfRisc.Soft
