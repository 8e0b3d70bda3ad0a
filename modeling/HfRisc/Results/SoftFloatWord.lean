import HfRisc.Soft.FloatInt
import HfRisc.Soft.FloatWord

/-!
# Conversions of floats

Where the exponent is that of 31 bits or less, the functions to integers round toward zero. They
do not shift to the left, so from 2 ^ 31 on they return half of the number. Two of the functions
from integers do not end for the least integer, whose opposite is itself. From an integer to a
float and back the leading 24 bits are kept, and from a float to a double and back all of them.
-/

namespace HfRisc.Soft

open HfRisc.Lib (Format truncate)

variable {a : Word}

/-! ## To integers -/

/-- The finite number rounded toward zero is between the bounds of a type. -/
def Fits (least greatest : ℤ) (a : Word) : Prop :=
  binary32.IsFinite a ∧ least ≤ truncate (binary32.value a) ∧
    truncate (binary32.value a) ≤ greatest

/-- The shift leaves at most 31 bits. -/
theorem shifted_lt (a : Word) :
    (2 ^ 23 + binary32.fraction a) * 2 ^ 7 / 2 ^ (157 - binary32.exponent a) < 2 ^ 31 := by
  have hfraction : binary32.fraction a < 2 ^ 23 := Format.fraction_lt
  have hle := Nat.div_le_self ((2 ^ 23 + binary32.fraction a) * 2 ^ 7)
    (2 ^ (157 - binary32.exponent a))
  omega

theorem fixsf_of_le (h : binary32.exponent a ≤ 157) :
    (fixsf a).toInt = truncate (binary32.value a) := by
  obtain ⟨af, heq, haf⟩ := fixsf_eq a
  have hlt := shifted_lt a
  rw [heq, Lib.toInt_signed (by omega), haf, shifted_eq_whole h, Format.truncate_value]

theorem abs_value_lt32 {k : ℕ} : |binary32.value a| < 2 ^ k ↔ binary32.exponent a < 127 + k :=
  Format.abs_value_lt_two_pow

theorem whole_lt32 {k : ℕ} : binary32.whole a < 2 ^ k ↔ binary32.exponent a < 127 + k :=
  Format.whole_lt

/-- The only number of the type with a larger exponent is the least one. -/
theorem value_of_fits (hfits : Fits (-2 ^ 31) (2 ^ 31 - 1) a) (h : 157 < binary32.exponent a) :
    a.msb = true ∧ binary32.value a = -2 ^ 31 := by
  have hwhole : ¬binary32.whole a < 2 ^ 31 := by
    rw [whole_lt32]
    omega
  obtain ⟨-, hlow, hhigh⟩ := hfits
  rw [Format.truncate_value] at hlow hhigh
  cases hs : a.msb with
  | false =>
    rw [hs, if_neg Bool.false_ne_true] at hhigh
    omega
  | true =>
    rw [hs, if_pos rfl] at hlow
    have heq : binary32.whole a = 2 ^ 31 := by omega
    refine ⟨rfl, ?_⟩
    rw [Format.value_eq_whole (show 150 ≤ _ by omega), hs, if_pos rfl, heq]
    norm_num

theorem fixsfsi_iff (hfits : Fits (-2 ^ 31) (2 ^ 31 - 1) a) :
    (fixsfsi a).toInt = truncate (binary32.value a) ↔ binary32.value a ≠ -2 ^ 31 := by
  rcases Nat.lt_or_ge 157 (binary32.exponent a) with hlarge | hsmall
  · obtain ⟨hmsb, hvalue⟩ := value_of_fits hfits hlarge
    have hint : truncate (binary32.value a) = -2 ^ 31 := by
      have hcast : binary32.value a = ((-2 ^ 31 : ℤ) : ℚ) := by
        rw [hvalue]
        norm_num
      rw [hcast, Lib.truncate_intCast]
    obtain ⟨af, heq, haf⟩ := fixsf_eq a
    have hlt : af.toNat < 2 ^ 31 := haf ▸ shifted_lt a
    refine iff_of_false ?_ (not_not.mpr hvalue)
    rw [fixsfsi, heq, Lib.toInt_signed (by omega), hmsb, if_pos rfl, hint]
    omega
  · refine iff_of_true (fixsf_of_le hsmall) fun hvalue => ?_
    have habs : |binary32.value a| < 2 ^ 31 := abs_value_lt32.mpr (by omega)
    rw [hvalue] at habs
    norm_num at habs

theorem fixunssfsi_iff (hfits : Fits 0 (2 ^ 32 - 1) a) :
    ((fixunssfsi a).toNat : ℤ) = truncate (binary32.value a) ↔ binary32.value a < 2 ^ 31 := by
  obtain ⟨af, heq, haf⟩ := fixsf_eq a
  have hlt : af.toNat < 2 ^ 31 := haf ▸ shifted_lt a
  obtain ⟨-, hlow, -⟩ := hfits
  rw [Format.truncate_value] at hlow
  rcases Nat.lt_or_ge 157 (binary32.exponent a) with hlarge | hsmall
  · -- no sign, and at least 2 ^ 31
    have hwhole : ¬binary32.whole a < 2 ^ 31 := by
      rw [whole_lt32]
      omega
    have habs : ¬|binary32.value a| < 2 ^ 31 := by
      rw [abs_value_lt32]
      omega
    have hmsb : a.msb = false := by
      cases hs : a.msb with
      | false => rfl
      | true =>
        rw [hs, if_pos rfl] at hlow
        omega
    have hnonneg : 0 ≤ binary32.value a := by
      rw [Format.value_eq_sign, hmsb, if_neg Bool.false_ne_true, one_mul]
      positivity
    rw [abs_of_nonneg hnonneg] at habs
    refine iff_of_false ?_ habs
    rw [fixunssfsi, heq, hmsb, if_neg Bool.false_ne_true, Format.truncate_value, hmsb,
      if_neg Bool.false_ne_true]
    omega
  · refine iff_of_true ?_ ?_
    · have hint := fixsf_of_le hsmall
      have hnat : (fixsf a).toInt = (fixsf a).toNat := by
        rw [heq]
        cases hs : a.msb with
        | false => exact BitVec.toInt_eq_toNat_of_lt (by rw [if_neg Bool.false_ne_true]; omega)
        | true =>
          -- what is negative and fits is rounded to 0
          rw [hs, if_pos rfl] at hlow
          have hzero : af = 0 := by
            refine BitVec.eq_of_toNat_eq (haf.trans ?_)
            rw [shifted_eq_whole hsmall]
            show _ = 0
            omega
          rw [hzero]
          rfl
      rw [fixunssfsi, ← hnat, hint]
    · exact (le_abs_self _).trans_lt (abs_value_lt32.mpr (by omega))

/-! ## From integers -/

/-- With enough tests there is a result. -/
def Ends {α : Type*} (f : ℕ → Option α) : Prop := ∃ fuel r, f fuel = some r

theorem sle_zero (n : Word) : BitVec.sle 0 n = !n.msb := by
  have hzero : (0 : Word).toInt = 0 := rfl
  rw [BitVec.sle, BitVec.msb_eq_toInt, hzero]
  rcases Int.lt_or_le n.toInt 0 with h | h
  · rw [decide_eq_true h, decide_eq_false (Int.not_le.mpr h)]
    rfl
  · rw [decide_eq_false (Int.not_lt.mpr h), decide_eq_true h]
    rfl

/-- A number and its sign, as `__floatsisf` takes it apart. -/
theorem floatsisf_eq (fuel : ℕ) (n : Word) : floatsisf fuel n =
    floatsf BitVec.sshiftRight fuel (if n.msb then 1 else 0) (if n.msb then -n else n) := by
  rw [floatsisf, sle_zero]
  cases n.msb <;> rfl

theorem toNat_opposite {n : Word} (hn : n ≠ 0x80000000) :
    (if n.msb then -n else n).toNat = n.toInt.natAbs ∧ n.toInt.natAbs < 2 ^ 31 := by
  have hlt := n.isLt
  have hne : n.toNat ≠ 2 ^ 31 := fun h => hn (BitVec.eq_of_toNat_eq h)
  have hint := BitVec.toInt_eq_msb_cond n
  cases hs : n.msb with
  | false =>
    have hsmall := BitVec.msb_eq_false_iff_two_mul_lt.mp hs
    rw [hs, if_neg Bool.false_ne_true] at hint
    rw [if_neg Bool.false_ne_true]
    omega
  | true =>
    have hlarge := BitVec.msb_eq_true_iff_two_mul_ge.mp hs
    rw [hs, if_pos rfl] at hint
    rw [if_pos rfl, BitVec.toNat_neg]
    omega

/-- A number with an opposite goes through the loops. -/
theorem floatsisf_spec {fuel : ℕ} (hfuel : 32 < fuel) {n : Word} (h0 : n ≠ 0)
    (hn : n ≠ 0x80000000) :
    ∃ r af ae, floatsisf fuel n = some r ∧ Floatsf.Leading n.toInt.natAbs af ae ∧
      r.msb = n.msb ∧ binary32.exponent r = ae ∧ 2 ^ 23 + binary32.fraction r = af := by
  obtain ⟨habs, hlt⟩ := toNat_opposite hn
  have hne : n.toInt ≠ 0 := fun h => h0 (BitVec.eq_of_toInt_eq (h.trans BitVec.toInt_zero.symm))
  obtain ⟨t, heq, ht⟩ := floatsf_eq Floatsf.halves_signed hfuel (if n.msb then 1 else 0)
    (if n.msb then -n else n) (by omega) (by omega)
  rw [habs] at ht
  exact ⟨_, _, _, (floatsisf_eq fuel n).trans heq, ht,
    fields_of_leading (by omega) ht n.msb rfl rfl⟩

/-- The least integer keeps the sign that its first loop shifts in. -/
theorem floatsisf_least (fuel : ℕ) : floatsisf fuel 0x80000000 = none := by
  have hloop : Lib.whileLoop (fun s => s.af &&& 0xff000000 ≠ 0)
      (Floatsf.down BitVec.sshiftRight) fuel ⟨0x80000000, 0x80 + 22⟩ = none := by
    refine Lib.whileLoop_eq_none (p := fun s => s.af.msb = true) (fun s hs => ?_) (fun s hs => ?_)
      (by decide)
    · have hlarge := BitVec.msb_eq_true_iff_two_mul_ge.mp hs
      have hmask : s.af &&& 0xff000000 = 0 ↔ s.af.toNat < 2 ^ 24 :=
        Lib.and_not_mask (m := 0x00ffffff) (by decide)
      rw [decide_eq_true_eq, ne_eq, hmask]
      omega
    · exact BitVec.msb_sshiftRight.trans hs
  show floatsf BitVec.sshiftRight fuel 1 0x80000000 = none
  rw [floatsf, if_neg (by decide), hloop]
  rfl

theorem floatsisf_ends (n : Word) : Ends (floatsisf · n) ↔ n ≠ 0x80000000 := by
  constructor
  · rintro ⟨fuel, r, hr⟩ rfl
    cases (floatsisf_least fuel).symm.trans hr
  · intro hn
    by_cases h0 : n = 0
    · subst h0
      exact ⟨33, 0, rfl⟩
    · obtain ⟨r, _, _, hr, -⟩ := floatsisf_spec (by decide : 32 < 33) h0 hn
      exact ⟨33, r, hr⟩

theorem floatunsisf_ends (n : Word) : Ends (floatunsisf · n) := by
  have hle : (0 : Word) ≤ n := BitVec.le_def.mpr (Nat.zero_le _)
  have heq : floatunsisf 33 n = floatsf (fun x k => x >>> k) 33 0 n := by
    rw [floatunsisf, if_pos hle, if_pos hle]
  by_cases h0 : n = 0
  · subst h0
    exact ⟨33, 0, rfl⟩
  · have hpos : 0 < n.toNat := Nat.pos_of_ne_zero fun h => h0 (BitVec.eq_of_toNat_eq h)
    obtain ⟨t, ht, -⟩ := floatsf_eq Floatsf.halves_unsigned (by decide : 32 < 33) 0 n hpos n.isLt
    exact ⟨33, _, heq.trans ht⟩

theorem floatsidf_ends (n : Word) : Ends (floatsidf · n) := by
  obtain ⟨d, hd, -⟩ := floatsidf_value (by decide : 6 < 7) n
  exact ⟨7, d, hd⟩

/-! ### `__floatdidf` -/

/-- A loop over a number without a sign ends. -/
theorem floatdidf_loop {s : Floatdidf.Vars} {c t : ℕ} (bound : BitVec 64) (hc : 0 < c)
    (hbound : bound.toNat = 2 ^ t) (ht : t + c ≤ 63) (hpos : 0 < s.a1.toNat)
    (hs : s.a1.toNat < 2 ^ 63) :
    ∃ s', Lib.whileLoop (fun s => s.a1.slt bound) (Floatdidf.shift c) 64 s = some s' ∧
      0 < s'.a1.toNat ∧ s'.a1.toNat < 2 ^ 63 := by
  have hpow : 2 ^ t < 2 ^ 63 := Nat.pow_lt_pow_right (by decide) (by omega)
  have hbody : ∀ x : Floatdidf.Vars, x.a1.toNat < 2 ^ 63 → x.a1.toNat < 2 ^ t →
      (Floatdidf.shift c x).a1.toNat < 2 ^ 63 ∧
        (Floatdidf.shift c x).a1.toNat = x.a1.toNat * 2 ^ c := fun x _ hx => by
    have hfits : x.a1.toNat * 2 ^ c < 2 ^ 63 :=
      Nat.lt_of_lt_of_le (Nat.mul_lt_mul_of_pos_right hx (Nat.two_pow_pos c))
        (by rw [← Nat.pow_add]; exact Nat.pow_le_pow_right (by decide) ht)
    have hshift : (Floatdidf.shift c x).a1.toNat = x.a1.toNat * 2 ^ c := by
      show (x.a1 <<< c).toNat = _
      rw [BitVec.toNat_shiftLeft, Nat.shiftLeft_eq, Nat.mod_eq_of_lt (by omega)]
    exact ⟨hshift ▸ hfits, hshift⟩
  have htest : ∀ x : Floatdidf.Vars, x.a1.toNat < 2 ^ 63 →
      (x.a1.slt bound = true ↔ x.a1.toNat < 2 ^ t) := fun x hx => by
    rw [Lib.slt_of_nonneg (by omega) (by omega), hbound]
  obtain ⟨k, hloop, hlt, -, hle, -⟩ :=
    Lib.whileLoop_scale hc htest hbody hs hpos (by omega : t < 64)
  exact ⟨_, hloop, Nat.lt_of_lt_of_le (Nat.two_pow_pos t) hle, hlt⟩

/-- The least integer is shifted out and leaves 0. -/
theorem floatdidf_least (fuel : ℕ) : floatdidf fuel 0x8000000000000000 = none := by
  have hloop : Lib.whileLoop (fun s => s.a1.slt ((1 : BitVec 64) <<< 54)) (Floatdidf.shift 8) fuel
      ⟨0x8000000000000000, 63 + excessd⟩ = none := by
    refine Lib.whileLoop_eq_none (p := fun s => s.a1 = 0x8000000000000000 ∨ s.a1 = 0)
      (fun s hs => ?_) (fun s hs => .inr ?_) (.inl rfl)
    · rcases hs with hs | hs <;> rw [hs] <;> decide
    · show s.a1 <<< 8 = 0
      rcases hs with hs | hs <;> rw [hs] <;> decide
  have hneg : (-0x8000000000000000 : BitVec 64) = 0x8000000000000000 := by decide
  have hslt : (0x8000000000000000 : BitVec 64).slt 0 = true := by decide
  rw [floatdidf, if_neg (by decide)]
  simp only [hslt, if_true, hneg, hloop]
  rfl

theorem floatdidf_ends (m : BitVec 64) : Ends (floatdidf · m) ↔ m ≠ 0x8000000000000000 := by
  constructor
  · rintro ⟨fuel, r, hr⟩ rfl
    cases (floatdidf_least fuel).symm.trans hr
  · intro hm
    by_cases h0 : m = 0
    · subst h0
      exact ⟨64, 0, rfl⟩
    have hlt := m.isLt
    have hpos : 0 < m.toNat := Nat.pos_of_ne_zero fun h => h0 (BitVec.eq_of_toNat_eq h)
    have hne : m.toNat ≠ 2 ^ 63 := fun h => hm (BitVec.eq_of_toNat_eq h)
    have hslt : m.slt 0 = decide (2 ^ 63 ≤ m.toNat) :=
      BitVec.slt_zero_eq_msb.trans (BitVec.msb_eq_decide m)
    have habs : 0 < (if m.slt 0 then -m else m).toNat ∧
        (if m.slt 0 then -m else m).toNat < 2 ^ 63 := by
      rw [hslt]
      split
      · next h =>
        have hge := of_decide_eq_true h
        rw [BitVec.toNat_neg]
        omega
      · next h =>
        have hsmall : ¬2 ^ 63 ≤ m.toNat := fun hc => h (decide_eq_true hc)
        omega
    obtain ⟨s, hfirst, hs, hs'⟩ := floatdidf_loop (s := ⟨if m.slt 0 then -m else m, 63 + excessd⟩)
      (c := 8) (t := 54) ((1 : BitVec 64) <<< 54) (by decide) (by decide) (by decide) habs.1 habs.2
    obtain ⟨t, hsecond, -⟩ := floatdidf_loop (c := 1) (t := 62)
      ((1 : BitVec 64) <<< 62) (by decide) (by decide) (by decide) hs hs'
    refine ⟨64, ?_⟩
    simp only [floatdidf, if_neg h0]
    rw [hfirst, Option.bind_eq_bind, Option.bind_some, hsecond]
    exact ⟨_, rfl⟩

/-! ## There and back -/

/-- All but the leading `b` bits cleared. -/
def leadingBits (b m : ℕ) : ℕ := m / 2 ^ (m.log2 + 1 - b) * 2 ^ (m.log2 + 1 - b)

/-- From the leading 1 to the last 1 there are at most `b` bits. -/
def SignificantBits (b m : ℕ) : Prop := ∃ c j, c < 2 ^ b ∧ m = c * 2 ^ j

theorem leadingBits_eq_iff {b m : ℕ} : leadingBits b m = m ↔ SignificantBits b m := by
  have hlt : m < 2 ^ (m.log2 + 1) := Nat.lt_log2_self
  constructor
  · intro h
    refine ⟨m / 2 ^ (m.log2 + 1 - b), _, ?_, h.symm⟩
    refine (Nat.div_lt_iff_lt_mul (Nat.two_pow_pos _)).mpr ?_
    rw [← Nat.pow_add]
    exact hlt.trans_le (Nat.pow_le_pow_right (by decide) (by omega))
  · rintro ⟨c, j, hc, hm⟩
    refine Nat.div_mul_cancel ?_
    rcases Nat.eq_zero_or_pos c with rfl | hpos
    · rw [hm, Nat.zero_mul]
      exact Nat.dvd_zero _
    · -- the leading 1 is at most `b` places above the end of `c`
      have hne : m ≠ 0 := by
        rw [hm]
        exact (Nat.mul_pos hpos (Nat.two_pow_pos j)).ne'
      have hlog : 2 ^ m.log2 < 2 ^ (b + j) := by
        refine Nat.lt_of_le_of_lt (Nat.log2_self_le hne) ?_
        rw [Nat.pow_add, hm]
        exact Nat.mul_lt_mul_of_pos_right hc (Nat.two_pow_pos j)
      have hle : m.log2 + 1 - b ≤ j := by
        have := (Nat.pow_lt_pow_iff_right (by decide : 1 < 2)).mp hlog
        omega
      rw [hm] at hle ⊢
      exact (Nat.pow_dvd_pow 2 hle).trans (Nat.dvd_mul_left _ _)

/-- The significand of the float, shifted to where it was. -/
theorem shifted_leading {m af ae : ℕ} (hm : 0 < m) (hlt : m < 2 ^ 31)
    (h : Floatsf.Leading m af ae) :
    ae ≤ 157 ∧ af * 2 ^ 7 / 2 ^ (157 - ae) = leadingBits 24 m := by
  have hlow := h.low
  have hhigh := h.high
  rcases h.scaled with ⟨i, haf, hae⟩ | ⟨j, haf, hae⟩
  · have hmlow : 2 ^ (23 + i) ≤ m := by
      rw [Nat.pow_add]
      exact (Nat.le_div_iff_mul_le (Nat.two_pow_pos i)).mp (haf ▸ hlow)
    have hmhigh : m < 2 ^ (24 + i) := by
      rw [Nat.pow_add]
      exact (Nat.div_lt_iff_lt_mul (Nat.two_pow_pos i)).mp (haf ▸ hhigh)
    have hlog : m.log2 = 23 + i :=
      (Nat.log2_eq_iff hm.ne').mpr ⟨hmlow, hmhigh.trans_eq (by congr 1; omega)⟩
    have hi : i ≤ 7 := by
      have := (Nat.pow_lt_pow_iff_right (by decide : 1 < 2)).mp (hmlow.trans_lt hlt)
      omega
    have hpow : 2 ^ 7 = 2 ^ i * 2 ^ (157 - ae) := by
      rw [← Nat.pow_add]
      congr 1
      omega
    refine ⟨by omega, ?_⟩
    rw [hpow, ← Nat.mul_assoc, Nat.mul_div_cancel _ (Nat.two_pow_pos _), leadingBits, hlog,
      show 23 + i + 1 - 24 = i by omega, haf]
  · have hpow : 2 ^ (157 - ae) = 2 ^ j * 2 ^ 7 := by
      rw [← Nat.pow_add]
      congr 1
      omega
    have hmlt : m < 2 ^ 24 := Nat.lt_of_le_of_lt (Nat.le_mul_of_pos_right m (Nat.two_pow_pos j))
      (haf ▸ hhigh)
    have hlog : m.log2 + 1 - 24 = 0 := by
      have := (Nat.log2_lt hm.ne').mpr hmlt
      omega
    refine ⟨by omega, ?_⟩
    rw [hpow, haf, Nat.mul_assoc, Nat.mul_div_cancel _ (by positivity), leadingBits, hlog,
      Nat.pow_zero, Nat.mul_one, Nat.div_one]

/-- To a float and back. -/
theorem fixsfsi_floatsisf {fuel : ℕ} (hfuel : 32 < fuel) {n : Word} (hn : n ≠ 0x80000000) :
    ∃ r, floatsisf fuel n = some r ∧
      (fixsfsi r).toInt = n.toInt.sign * leadingBits 24 n.toInt.natAbs := by
  by_cases h0 : n = 0
  · subst h0
    exact ⟨0, rfl, rfl⟩
  obtain ⟨-, hlt⟩ := toNat_opposite hn
  have hne : n.toInt ≠ 0 := fun h => h0 (BitVec.eq_of_toInt_eq (h.trans BitVec.toInt_zero.symm))
  obtain ⟨r, af, ae, hr, hlead, hmsb, hexp, hfrac⟩ := floatsisf_spec hfuel h0 hn
  obtain ⟨v, heq, hv⟩ := fixsf_eq r
  have hsmall : v.toNat < 2 ^ 31 := hv ▸ shifted_lt r
  rw [hexp, hfrac, (shifted_leading (Int.natAbs_pos.mpr hne) hlt hlead).2] at hv
  refine ⟨r, hr, ?_⟩
  rw [fixsfsi, heq, Lib.toInt_signed (by omega), hv, hmsb]
  cases hs : n.msb with
  | false =>
    have hnonneg := BitVec.toInt_nonneg_of_msb_false hs
    rw [if_neg Bool.false_ne_true, Int.sign_eq_one_of_pos (by omega), one_mul]
  | true =>
    rw [if_pos rfl, Int.sign_eq_neg_one_of_neg (BitVec.toInt_neg_of_msb_true hs), neg_one_mul]

theorem sign_mul_eq_iff {z : ℤ} {m : ℕ} : z.sign * m = z ↔ z = 0 ∨ m = z.natAbs := by
  rcases lt_trichotomy z 0 with hneg | rfl | hpos
  · rw [Int.sign_eq_neg_one_of_neg hneg]
    omega
  · simp
  · rw [Int.sign_eq_one_of_pos hpos]
    omega

theorem significant_of_eq {n r : Word}
    (h : (fixsfsi r).toInt = n.toInt.sign * leadingBits 24 n.toInt.natAbs) :
    fixsfsi r = n ↔ SignificantBits 24 n.toInt.natAbs := by
  rw [← BitVec.toInt_inj, h, sign_mul_eq_iff, leadingBits_eq_iff, or_iff_right_iff_imp]
  intro hz
  rw [hz]
  exact ⟨0, 0, by decide, rfl⟩

/-- To a double and back. -/
theorem truncdfsf2_extendsfdf2 (f : Word) : truncdfsf2 (extendsfdf2 f) = f := by
  by_cases h0 : f = 0
  · subst h0
    rfl
  have hlt := f.isLt
  have hnat := toNat_extendsfdf2 h0
  have hne : extendsfdf2 f ≠ 0 := fun h => by
    have hzero : (0 : BitVec 64).toNat = 0 := rfl
    rw [h, hzero] at hnat
    omega
  -- the significand has only zeros below the last bit of the float, so nothing is rounded up
  have hrebased : rebased (extendsfdf2 f) = f.toNat % 2 ^ 31 := by
    rw [rebased, Lib.magnitude, hnat]
    omega
  apply BitVec.eq_of_toInt_eq
  rw [toInt_truncdfsf2, narrowed, if_neg hne, hrebased, BitVec.msb_eq_decide, hnat,
    BitVec.toInt_eq_toNat_cond]
  split
  · next h =>
    have hge := of_decide_eq_true h
    rw [if_neg (by omega)]
    omega
  · next h =>
    have hless : ¬2 ^ (64 - 1) ≤ _ := fun hc => h (decide_eq_true hc)
    rw [if_pos (by omega), Int.bmod_eq_of_le (by omega) (by omega)]
    omega

end HfRisc.Soft

namespace HfRisc.Results

open HfRisc.Soft HfRisc.Lib

/-- The functions to integers round toward zero, but for the least signed integer and for the
unsigned ones with their top bit set. -/
theorem float_to_int32 (a : Word) :
    (Fits (-2 ^ 31) (2 ^ 31 - 1) a →
      ((fixsfsi a).toInt = truncate (binary32.value a) ↔ binary32.value a ≠ -2 ^ 31)) ∧
    (Fits 0 (2 ^ 32 - 1) a →
      (((fixunssfsi a).toNat : ℤ) = truncate (binary32.value a) ↔ binary32.value a < 2 ^ 31)) :=
  ⟨fixsfsi_iff, fixunssfsi_iff⟩

/-- The float -2 ^ 31. -/
theorem truncate_least : truncate (binary32.value (0xCF000000 : Word)) = -2 ^ 31 := by
  have hwhole : binary32.whole (0xCF000000 : Word) = 2 ^ 31 := by decide
  have hmsb : (0xCF000000 : Word).msb = true := by decide
  rw [Format.truncate_value, hmsb, hwhole]
  rfl

/-- -5.5 and 5.5. -/
theorem float_to_int32_five :
    ((fixsfsi 0xC0B00000).toInt = truncate (binary32.value (0xC0B00000 : Word)) ∧
      truncate (binary32.value (0xC0B00000 : Word)) = -5) ∧
    ((fixunssfsi 0x40B00000).toNat : ℤ) = truncate (binary32.value (0x40B00000 : Word)) ∧
      truncate (binary32.value (0x40B00000 : Word)) = 5 := by
  have hneg : truncate (binary32.value (0xC0B00000 : Word)) = -5 := by
    have hwhole : binary32.whole (0xC0B00000 : Word) = 5 := by decide
    have hmsb : (0xC0B00000 : Word).msb = true := by decide
    rw [Format.truncate_value, hmsb, hwhole]
    rfl
  have hpos : truncate (binary32.value (0x40B00000 : Word)) = 5 := by
    have hwhole : binary32.whole (0x40B00000 : Word) = 5 := by decide
    have hmsb : (0x40B00000 : Word).msb = false := by decide
    rw [Format.truncate_value, hmsb, hwhole]
    rfl
  have habs : |binary32.value (0xC0B00000 : Word)| < 2 ^ 31 := abs_value_lt32.mpr (by decide)
  have habs' : |binary32.value (0x40B00000 : Word)| < 2 ^ 31 := abs_value_lt32.mpr (by decide)
  refine ⟨⟨((float_to_int32 _).1 ⟨by decide, ?_, ?_⟩).mpr ?_, hneg⟩,
    ((float_to_int32 _).2 ⟨by decide, ?_, ?_⟩).mpr (lt_of_abs_lt habs'), hpos⟩
  · rw [hneg]
    decide
  · rw [hneg]
    decide
  · exact fun h => by norm_num [h] at habs
  · rw [hpos]
    decide
  · rw [hpos]
    decide

/-- -2 ^ 31 becomes -2 ^ 30. -/
theorem float_to_int32_half :
    ¬((∀ a, Fits (-2 ^ 31) (2 ^ 31 - 1) a →
        (fixsfsi a).toInt = truncate (binary32.value a)) ∧
      (∀ a, Fits 0 (2 ^ 32 - 1) a →
        ((fixunssfsi a).toNat : ℤ) = truncate (binary32.value a))) := by
  rintro ⟨hsigned, -⟩
  have hleast := hsigned 0xCF000000
    ⟨by decide, by rw [truncate_least], by rw [truncate_least]; decide⟩
  rw [truncate_least] at hleast
  exact absurd hleast (by decide)

/-- The loops of the functions from integers end, but for the least integer in two of them. -/
theorem int_to_float_ends (n : Word) (m : BitVec 64) :
    (Ends (floatsisf · n) ↔ n ≠ 0x80000000) ∧ Ends (floatunsisf · n) ∧ Ends (floatsidf · n) ∧
      (Ends (floatdidf · m) ↔ m ≠ 0x8000000000000000) :=
  ⟨floatsisf_ends n, floatunsisf_ends n, floatsidf_ends n, floatdidf_ends m⟩

/-- -2 ^ 31 keeps its sign in every round. -/
theorem int_to_float_least :
    ¬((∀ n, Ends (floatsisf · n)) ∧ (∀ n, Ends (floatunsisf · n)) ∧ (∀ n, Ends (floatsidf · n)) ∧
      ∀ m, Ends (floatdidf · m)) := by
  rintro ⟨hsigned, -⟩
  obtain ⟨fuel, r, hr⟩ := hsigned 0x80000000
  cases (floatsisf_least fuel).symm.trans hr

/-- An integer that has an opposite comes back from its float with its leading 24 bits. -/
theorem int_through_float {fuel : ℕ} (hfuel : 32 < fuel) (n : Word) (hn : n ≠ 0x80000000) :
    ∃ r, floatsisf fuel n = some r ∧
      (fixsfsi r).toInt = n.toInt.sign * leadingBits 24 n.toInt.natAbs ∧
      (fixsfsi r = n ↔ SignificantBits 24 n.toInt.natAbs) := by
  obtain ⟨r, hr, hvalue⟩ := fixsfsi_floatsisf hfuel hn
  exact ⟨r, hr, hvalue, significant_of_eq hvalue⟩

theorem int_through_float_largest : ∃ r, floatsisf 33 0x7FFFFFFF = some r ∧
    (fixsfsi r).toInt =
      (0x7FFFFFFF : Word).toInt.sign * leadingBits 24 (0x7FFFFFFF : Word).toInt.natAbs ∧
    (fixsfsi r = 0x7FFFFFFF ↔ SignificantBits 24 (0x7FFFFFFF : Word).toInt.natAbs) :=
  int_through_float (by decide) 0x7FFFFFFF (by decide)

/-- A float comes back from its double. -/
theorem float_through_double (f : Word) : truncdfsf2 (extendsfdf2 f) = f :=
  truncdfsf2_extendsfdf2 f

end HfRisc.Results
