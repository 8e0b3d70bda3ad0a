import HfRisc.Lib.While
import HfRisc.Soft.FloatMacros

/-!
# Addition (`libc.c`)

The significands get guard bits below them and their signs. The one with the smaller exponent is
shifted to the right, which rounds it down, also where it is negative. The sum is brought back to
the length of a significand with guard bits and rounded, and this may carry once.
-/

namespace HfRisc.Soft

open HfRisc.Lib (Format)

variable {w : ℕ}

/-! ## The functions -/

/-- The constants of an addition. -/
structure Adder (w : ℕ) where
  far : ℤ
  guard : ℕ
  /-- The bits of which one is set after `normalize up`. -/
  up : BitVec w
  /-- The bits of which one is set before `normalize down`. -/
  down : BitVec w
  odd : BitVec w
  half : BitVec w
  below : BitVec w

namespace FloatAddition

/-- The variables `mant1` and `exp1`. -/
structure Vars (w : ℕ) where
  mant1 : BitVec w
  exp1 : ℤ

/-- A significand with guard bits and its sign. -/
def signed (M : Macros w) (A : Adder w) (fl : BitVec w) : BitVec w :=
  if M.sign fl ≠ 0 then -(M.mant fl <<< A.guard) else M.mant fl <<< A.guard

/-- The sum at the larger exponent. -/
def sum (M : Macros w) (A : Adder w) (fl1 fl2 : BitVec w) : Vars w :=
  if M.exp fl1 > M.exp fl2 then
    ⟨signed M A fl1 + (signed M A fl2).sshiftRight (M.exp fl1 - M.exp fl2).toNat, M.exp fl1⟩
  else ⟨(signed M A fl1).sshiftRight (M.exp fl2 - M.exp fl1).toNat + signed M A fl2, M.exp fl2⟩

/-- A round of the loop that normalizes up. -/
def double (s : Vars w) : Vars w := ⟨s.mant1 <<< 1, s.exp1 - 1⟩

/-- The loop that normalizes up. -/
def normalizeUp (A : Adder w) (fuel : ℕ) (s : Vars w) : Option (Vars w) :=
  Lib.whileLoop (fun s => s.mant1 &&& A.up = 0) double fuel s

def normalizeDown (A : Adder w) (s : Vars w) : Vars w :=
  if s.mant1 &&& A.down ≠ 0 then ⟨s.mant1.sshiftRight 1, s.exp1 + 1⟩ else s

/-- What is added to round to even. -/
def rounding (A : Adder w) (mant1 : BitVec w) : BitVec w :=
  if mant1 &&& A.odd ≠ 0 then A.half else A.below

def round (A : Adder w) (s : Vars w) : Vars w := { s with mant1 := s.mant1 + rounding A s.mant1 }

/-- The magnitude of the sum. -/
def magnitude (s : Vars w) : Vars w :=
  { s with mant1 := if s.mant1.slt 0 then -s.mant1 else s.mant1 }

/-- From the sum to the packed number. -/
def finish (M : Macros w) (A : Adder w) (fuel : ℕ) (s : Vars w) : Option (BitVec w) :=
  if s.mant1 = 0 then some 0
  else do
    let sign := if s.mant1.slt 0 then signbit else 0
    let t ← normalizeUp A fuel (magnitude s)
    let t := normalizeDown A (round A (normalizeDown A t))
    return M.pack sign t.exp1 (t.mant1.sshiftRight A.guard &&& ~~~M.hidden)

end FloatAddition

/-- From the exponents to the packed sum. -/
def add (M : Macros w) (A : Adder w) (fuel : ℕ) (fl1 fl2 : BitVec w) : Option (BitVec w) :=
  if M.exp fl1 > M.exp fl2 + A.far then some fl1
  else if M.exp fl2 > M.exp fl1 + A.far then some fl2
  else FloatAddition.finish M A fuel (FloatAddition.sum M A fl1 fl2)

def adder32 : Adder 32 where
  far := 25
  guard := 6
  up := 0xE0000000
  down := (1 : BitVec 32) <<< 30
  odd := 0x40
  half := 0x20
  below := 0x1F

def adder64 : Adder 64 where
  far := 54
  guard := 9
  up := (7 : BitVec 64) <<< 61
  down := (3 : BitVec 64) <<< 62
  odd := (1 : BitVec 64) <<< 9
  half := (1 : BitVec 64) <<< 8
  below := (1 : BitVec 64) <<< 8 - 1

/-- `__addsf3`. -/
def addsf3 (fuel : ℕ) (a1 a2 : Word) : Option Word :=
  if a1 = 0 then some a2
  else if a2 = 0 then some a1
  else add single adder32 fuel a1 a2

/-- `__adddf3`. -/
def adddf3 (fuel : ℕ) (a1 a2 : BitVec 64) : Option (BitVec 64) :=
  if a2 = 0 then some a1
  else if a1 = 0 then some a2
  else add double adder64 fuel a1 a2

/-- `fl.l.upper ^= SIGNBIT`. -/
def flipSign (fl : BitVec 64) : BitVec 64 := halves (upper fl ^^^ signbit) (lower fl)

/-- `__negdf2`. -/
def negdf2 (a1 : BitVec 64) : BitVec 64 :=
  if upper a1 = 0 ∧ lower a1 = 0 then a1 else flipSign a1

/-- `__subdf3`. -/
def subdf3 (fuel : ℕ) (a1 a2 : BitVec 64) : Option (BitVec 64) :=
  if a2 = 0 then some a1
  else if a1 = 0 then some (flipSign a2)
  else adddf3 fuel a1 (flipSign a2)

/-! ## The constants -/

/-- The constants are those of significands with `f + 1` bits. -/
structure Adder.Lawful (A : Adder w) (f : ℕ) : Prop where
  far_eq : A.far = f + 2
  width : f + A.guard + 3 = w
  guard_le : 3 ≤ A.guard
  up_iff : ∀ x : BitVec w, x &&& A.up = 0 ↔ x.toNat < 2 ^ (f + A.guard)
  down_iff : ∀ x : BitVec w, x.toNat < 2 ^ (f + A.guard + 2) →
    (x &&& A.down = 0 ↔ x.toNat < 2 ^ (f + A.guard + 1))
  odd_iff : ∀ x : BitVec w, x &&& A.odd = 0 ↔ x.toNat / 2 ^ A.guard % 2 = 0
  half_eq : A.half.toNat = 2 ^ (A.guard - 1)
  below_eq : A.below.toNat = 2 ^ (A.guard - 1) - 1

theorem adder32_lawful : adder32.Lawful binary32.fracBits where
  far_eq := rfl
  width := rfl
  guard_le := by decide
  up_iff _ := Lib.and_not_mask (m := 0x1FFFFFFF) (k := 29) (by decide)
  down_iff x hx := by
    have hbit : adder32.down = BitVec.twoPow 32 30 := by decide
    rw [hbit]
    exact Lib.and_twoPow_of_lt (by decide) hx
  odd_iff x := by
    have hbit : adder32.odd = BitVec.twoPow 32 6 := by decide
    rw [hbit]
    exact Lib.and_twoPow (by decide)
  half_eq := rfl
  below_eq := rfl

theorem adder64_lawful : adder64.Lawful binary64.fracBits where
  far_eq := rfl
  width := rfl
  guard_le := by decide
  up_iff _ := Lib.and_not_mask (m := 0x1FFFFFFFFFFFFFFF) (k := 61) (by decide)
  down_iff _ _ := Lib.and_not_mask (m := 0x3FFFFFFFFFFFFFFF) (k := 62) (by decide)
  odd_iff x := by
    have hbit : adder64.odd = BitVec.twoPow 64 9 := by decide
    rw [hbit]
    exact Lib.and_twoPow (by decide)
  half_eq := rfl
  below_eq := rfl

/-! ## The sum -/

namespace FloatAddition

section Sum

variable {M : Macros w} {A : Adder w} {F : Format} {a b : BitVec w}

/-- A significand with `g` guard bits and its sign. -/
def guarded (F : Format) (g : ℕ) (x : BitVec w) : ℤ :=
  (if x.msb then -1 else 1) * (F.significand x * 2 ^ g : ℕ)

/-- The sum of the significands at the larger exponent. -/
def alignedSum (F : Format) (g : ℕ) (a b : BitVec w) : ℤ :=
  if F.exponent b < F.exponent a then
    guarded F g a + guarded F g b / 2 ^ (F.exponent a - F.exponent b)
  else guarded F g a / 2 ^ (F.exponent b - F.exponent a) + guarded F g b

/-- A bit is left beside the guarded significands, and one for the sign. -/
theorem two_pow_width (hA : A.Lawful F.fracBits) : 2 ^ w = 8 * 2 ^ (F.fracBits + A.guard) := by
  obtain ⟨k, hk⟩ : ∃ k, F.fracBits + A.guard = k := ⟨_, rfl⟩
  have hw : w = k + 3 := by
    have := hA.width
    omega
  rw [hk, hw, Nat.pow_add]
  omega

theorem guarded_bounds (g : ℕ) (x : BitVec w) :
    -(2 * 2 ^ (F.fracBits + g) : ℕ) < guarded F g x ∧
      guarded F g x < (2 * 2 ^ (F.fracBits + g) : ℕ) := by
  have hlt : F.significand x * 2 ^ g < 2 * 2 ^ (F.fracBits + g) := by
    rw [← Nat.pow_succ', Nat.succ_eq_add_one, Nat.add_right_comm, Nat.pow_add]
    exact Nat.mul_lt_mul_of_pos_right Format.significand_bounds.2 (Nat.two_pow_pos g)
  rw [guarded]
  split <;> omega

theorem toNat_mant_shift (hM : M.Lawful F) (hA : A.Lawful F.fracBits) (x : BitVec w) :
    (M.mant x <<< A.guard).toNat = F.significand x * 2 ^ A.guard := by
  have hlt : F.significand x * 2 ^ A.guard < 2 * 2 ^ (F.fracBits + A.guard) := by
    rw [← Nat.pow_succ', Nat.succ_eq_add_one, Nat.add_right_comm, Nat.pow_add]
    exact Nat.mul_lt_mul_of_pos_right Format.significand_bounds.2 (Nat.two_pow_pos _)
  have hw := two_pow_width hA
  rw [BitVec.toNat_shiftLeft, Nat.shiftLeft_eq, hM.mant_eq, Nat.mod_eq_of_lt (by omega)]

theorem toInt_signed (hM : M.Lawful F) (hA : A.Lawful F.fracBits) (x : BitVec w) :
    (signed M A x).toInt = guarded F A.guard x := by
  have hnat := toNat_mant_shift hM hA x
  obtain ⟨hlow, hhigh⟩ := guarded_bounds (F := F) A.guard x
  have hw := two_pow_width hA
  rw [guarded] at *
  rw [signed, hM.sign_eq]
  cases hmsb : x.msb
  · rw [hmsb, if_neg Bool.false_ne_true, one_mul] at hhigh
    rw [if_neg (by decide), if_neg Bool.false_ne_true, one_mul, ← hnat,
      BitVec.toInt_eq_toNat_of_lt (by omega)]
  · rw [hmsb, if_pos rfl] at hlow
    rw [if_pos (by decide), if_pos rfl, BitVec.toInt_neg,
      BitVec.toInt_eq_toNat_of_lt (by omega), hnat, neg_one_mul,
      Int.bmod_eq_of_le_mul_two (by omega) (by omega)]

/-- The shift to the right rounds down. -/
theorem toInt_shifted (hM : M.Lawful F) (hA : A.Lawful F.fracBits) (x : BitVec w) (d : ℕ) :
    ((signed M A x).sshiftRight d).toInt = guarded F A.guard x / 2 ^ d := by
  rw [BitVec.toInt_sshiftRight, toInt_signed hM hA, Int.shiftRight_eq_div_pow]
  push_cast
  rfl

/-- What is shifted to the right stays within its bounds. -/
theorem shifted_bounds (g d : ℕ) (x : BitVec w) :
    -(2 * 2 ^ (F.fracBits + g) : ℕ) ≤ guarded F g x / 2 ^ d ∧
      guarded F g x / 2 ^ d < (2 * 2 ^ (F.fracBits + g) : ℕ) := by
  obtain ⟨hlow, hhigh⟩ := guarded_bounds (F := F) g x
  have hpos : (0 : ℤ) < 2 ^ d := by positivity
  have hone : (1 : ℤ) ≤ 2 ^ d := hpos
  constructor
  · rw [Int.le_ediv_iff_mul_le hpos]
    nlinarith
  · rw [Int.ediv_lt_iff_lt_mul hpos]
    nlinarith

theorem alignedSum_bounds (g : ℕ) (a b : BitVec w) :
    -(4 * 2 ^ (F.fracBits + g) : ℕ) < alignedSum F g a b ∧
      alignedSum F g a b < (4 * 2 ^ (F.fracBits + g) : ℕ) := by
  obtain ⟨hlow, hhigh⟩ := guarded_bounds (F := F) g a
  obtain ⟨hlow', hhigh'⟩ := guarded_bounds (F := F) g b
  rw [alignedSum]
  split
  · obtain ⟨hshift, hshift'⟩ := shifted_bounds (F := F) g (F.exponent a - F.exponent b) b
    omega
  · obtain ⟨hshift, hshift'⟩ := shifted_bounds (F := F) g (F.exponent b - F.exponent a) a
    omega

/-- The sum does not overflow. -/
theorem toInt_sum (hM : M.Lawful F) (hA : A.Lawful F.fracBits) (a b : BitVec w) :
    (sum M A a b).mant1.toInt = alignedSum F A.guard a b ∧
      (sum M A a b).exp1 = max (F.exponent a) (F.exponent b) := by
  have hw := two_pow_width hA
  obtain ⟨hlow, hhigh⟩ := alignedSum_bounds (F := F) A.guard a b
  have hbmod : (alignedSum F A.guard a b).bmod (2 ^ w) = alignedSum F A.guard a b :=
    Int.bmod_eq_of_le_mul_two (by omega) (by omega)
  rw [alignedSum] at hbmod ⊢
  rw [sum, hM.exp_eq, hM.exp_eq]
  by_cases h : F.exponent b < F.exponent a
  · have hdiff : ((F.exponent a : ℤ) - F.exponent b).toNat = F.exponent a - F.exponent b := by omega
    rw [if_pos h] at hbmod ⊢
    rw [if_pos (Nat.cast_lt.mpr h), BitVec.toInt_add, toInt_signed hM hA,
      toInt_shifted hM hA, hdiff]
    exact ⟨hbmod, congrArg Nat.cast (max_eq_left h.le).symm⟩
  · have hdiff : ((F.exponent b : ℤ) - F.exponent a).toNat = F.exponent b - F.exponent a := by omega
    rw [if_neg h] at hbmod ⊢
    rw [if_neg (by omega), BitVec.toInt_add, toInt_signed hM hA,
      toInt_shifted hM hA, hdiff]
    exact ⟨hbmod, congrArg Nat.cast (max_eq_right (Nat.le_of_not_lt h)).symm⟩

/-- The operands can be exchanged: at equal exponents nothing is shifted. -/
theorem alignedSum_comm (g : ℕ) (a b : BitVec w) : alignedSum F g a b = alignedSum F g b a := by
  rw [alignedSum, alignedSum]
  rcases Nat.lt_trichotomy (F.exponent a) (F.exponent b) with hlt | heq | hgt
  · rw [if_neg (Nat.not_lt_of_lt hlt), if_pos hlt, add_comm]
  · rw [heq, if_neg (Nat.lt_irrefl _), if_neg (Nat.lt_irrefl _), Nat.sub_self, pow_zero,
      Int.ediv_one, Int.ediv_one, add_comm]
  · rw [if_pos hgt, if_neg (Nat.not_lt_of_lt hgt), add_comm]

end Sum

/-! ## The length of a significand -/

/-- `m` brought to the length of a significand with `g` guard bits, with the exponent for it. -/
structure Normalized (f g m : ℕ) (e : ℤ) (n : ℕ) (y : ℤ) : Prop where
  low : 2 ^ (f + g) ≤ n
  high : n < 2 * 2 ^ (f + g)
  scaled : (∃ k : ℕ, n = m * 2 ^ k ∧ y + k = e) ∨ n = m / 2 ∧ y = e + 1 ∧ 2 * 2 ^ (f + g) ≤ m

/-- What is rounded, before the guard bits are dropped. -/
def roundEven (g n : ℕ) : ℕ := n + if n / 2 ^ g % 2 = 0 then 2 ^ (g - 1) - 1 else 2 ^ (g - 1)

/-- The rounding carries out of the significand. -/
def Carries (f g n : ℕ) : Prop := 2 * 2 ^ (f + g) ≤ roundEven g n

instance (f g n : ℕ) : Decidable (Carries f g n) := inferInstanceAs (Decidable (_ ≤ _))

/-- The significand of the rounded sum. -/
def roundedSum (f g n : ℕ) : ℕ := if Carries f g n then 2 ^ f else roundEven g n / 2 ^ g

theorem roundEven_bounds (g n : ℕ) : n ≤ roundEven g n ∧ roundEven g n ≤ n + 2 ^ (g - 1) := by
  have hpos := Nat.two_pow_pos (g - 1)
  rw [roundEven]
  split <;> omega

section Finish

variable {M : Macros w} {A : Adder w} {F : Format} {fuel : ℕ} {s : Vars w}

theorem iterate_double_exp1 (k : ℕ) : (double^[k] s).exp1 = s.exp1 - k := by
  induction k with
  | zero => rw [Nat.cast_zero, sub_zero]; rfl
  | succ k ih =>
    rw [Function.iterate_succ_apply', double, ih, Nat.cast_succ]
    ring

theorem toNat_double (hA : A.Lawful F.fracBits)
    (hlt : s.mant1.toNat < 2 ^ (F.fracBits + A.guard)) :
    (double s).mant1.toNat = s.mant1.toNat * 2 := by
  have hw := two_pow_width hA
  rw [double, BitVec.toNat_shiftLeft, Nat.shiftLeft_eq, Nat.pow_one, Nat.mod_eq_of_lt (by omega)]

/-- The loop ends at the length of a significand with guard bits, or where it starts. -/
theorem normalizeUp_eq (hA : A.Lawful F.fracBits) (hfuel : F.fracBits + A.guard < fuel)
    (hpos : 0 < s.mant1.toNat) (hlt : s.mant1.toNat < 4 * 2 ^ (F.fracBits + A.guard)) :
    ∃ k t, normalizeUp A fuel s = some t ∧ t.exp1 + (k : ℕ) = s.exp1 ∧
      t.mant1.toNat = s.mant1.toNat * 2 ^ k ∧ 2 ^ (F.fracBits + A.guard) ≤ t.mant1.toNat ∧
      (k = 0 ∨ t.mant1.toNat < 2 * 2 ^ (F.fracBits + A.guard)) := by
  have htest : ∀ x : Vars w, x.mant1.toNat < 4 * 2 ^ (F.fracBits + A.guard) →
      (decide (x.mant1 &&& A.up = 0) = true ↔ x.mant1.toNat < 2 ^ (F.fracBits + A.guard)) :=
    fun x _ => by rw [decide_eq_true_eq, hA.up_iff]
  have hbody : ∀ x : Vars w, x.mant1.toNat < 4 * 2 ^ (F.fracBits + A.guard) →
      x.mant1.toNat < 2 ^ (F.fracBits + A.guard) →
      (double x).mant1.toNat < 4 * 2 ^ (F.fracBits + A.guard) ∧
        (double x).mant1.toNat = x.mant1.toNat * 2 ^ 1 := fun x _ hx => by
    have hdouble := toNat_double hA hx
    exact ⟨by omega, hdouble⟩
  obtain ⟨k, hloop, -, hvalue, hle, hend⟩ :=
    Lib.whileLoop_scale (c := 1) (by decide) htest hbody hlt hpos hfuel
  rw [Nat.one_mul] at hvalue
  rw [Nat.pow_succ'] at hend
  exact ⟨k, _, hloop, by rw [iterate_double_exp1]; ring, hvalue, hle, hend⟩

theorem normalizeDown_eq (hA : A.Lawful F.fracBits)
    (hlt : s.mant1.toNat < 4 * 2 ^ (F.fracBits + A.guard)) :
    (s.mant1.toNat < 2 * 2 ^ (F.fracBits + A.guard) → normalizeDown A s = s) ∧
      (2 * 2 ^ (F.fracBits + A.guard) ≤ s.mant1.toNat →
        (normalizeDown A s).mant1.toNat = s.mant1.toNat / 2 ∧
          (normalizeDown A s).exp1 = s.exp1 + 1) := by
  have hw := two_pow_width hA
  have hone : 2 ^ (F.fracBits + A.guard + 1) = 2 * 2 ^ (F.fracBits + A.guard) := Nat.pow_succ'
  have htwo : 2 ^ (F.fracBits + A.guard + 2) = 4 * 2 ^ (F.fracBits + A.guard) := by
    rw [Nat.pow_add, Nat.mul_comm]
  have hiff := hA.down_iff s.mant1 (by omega)
  rw [hone] at hiff
  constructor
  · intro hsmall
    rw [normalizeDown, if_neg (not_not.mpr (hiff.mpr hsmall))]
  · intro hlarge
    have hne : s.mant1 &&& A.down ≠ 0 := fun h => absurd (hiff.mp h) (Nat.not_lt_of_le hlarge)
    rw [normalizeDown, if_pos hne]
    refine ⟨?_, rfl⟩
    show (s.mant1.sshiftRight 1).toNat = _
    rw [Lib.toNat_sshiftRight (by omega), Nat.pow_one]

/-- Both normalizations. -/
theorem normalize_eq (hA : A.Lawful F.fracBits) (hfuel : F.fracBits + A.guard < fuel)
    (hpos : 0 < s.mant1.toNat) (hlt : s.mant1.toNat < 4 * 2 ^ (F.fracBits + A.guard)) :
    ∃ t, normalizeUp A fuel s = some t ∧ Normalized F.fracBits A.guard s.mant1.toNat s.exp1
      (normalizeDown A t).mant1.toNat (normalizeDown A t).exp1 := by
  obtain ⟨k, t, hloop, hexp, hvalue, hle, hend⟩ := normalizeUp_eq hA hfuel hpos hlt
  have htlt : t.mant1.toNat < 4 * 2 ^ (F.fracBits + A.guard) := by
    rcases hend with rfl | hless
    · rw [hvalue, Nat.pow_zero, Nat.mul_one]
      exact hlt
    · omega
  obtain ⟨hsmall, hlarge⟩ := normalizeDown_eq hA htlt
  refine ⟨t, hloop, ?_⟩
  rcases Nat.lt_or_ge t.mant1.toNat (2 * 2 ^ (F.fracBits + A.guard)) with hless | hge
  · rw [hsmall hless]
    exact ⟨hle, hless, .inl ⟨k, hvalue, hexp⟩⟩
  · -- nothing has been shifted up
    obtain ⟨hhalf, hexp'⟩ := hlarge hge
    obtain rfl : k = 0 := hend.resolve_right (Nat.not_lt_of_le hge)
    rw [Nat.pow_zero, Nat.mul_one] at hvalue
    rw [Nat.cast_zero, add_zero] at hexp
    rw [hhalf, hexp', hexp, hvalue]
    exact ⟨by omega, by omega, .inr ⟨rfl, rfl, hvalue ▸ hge⟩⟩

theorem toNat_rounding (hA : A.Lawful F.fracBits) (x : BitVec w) : (rounding A x).toNat =
    if x.toNat / 2 ^ A.guard % 2 = 0 then 2 ^ (A.guard - 1) - 1 else 2 ^ (A.guard - 1) := by
  rw [rounding]
  by_cases heven : x.toNat / 2 ^ A.guard % 2 = 0
  · rw [if_neg (not_not.mpr ((hA.odd_iff x).mpr heven)), if_pos heven, hA.below_eq]
  · rw [if_pos fun h => heven ((hA.odd_iff x).mp h), if_neg heven, hA.half_eq]

/-- Half a unit is at most the length of a significand with guard bits. -/
theorem half_le (f g : ℕ) : 2 ^ (g - 1) ≤ 2 ^ (f + g) :=
  Nat.pow_le_pow_right (by decide) (by omega)

theorem toNat_round (hA : A.Lawful F.fracBits)
    (hlt : s.mant1.toNat < 2 * 2 ^ (F.fracBits + A.guard)) :
    (round A s).mant1.toNat = roundEven A.guard s.mant1.toNat := by
  have hw := two_pow_width hA
  have hhalf := half_le F.fracBits A.guard
  have hle := (roundEven_bounds A.guard s.mant1.toNat).2
  show (s.mant1 + rounding A s.mant1).toNat = _
  rw [BitVec.toNat_add, toNat_rounding hA, ← roundEven, Nat.mod_eq_of_lt (by omega)]

/-- The rounded significand has its length. -/
theorem roundedSum_bounds {f g n : ℕ} (hlow : 2 ^ (f + g) ≤ n) :
    2 ^ f ≤ roundedSum f g n ∧ roundedSum f g n < 2 ^ (f + 1) := by
  have hle := (roundEven_bounds g n).1
  rw [roundedSum]
  split
  · exact ⟨le_rfl, Nat.pow_lt_pow_right (by decide) (Nat.lt_succ_self f)⟩
  · rename_i hcarry
    constructor
    · rw [Nat.le_div_iff_mul_le (Nat.two_pow_pos _), ← Nat.pow_add]
      exact hlow.trans hle
    · rw [Nat.div_lt_iff_lt_mul (Nat.two_pow_pos _), ← Nat.pow_add, Nat.add_right_comm,
        Nat.pow_succ']
      exact Nat.lt_of_not_le hcarry

/-- The last normalization and the loss of the guard bits. -/
theorem toNat_rounded (hA : A.Lawful F.fracBits)
    (hhigh : s.mant1.toNat < 2 * 2 ^ (F.fracBits + A.guard)) :
    ((normalizeDown A (round A s)).mant1.sshiftRight A.guard).toNat =
        roundedSum F.fracBits A.guard s.mant1.toNat ∧
      (normalizeDown A (round A s)).exp1 =
        s.exp1 + if Carries F.fracBits A.guard s.mant1.toNat then 1 else 0 := by
  have hw := two_pow_width hA
  have hhalf := half_le F.fracBits A.guard
  have hround := toNat_round hA hhigh
  have hle := (roundEven_bounds A.guard s.mant1.toNat).2
  obtain ⟨hsmall, hlarge⟩ := normalizeDown_eq hA (s := round A s) (by omega)
  rw [hround] at hsmall hlarge
  rw [roundedSum]
  by_cases hcarry : Carries F.fracBits A.guard s.mant1.toNat
  · obtain ⟨hmant, hexp⟩ := hlarge hcarry
    rw [if_pos hcarry, if_pos hcarry, hexp, Lib.toNat_sshiftRight (by omega), hmant,
      Nat.div_div_eq_div_mul, ← Nat.pow_succ', Nat.succ_eq_add_one]
    refine ⟨?_, rfl⟩
    have hsplit : 2 * 2 ^ (F.fracBits + A.guard) = 2 ^ F.fracBits * 2 ^ (A.guard + 1) := by
      rw [← Nat.pow_add, ← Nat.pow_succ']
      rfl
    have hunit : 2 ^ (A.guard - 1) ≤ 2 ^ (A.guard + 1) :=
      Nat.pow_le_pow_right (by decide) (by omega)
    have hcarry' : 2 * 2 ^ (F.fracBits + A.guard) ≤ roundEven A.guard s.mant1.toNat := hcarry
    refine Nat.div_eq_of_lt_le (by omega) ?_
    rw [Nat.add_mul, Nat.one_mul]
    omega
  · have hless : roundEven A.guard s.mant1.toNat < 2 * 2 ^ (F.fracBits + A.guard) :=
      Nat.lt_of_not_le hcarry
    rw [hsmall hless, if_neg hcarry, if_neg hcarry, Lib.toNat_sshiftRight (by omega), hround]
    exact ⟨rfl, (add_zero _).symm⟩

theorem toNat_magnitude : (magnitude s).mant1.toNat = s.mant1.toInt.natAbs := by
  have hisLt := s.mant1.isLt
  have hcond := BitVec.toInt_eq_toNat_cond s.mant1
  rw [magnitude]
  have hzero : (0 : BitVec w).toInt = 0 := BitVec.toInt_zero
  by_cases hneg : s.mant1.slt 0 = true
  · have hless : s.mant1.toInt < 0 := by
      rw [BitVec.slt, decide_eq_true_eq, hzero] at hneg
      exact hneg
    show (if s.mant1.slt 0 then -s.mant1 else s.mant1).toNat = _
    rw [if_pos hneg, BitVec.toNat_neg]
    rw [hcond] at hless ⊢
    split at hless
    · omega
    · rw [if_neg ‹_›, Nat.mod_eq_of_lt (by omega)]
      omega
  · have hge : 0 ≤ s.mant1.toInt := by
      rw [BitVec.slt, decide_eq_true_eq, hzero] at hneg
      exact not_lt.mp hneg
    show (if s.mant1.slt 0 then -s.mant1 else s.mant1).toNat = _
    rw [if_neg hneg]
    rw [hcond] at hge ⊢
    split at hge
    · rw [if_pos ‹_›]
      omega
    · omega

/-- A sum other than 0 is normalized, rounded and packed. -/
theorem finish_eq (hM : M.Lawful F) (hA : A.Lawful F.fracBits)
    (hfuel : F.fracBits + A.guard < fuel) (hne : s.mant1.toInt ≠ 0)
    (hlow : -(4 * 2 ^ (F.fracBits + A.guard) : ℕ) < s.mant1.toInt)
    (hhigh : s.mant1.toInt < (4 * 2 ^ (F.fracBits + A.guard) : ℕ)) :
    ∃ n y, ∃ m : BitVec w,
      Normalized F.fracBits A.guard s.mant1.toInt.natAbs s.exp1 n y ∧
      finish M A fuel s = some (M.pack (signOf (decide (s.mant1.toInt < 0)))
        (y + if Carries F.fracBits A.guard n then 1 else 0) m) ∧
      2 ^ F.fracBits + m.toNat = roundedSum F.fracBits A.guard n := by
  have hw := two_pow_width hA
  have hmagnitude := toNat_magnitude (s := s)
  obtain ⟨t, hloop, hnormal⟩ := normalize_eq hA (s := magnitude s) hfuel (by omega) (by omega)
  obtain ⟨hmant, hexp⟩ := toNat_rounded hA hnormal.high
  obtain ⟨hround, hround'⟩ := roundedSum_bounds hnormal.low
  have hzero : s.mant1 ≠ 0 := fun h => hne (by rw [h]; exact BitVec.toInt_zero)
  rw [hmagnitude] at hnormal
  refine ⟨_, _, (normalizeDown A (round A (normalizeDown A t))).mant1.sshiftRight A.guard &&&
    ~~~M.hidden, hnormal, ?_, ?_⟩
  · rw [finish, if_neg hzero, hloop, Option.bind_eq_bind, Option.bind_some, ← hexp]
    have hsign : (if s.mant1.slt 0 then signbit else 0) =
        signOf (decide (s.mant1.toInt < 0)) := by
      rw [signOf, BitVec.slt]
      have hzero' : (0 : BitVec w).toInt = 0 := BitVec.toInt_zero
      rw [hzero']
    rw [hsign]
    rfl
  · rw [hM.clear_hidden (by rw [hmant]; exact hround) (by rw [hmant]; exact hround'), hmant]

end Finish

end FloatAddition

end HfRisc.Soft
