import HfRisc.Lib.Rounding
import HfRisc.Soft.FloatWord

/-!
# The macros of both formats (`libc.h`)

The operations on `float` and on `double` are the same code with other constants and with the
macros of the format. An exponent is an `int` that is far from its bounds, and it is packed as it
is: what does not fit goes to the sign, by an `or` in a `float` and by a sum in a `double`.
-/

namespace HfRisc.Soft

open HfRisc.Lib (Format)

/-- The macros of a format. -/
structure Macros (w : ℕ) where
  exp : BitVec w → ℤ
  mant : BitVec w → BitVec w
  sign : BitVec w → Word
  pack : Word → ℤ → BitVec w → BitVec w
  hidden : BitVec w
  excess : ℤ

/-- `PACKD_LL`. -/
def packdLl (s e : Word) (m : BitVec 64) : BitVec 64 :=
  (s + e <<< 20).signExtend 64 <<< 32 ||| m

/-- `EXP`, `MANT`, `SIGN`, `PACK`, `HIDDEN` and `EXCESS`. -/
def single : Macros 32 where
  exp fp := (exp fp).toNat
  mant := mant
  sign := sign
  pack s e m := pack s (BitVec.ofInt 32 e) m
  hidden := hidden
  excess := excess.toNat

/-- `EXPD`, `MANTD_LL`, `SIGND`, `PACKD_LL`, `HIDDEND_LL` and `EXCESSD`. -/
def double : Macros 64 where
  exp fp := (expd fp).toNat
  mant := mantdLl
  sign := signd
  pack s e m := packdLl s (BitVec.ofInt 32 e) m
  hidden := hiddendLl
  excess := excessd.toNat

/-- The sign bit of a number. -/
def signOf (neg : Bool) : Word := if neg then signbit else 0

/-- The macros are those of the format `F`. -/
structure Macros.Lawful {w : ℕ} (M : Macros w) (F : Format) : Prop where
  width : F.fracBits + 3 < w
  exp_eq : ∀ x, M.exp x = F.exponent x
  mant_eq : ∀ x, (M.mant x).toNat = F.significand x
  sign_eq : ∀ x, M.sign x = signOf x.msb
  hidden_eq : M.hidden.toNat = 2 ^ F.fracBits
  excess_eq : M.excess + 1 = F.bias
  /-- An exponent that fits is packed next to the sign. -/
  fields : ∀ (neg : Bool) (e : ℕ) (m : BitVec w), e < 2 ^ (w - 1 - F.fracBits) →
    m.toNat < 2 ^ F.fracBits → (M.pack (signOf neg) e m).msb = neg ∧
      F.exponent (M.pack (signOf neg) e m) = e ∧ F.fraction (M.pack (signOf neg) e m) = m.toNat

/-- A significand without its implicit bit. -/
theorem Macros.Lawful.clear_hidden {w : ℕ} {M : Macros w} {F : Format} (hM : M.Lawful F)
    {x : BitVec w} (hx : 2 ^ F.fracBits ≤ x.toNat) (hx' : x.toNat < 2 ^ (F.fracBits + 1)) :
    2 ^ F.fracBits + (x &&& ~~~M.hidden).toNat = x.toNat := by
  rw [Lib.toNat_clear hM.hidden_eq hx', Nat.mod_eq_sub_mod hx, Nat.mod_eq_of_lt]
  · omega
  · rw [Nat.pow_succ] at hx'
    omega

/-! ## `float` -/

theorem toNat_signOf (neg : Bool) : (signOf neg).toNat = if neg then 2 ^ 31 else 0 := by
  cases neg <;> rfl

theorem signOf_xor (b c : Bool) : signOf b ^^^ signOf c = signOf (b ^^ c) := by
  cases b <;> cases c <;> rfl

theorem toNat_ofInt_natCast {e : ℕ} (he : e < 2 ^ 32) : (BitVec.ofInt 32 (e : ℤ)).toNat = e := by
  rw [BitVec.ofInt_natCast, BitVec.toNat_ofNat, Nat.mod_eq_of_lt he]

theorem lawful_single : single.Lawful binary32 where
  width := by decide
  exp_eq x := by
    show ((exp x).toNat : ℤ) = _
    rw [toNat_exp, exponent_eq]
  mant_eq x := by
    show (mant x).toNat = _
    rw [toNat_mant, ← fraction_eq32]
    rfl
  sign_eq := sign_eq
  hidden_eq := rfl
  excess_eq := rfl
  fields neg e m he hm := by
    have he' : e < 2 ^ 8 := he
    have hm' : m.toNat < 2 ^ 23 := hm
    have hexp := toNat_ofInt_natCast (e := e) (by omega)
    have hnat := toNat_pack (s := signOf neg) (e := BitVec.ofInt 32 e) (m := m)
      (by cases neg <;> decide) (by omega) hm'
    rw [hexp, toNat_signOf] at hnat
    have hpack : single.pack (signOf neg) e m = pack (signOf neg) (BitVec.ofInt 32 e) m := rfl
    rw [hpack, exponent_eq, fraction_eq32, BitVec.msb_eq_decide, hnat]
    cases neg
    · rw [if_neg Bool.false_ne_true]
      exact ⟨decide_eq_false (by omega), by omega, by omega⟩
    · rw [if_pos rfl]
      exact ⟨decide_eq_true (by omega), by omega, by omega⟩

/-! ## `double` -/

theorem toNat_packdLl (s e : Word) {m : BitVec 64} (hs : 2 ^ 31 ∣ s.toNat) (hm : m.toNat < 2 ^ 52) :
    (packdLl s e m).toNat = (s.toNat + e.toNat * 2 ^ 20) % 2 ^ 32 * 2 ^ 32 + m.toNat := by
  have hword : (s + e <<< 20).toNat = (s.toNat + e.toNat * 2 ^ 20) % 2 ^ 32 := by
    rw [BitVec.toNat_add, BitVec.toNat_shiftLeft, Nat.shiftLeft_eq]
    omega
  have hraised : ((s + e <<< 20).signExtend 64 <<< 32).toNat = (s + e <<< 20).toNat * 2 ^ 32 := by
    have hlt := (s + e <<< 20).isLt
    rw [BitVec.toNat_shiftLeft, Nat.shiftLeft_eq, BitVec.toNat_signExtend, BitVec.toNat_setWidth]
    split <;> omega
  rw [packdLl, Lib.toNat_or_of_dvd (i := 52) _ hm, hraised, hword]
  rw [hraised, hword]
  omega

theorem lawful_double : double.Lawful binary64 where
  width := by decide
  exp_eq x := congrArg Nat.cast (toNat_expd x)
  mant_eq x := by
    show (mantdLl x).toNat = _
    rw [Lib.Format.significand, fraction_eq]
    exact Lib.toNat_or_hidden (by decide) (by decide)
  sign_eq x := by
    show signd x = _
    rw [← msb_upper]
    exact sign_eq (upper x)
  hidden_eq := rfl
  excess_eq := rfl
  fields neg e m he hm := by
    have he' : e < 2 ^ 11 := he
    have hm' : m.toNat < 2 ^ 52 := hm
    have hexp := toNat_ofInt_natCast (e := e) (by omega)
    have hnat := toNat_packdLl (signOf neg) (BitVec.ofInt 32 e) (by cases neg <;> decide) hm'
    rw [hexp, toNat_signOf] at hnat
    have hpack : double.pack (signOf neg) e m = packdLl (signOf neg) (BitVec.ofInt 32 e) m := rfl
    have hexponent : ∀ x : BitVec 64, binary64.exponent x = x.toNat / 2 ^ 52 % 2 ^ 11 := fun x => by
      show x.toNat % 2 ^ 63 / 2 ^ 52 = _
      omega
    rw [hpack, hexponent, fraction_eq, BitVec.msb_eq_decide, hnat]
    cases neg
    · rw [if_neg Bool.false_ne_true]
      exact ⟨decide_eq_false (by omega), by omega, by omega⟩
    · rw [if_pos rfl]
      exact ⟨decide_eq_true (by omega), by omega, by omega⟩

end HfRisc.Soft
