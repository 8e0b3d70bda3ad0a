import HfRisc.Lib.Bits
import HfRisc.Lib.Rijndael
import Mathlib.Tactic.IntervalCases

/-!
# Words of four bytes

The operations on a 32-bit word, byte by byte, and the product with `x` of four bytes at once.
-/

namespace HfRisc.Lib

/-- The word of four bytes, the first one on top. -/
def word4 (a b c d : BitVec 8) : BitVec 32 := a ++ b ++ c ++ d

section Bytes

variable (a b c d a' b' c' d' : BitVec 8)

theorem word4_bytes (w : BitVec 32) :
    word4 (w.extractLsb' 24 8) (w.extractLsb' 16 8) (w.extractLsb' 8 8) (w.extractLsb' 0 8) = w :=
  append_bytes w

/-- The bits of a word. -/
theorem getLsbD_word4 (i : ℕ) : (word4 a b c d).getLsbD i =
    if i < 8 then d.getLsbD i else if i < 16 then c.getLsbD (i - 8)
    else if i < 24 then b.getLsbD (i - 16) else a.getLsbD (i - 24) := by
  show (a ++ b ++ c ++ d).getLsbD i = _
  simp only [BitVec.getLsbD_append, Nat.sub_sub]
  split_ifs <;> first | rfl | omega

theorem word4_xor : word4 a b c d ^^^ word4 a' b' c' d' =
    word4 (a ^^^ a') (b ^^^ b') (c ^^^ c') (d ^^^ d') := by
  apply BitVec.eq_of_getLsbD_eq
  intro i hi
  simp only [BitVec.getLsbD_xor, getLsbD_word4]
  split_ifs <;> rfl

theorem word4_or : word4 a b c d ||| word4 a' b' c' d' =
    word4 (a ||| a') (b ||| b') (c ||| c') (d ||| d') := by
  apply BitVec.eq_of_getLsbD_eq
  intro i hi
  simp only [BitVec.getLsbD_or, getLsbD_word4]
  split_ifs <;> rfl

theorem word4_and : word4 a b c d &&& word4 a' b' c' d' =
    word4 (a &&& a') (b &&& b') (c &&& c') (d &&& d') := by
  apply BitVec.eq_of_getLsbD_eq
  intro i hi
  simp only [BitVec.getLsbD_and, getLsbD_word4]
  split_ifs <;> rfl

theorem toNat_word4 : (word4 a b c d).toNat =
    a.toNat * 2 ^ 24 + b.toNat * 2 ^ 16 + c.toNat * 2 ^ 8 + d.toNat := by
  simp only [word4, toNat_append]
  omega

theorem setWidth_byte : a.setWidth 32 = word4 0 0 0 a := by
  apply BitVec.eq_of_toNat_eq
  simp only [toNat_word4, BitVec.toNat_setWidth, BitVec.ofNat_eq_ofNat, BitVec.toNat_ofNat]
  omega

theorem word4_shiftLeft_8 : word4 a b c d <<< 8 = word4 b c d 0 := by
  apply BitVec.eq_of_toNat_eq
  simp only [toNat_word4, BitVec.toNat_shiftLeft, Nat.shiftLeft_eq, BitVec.ofNat_eq_ofNat,
    BitVec.toNat_ofNat]
  omega

theorem word4_shiftRight_8 : word4 a b c d >>> 8 = word4 0 a b c := by
  apply BitVec.eq_of_toNat_eq
  simp only [toNat_word4, BitVec.toNat_ushiftRight, Nat.shiftRight_eq_div_pow,
    BitVec.ofNat_eq_ofNat, BitVec.toNat_ofNat]
  omega

theorem word4_shiftLeft_16 : word4 a b c d <<< 16 = word4 c d 0 0 := by
  rw [show 16 = 8 + 8 from rfl, BitVec.shiftLeft_add, word4_shiftLeft_8, word4_shiftLeft_8]

theorem word4_shiftLeft_24 : word4 a b c d <<< 24 = word4 d 0 0 0 := by
  rw [show 24 = 16 + 8 from rfl, BitVec.shiftLeft_add, word4_shiftLeft_16, word4_shiftLeft_8]

theorem word4_shiftRight_16 : word4 a b c d >>> 16 = word4 0 0 a b := by
  rw [show 16 = 8 + 8 from rfl, BitVec.shiftRight_add, word4_shiftRight_8, word4_shiftRight_8]

theorem word4_shiftRight_24 : word4 a b c d >>> 24 = word4 0 0 0 a := by
  rw [show 24 = 16 + 8 from rfl, BitVec.shiftRight_add, word4_shiftRight_16, word4_shiftRight_8]

/-- The lowest byte. -/
theorem word4_low : word4 a b c d &&& 0xff = d.setWidth 32 := by
  rw [setWidth_byte, show (0xff : BitVec 32) = word4 0 0 0 0xff from rfl, word4_and,
    show (0xff : BitVec 8) = BitVec.allOnes 8 from rfl, BitVec.and_allOnes]
  simp only [BitVec.ofNat_eq_ofNat, BitVec.and_zero]

/-- A word put together from its bytes. -/
theorem or_bytes : (a.setWidth 32 <<< 24) ||| (b.setWidth 32 <<< 16) ||| (c.setWidth 32 <<< 8) |||
    d.setWidth 32 = word4 a b c d := by
  simp only [setWidth_byte, word4_shiftLeft_8, word4_shiftLeft_16, word4_shiftLeft_24, word4_or,
    BitVec.ofNat_eq_ofNat, BitVec.or_zero, BitVec.zero_or]

end Bytes

/-! ## Four products at once -/

section Products

variable (a b c d : BitVec 8)

/-- Doubled and without the carries from byte to byte. -/
theorem word4_double : (word4 a b c d + word4 a b c d) &&& 0xfefefefe =
    word4 (a <<< 1) (b <<< 1) (c <<< 1) (d <<< 1) := by
  have hdouble : word4 a b c d + word4 a b c d = word4 a b c d <<< 1 := by
    apply BitVec.eq_of_toNat_eq
    rw [BitVec.toNat_add, BitVec.toNat_shiftLeft, Nat.shiftLeft_eq]
    omega
  rw [hdouble]
  apply BitVec.eq_of_getLsbD_eq
  intro i hi
  simp only [BitVec.getLsbD_and, BitVec.getLsbD_shiftLeft, getLsbD_word4]
  interval_cases i <;> simp

/-- The reduction of the bytes whose highest bit has been lost: no byte borrows from the next. -/
theorem word4_reduce :
    ((word4 a b c d &&& (0x80808080 : BitVec 32)) -
        ((word4 a b c d &&& (0x80808080 : BitVec 32)) >>> 7)) &&& 0x1b1b1b1b =
      word4 (if a.msb then 0x1b else 0) (if b.msb then 0x1b else 0) (if c.msb then 0x1b else 0)
        (if d.msb then 0x1b else 0) := by
  have hmsb : ∀ x : BitVec 8, x &&& 0x80 = if x.msb then 0x80 else 0 := by decide
  have hbits : ∀ p q r s : Bool,
      (word4 (if p then 0x80 else 0) (if q then 0x80 else 0) (if r then 0x80 else 0)
          (if s then 0x80 else 0) -
        word4 (if p then 0x80 else 0) (if q then 0x80 else 0) (if r then 0x80 else 0)
          (if s then 0x80 else 0) >>> 7) &&& 0x1b1b1b1b =
        word4 (if p then 0x1b else 0) (if q then 0x1b else 0) (if r then 0x1b else 0)
          (if s then 0x1b else 0) := by
    decide
  rw [show (0x80808080 : BitVec 32) = word4 0x80 0x80 0x80 0x80 from rfl, word4_and, hmsb, hmsb,
    hmsb, hmsb]
  exact hbits _ _ _ _

theorem word4_xtime : ((word4 a b c d + word4 a b c d) &&& 0xfefefefe) ^^^
    (((word4 a b c d &&& (0x80808080 : BitVec 32)) -
        ((word4 a b c d &&& (0x80808080 : BitVec 32)) >>> 7)) &&& 0x1b1b1b1b) =
      word4 (xtime a) (xtime b) (xtime c) (xtime d) := by
  rw [word4_double, word4_reduce, word4_xor]
  rfl

end Products

end HfRisc.Lib
