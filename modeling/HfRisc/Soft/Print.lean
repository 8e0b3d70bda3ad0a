import HfRisc.Lib.Rounding
import HfRisc.Lib.Text
import HfRisc.Lib.While
import HfRisc.Soft.FloatWord
import HfRisc.Soft.Strings
import Mathlib.Algebra.Order.Floor.Semifield

/-!
# Printing (`libc.c`)

`itoa` writes the digits of an integer from the last one on and reverses them. `ftoa` takes the
integer part and 24 bits of the fraction out of a `float`, prints the one with `itoa`, and gets the
digits of the other as what is carried out of 24 bits. A pointer is an index in the buffer.
-/

namespace HfRisc.Soft

open HfRisc.Lib (TextAt)

/-! ## The functions -/

namespace Itoa

/-- The digits of negative numbers, from `z` for -35 on, and of the others. -/
def digits : List (BitVec 8) :=
  "zyxwvutsrqponmlkjihgfedcba9876543210123456789abcdefghijklmnopqrstuvwxyz".toList.map byte

/-- The variables of the loop over the digits. -/
structure Vars where
  buf : ℕ → BitVec 8
  ptr : ℕ
  i : Word
  tmpValue : Word

/-- The body of this loop. -/
def put (base : Word) (s : Vars) : Vars where
  buf := Function.update s.buf s.ptr (digits.getD (35 + (s.i - s.i.sdiv base * base)).toNat 0)
  ptr := s.ptr + 1
  i := s.i.sdiv base
  tmpValue := s.i

/-- The variables of the loop that reverses them. -/
structure Ends where
  buf : ℕ → BitVec 8
  ptr : ℕ
  ptr1 : ℕ

/-- The body of that loop. -/
def swap (s : Ends) : Ends where
  buf := Function.update (Function.update s.buf s.ptr (s.buf s.ptr1)) s.ptr1 (s.buf s.ptr)
  ptr := s.ptr - 1
  ptr1 := s.ptr1 + 1

end Itoa

/-- `itoa`, with the buffer that it leaves. -/
def itoa (fuel : ℕ) (buf : ℕ → BitVec 8) (i : Word) (s : ℕ) (base : Word) :
    Option ((ℕ → BitVec 8) × ℕ) :=
  if base.slt 2 ∨ BitVec.slt 36 base then some (Function.update buf s 0, s)
  else do
    let t ← Lib.whileLoop (fun t => t.i ≠ 0) (Itoa.put base) fuel (Itoa.put base ⟨buf, s, i, 0⟩)
    let t := if t.tmpValue.slt 0 then
      { t with buf := Function.update t.buf t.ptr (byte '-'), ptr := t.ptr + 1 } else t
    let u ← Lib.whileLoop (fun u => u.ptr1 < u.ptr) Itoa.swap fuel
      ⟨Function.update t.buf t.ptr 0, t.ptr - 1, s⟩
    return (u.buf, s)

namespace Ftoa

/-- The integer part of a significand. -/
def intPart (exp2 mantissa : Word) : Word :=
  if exp2.slt (-23) then 0
  else if BitVec.sle 23 exp2 then mantissa <<< (exp2 - 23).toNat
  else if BitVec.sle 0 exp2 then mantissa.sshiftRight (23 - exp2).toNat
  else 0

/-- 24 bits of its fraction. -/
def fracPart (exp2 mantissa : Word) : Word :=
  if exp2.slt (-23) then 0
  else if BitVec.sle 23 exp2 then 0
  else if BitVec.sle 0 exp2 then mantissa <<< (exp2 + 1).toNat &&& 0xffffff
  else (mantissa &&& 0xffffff).sshiftRight (-(exp2 + 1)).toNat

/-- The variables of the loop over the digits of the fraction. -/
structure Vars where
  buf : ℕ → BitVec 8
  p : ℕ
  fracPart : Word
  i : Word

/-- What a digit is taken out of. -/
def tenfold (fracPart : Word) : Word := fracPart <<< 3 + fracPart <<< 1

/-- The body of this loop. -/
def digit (s : Vars) : Vars where
  buf := Function.update s.buf s.p (((tenfold s.fracPart).sshiftRight 24 + 48).setWidth 8)
  p := s.p + 1
  fracPart := tenfold s.fracPart &&& 0xffffff
  i := s.i + 1

/-- The integer part is printed, and `p` is moved behind it. -/
def integer (fuel : ℕ) (buf : ℕ → BitVec 8) (p : ℕ) (intPart : Word) :
    Option ((ℕ → BitVec 8) × ℕ) :=
  if intPart = 0 then some (Function.update buf p (byte '0'), p + 1)
  else do
    let (buf, _) ← itoa fuel buf intPart p 10
    let p ← Lib.whileLoop (fun p => buf p ≠ 0) (· + 1) fuel p
    return (buf, p)

end Ftoa

/-- `__negsf2`. -/
def negsf2 (a1 : Word) : Word := if a1 = 0 then 0 else a1 ^^^ signbit

/-- `ftoa`, with the buffer that it leaves. -/
def ftoa (fuel : ℕ) (f : Word) (outbuf : ℕ → BitVec 8) (precision : Word) :
    Option ((ℕ → BitVec 8) × Word) := do
  let negative := (ltdf2 (extendsfdf2 f) 0).slt 0
  let buf := if negative then Function.update outbuf 0 (byte '-') else outbuf
  let f := if negative then negsf2 f else f
  let p := if negative then 1 else 0
  let exp2 := f.sshiftRight 23 - 127
  let mantissa := (f &&& 0xffffff) ||| 0x800000
  if BitVec.sle 31 exp2 then return (buf, -1)
  else
    let (buf, p) ← Ftoa.integer fuel buf p (Ftoa.intPart exp2 mantissa)
    let buf := Function.update buf p (byte '.')
    let s ← Lib.whileLoop (fun s => s.i.slt precision) Ftoa.digit fuel
      ⟨buf, p + 1, Ftoa.fracPart exp2 mantissa, 0⟩
    return (Function.update s.buf s.p 0, 0)

/-! ## Integers -/

/-- The digits of `n` as bytes. -/
def decimal (n : ℕ) : List (BitVec 8) := (Nat.toDigits 10 n).map byte

theorem decimal_reverse (n : ℕ) : (decimal n).reverse =
    byte (n % 10).digitChar :: if n / 10 = 0 then [] else (decimal (n / 10)).reverse := by
  rw [decimal, ← List.map_reverse, Lib.toDigits_reverse, List.map_cons]
  split
  · rfl
  · rw [List.map_reverse]
    rfl

theorem decimal_ne_zero {n : ℕ} {c : BitVec 8} (h : c ∈ decimal n) : c ≠ 0 := by
  obtain ⟨d, hd, rfl⟩ := List.mem_map.mp h
  have hdigit := Nat.isDigit_of_mem_toDigits (by decide) (by decide) hd
  rw [Char.isDigit_iff_toNat] at hdigit
  intro hzero
  have hnat : d.toNat % 2 ^ 8 = 0 := congrArg BitVec.toNat hzero
  have hfirst : '0'.toNat = 48 := rfl
  have hlast : '9'.toNat = 57 := rfl
  omega

theorem length_decimal {n : ℕ} (h : n < 2 ^ 31) : (decimal n).length ≤ 10 := by
  rw [decimal, List.length_map, Nat.length_toDigits_le_iff (by decide) (by decide)]
  omega

theorem zero_notMem_decimal (n : ℕ) : 0 ∉ decimal n := fun h => decimal_ne_zero h rfl

theorem byte_digitChar_eq : ∀ d < 10, byte d.digitChar = digitByte d := by decide

theorem decimal_eq (n : ℕ) : decimal n = digitText 10 n := by
  rw [digitText_eq (by decide), ← List.reverse_eq_iff]
  induction n using Nat.strong_induction_on with
  | _ n ih =>
    rw [decimal_reverse, Lib.backDigits_eq_cons (by decide), List.map_cons,
      byte_digitChar_eq _ (Nat.mod_lt n (by decide))]
    split
    · rfl
    · next h => rw [ih (n / 10) (by omega)]

namespace Itoa

variable {fuel : ℕ}

/-- The table is the same in both directions. -/
theorem getD_digits : ∀ d < 36,
    digits.getD (35 + d) 0 = digitByte d ∧ digits.getD (35 - d) 0 = digitByte d := by decide

section Put

variable {base : Word} {s : Vars} {neg : Bool}

/-- The first loop as one over the digits of the magnitude. -/
def view : Lib.DigitLoop Vars (BitVec 8) where
  val s := s.i.toInt.natAbs
  ptr := Vars.ptr
  buf := Vars.buf

/-- What is left has the sign of the number, and so has what a round begins with. -/
structure Signed (neg : Bool) (s : Vars) : Prop where
  left : s.i.toInt ≠ 0 → s.i.slt 0 = neg
  tmp : s.tmpValue.slt 0 = neg

theorem toInt_base (h : base.toNat ≤ 36) : base.toInt = base.toNat :=
  BitVec.toInt_eq_toNat_of_lt (by omega)

/-- Division by a base is toward zero, and does not overflow. -/
theorem toInt_sdiv_base (h2 : 2 ≤ base.toNat) (h36 : base.toNat ≤ 36) (i : Word) :
    (i.sdiv base).toInt = i.toInt.tdiv base.toNat := by
  have habs : (i.toInt.tdiv base.toNat).natAbs = i.toInt.natAbs / base.toNat := by
    rw [Int.natAbs_tdiv, Int.natAbs_natCast]
    rfl
  have hhalf : i.toInt.natAbs / base.toNat ≤ i.toInt.natAbs / 2 :=
    Nat.div_le_div_left h2 (by decide)
  have hlow : -2 ^ 31 ≤ i.toInt := BitVec.le_toInt i
  have hhigh : i.toInt < 2 ^ 31 := BitVec.toInt_lt
  rw [BitVec.toInt_sdiv, toInt_base h36, Int.bmod_eq_of_le (by omega) (by omega)]

/-- The index in the table. -/
theorem toNat_index (h2 : 2 ≤ base.toNat) (h36 : base.toNat ≤ 36) (i : Word) :
    ((35 + (i - i.sdiv base * base)).toNat : ℤ) = 35 + i.toInt.tmod base.toNat := by
  have hmod : (i.toInt.tmod base.toNat).natAbs < base.toNat := by
    rw [Int.natAbs_tmod, Int.natAbs_natCast]
    exact Nat.mod_lt _ (by omega)
  have hrest : i.toInt + -(i.toInt.tdiv base.toNat * base.toNat) = i.toInt.tmod base.toNat := by
    rw [Int.tmod_def, mul_comm, sub_eq_add_neg]
  have hword : 35 + (i - i.sdiv base * base) = BitVec.ofInt 32 (35 + i.toInt.tmod base.toNat) := by
    rw [← hrest, BitVec.ofInt_add, BitVec.ofInt_add, BitVec.ofInt_neg, BitVec.ofInt_mul,
      ← toInt_sdiv_base h2 h36, BitVec.ofInt_toInt, BitVec.ofInt_toInt, BitVec.ofInt_natCast,
      BitVec.ofNat_toNat, BitVec.setWidth_eq, ← BitVec.sub_eq_add_neg]
    rfl
  rw [hword, BitVec.toNat_ofInt]
  omega

/-- A round writes the last digit and drops it. -/
theorem writes_put (h2 : 2 ≤ base.toNat) (h36 : base.toNat ≤ 36) (s : Vars) :
    view.Writes base.toNat digitByte s (put base s) where
  val := by
    show (s.i.sdiv base).toInt.natAbs = s.i.toInt.natAbs / base.toNat
    rw [toInt_sdiv_base h2 h36, Int.natAbs_tdiv, Int.natAbs_natCast]
    rfl
  ptr := rfl
  buf := by
    have hindex := toNat_index h2 h36 s.i
    have hmod : (s.i.toInt.tmod base.toNat).natAbs = s.i.toInt.natAbs % base.toNat := by
      rw [Int.natAbs_tmod, Int.natAbs_natCast]
    have hlt : s.i.toInt.natAbs % base.toNat < base.toNat := Nat.mod_lt _ (by omega)
    obtain ⟨hup, hdown⟩ := getD_digits (s.i.toInt.natAbs % base.toNat) (by omega)
    show Function.update s.buf s.ptr _ =
      Function.update s.buf s.ptr (digitByte (s.i.toInt.natAbs % base.toNat))
    congr 1
    rcases Int.natAbs_eq (s.i.toInt.tmod base.toNat) with hnonneg | hneg
    · rw [← hup]
      congr 1
      omega
    · rw [← hdown]
      congr 1
      omega

/-- A quotient that is not 0 has the sign of the dividend. -/
theorem Signed.put (h2 : 2 ≤ base.toNat) (h36 : base.toNat ≤ 36) (h : s.i.slt 0 = neg) :
    Signed neg (put base s) where
  left := by
    show (s.i.sdiv base).toInt ≠ 0 → (s.i.sdiv base).slt 0 = neg
    have hzero : (0 : Word).toInt = 0 := rfl
    rw [← h, BitVec.slt, BitVec.slt, hzero, toInt_sdiv_base h2 h36]
    intro hne
    rw [decide_eq_decide]
    rcases lt_or_ge s.i.toInt 0 with hneg | hnonneg
    · have hopposite := Int.tdiv_nonneg (Int.neg_nonneg.mpr hneg.le) (Int.natCast_nonneg base.toNat)
      rw [Int.neg_tdiv] at hopposite
      omega
    · have hge : 0 ≤ s.i.toInt.tdiv base.toNat := Int.tdiv_nonneg hnonneg (Int.natCast_nonneg _)
      omega
  tmp := h

/-- The first loop writes the digits from the last one on. -/
theorem loop_put (h2 : 2 ≤ base.toNat) (h36 : base.toNat ≤ 36) {i : Word}
    (hfuel : (Lib.backDigits base.toNat i.toInt.natAbs).length ≤ fuel) (buf : ℕ → BitVec 8)
    (a : ℕ) :
    ∃ t, Lib.whileLoop (fun t => t.i ≠ 0) (put base) fuel (put base ⟨buf, a, i, 0⟩) = some t ∧
      t.tmpValue.slt 0 = i.slt 0 ∧
      view.Written digitByte (Lib.backDigits base.toNat i.toInt.natAbs) ⟨buf, a, i, 0⟩ t := by
  have htest : ∀ s, Signed (i.slt 0) s → (decide (s.i ≠ 0) = true ↔ view.val s ≠ 0) :=
    fun s _ => by
      have hzero : s.i.toInt = 0 ↔ s.i = 0 := BitVec.toInt_inj (y := 0)
      rw [decide_eq_true_iff, Ne, Ne, ← hzero, ← Int.natAbs_eq_zero]
      rfl
  have hbody : ∀ s, Signed (i.slt 0) s → view.val s ≠ 0 →
      Signed (i.slt 0) (put base s) ∧ view.Writes base.toNat digitByte s (put base s) :=
    fun s hs hne => ⟨.put h2 h36 (hs.left (Int.natAbs_ne_zero.mp hne)), writes_put h2 h36 s⟩
  obtain ⟨t, hloop, hsigned, hwritten⟩ := Lib.DigitLoop.run_do (L := view) (s := ⟨buf, a, i, 0⟩)
    (show 1 < base.toNat by omega) htest hbody (.put h2 h36 rfl) (writes_put h2 h36 _) hfuel
  exact ⟨t, hloop, hsigned.tmp, hwritten⟩

end Put

/-- The second loop reverses a text. -/
theorem loop_swap (buf : ℕ → BitVec 8) (a : ℕ) {n : ℕ} (hpos : 0 < n) (hfuel : n < fuel) :
    ∃ u t, Lib.whileLoop (fun u => u.ptr1 < u.ptr) swap fuel ⟨buf, a + n - 1, a⟩ = some u ∧
      u.buf = Lib.mirrored a n t buf ∧ n ≤ 2 * t + 1 := by
  -- after `t` rounds `t` elements are exchanged at both ends, and `k` rounds more are enough
  have hround : ∀ k (u : Ends), (∃ t, u.ptr1 = a + t ∧ u.ptr + t + 1 = a + n ∧
      u.buf = Lib.mirrored a n t buf ∧ n ≤ 2 * (t + k) + 1) →
      decide (u.ptr1 < u.ptr) = true →
      ∃ j < k, ∃ t, (swap u).ptr1 = a + t ∧ (swap u).ptr + t + 1 = a + n ∧
        (swap u).buf = Lib.mirrored a n t buf ∧ n ≤ 2 * (t + j) + 1 := by
    rintro k u ⟨t, hptr1, hptr, hbuf, hk⟩ htest
    have hlt : u.ptr1 < u.ptr := of_decide_eq_true htest
    refine ⟨k - 1, by omega, t + 1, ?_, ?_, ?_, by omega⟩
    · show u.ptr1 + 1 = _
      omega
    · show u.ptr - 1 + _ + 1 = _
      omega
    · rw [← Lib.mirrored_succ hlt hptr1 hptr, ← hbuf]
      rfl
  have hlast : a + n - 1 + 0 + 1 = a + n := by omega
  obtain ⟨u, hloop, ⟨j, t, hptr1, hptr, hbuf, -⟩, hexit⟩ := Lib.whileLoop_total hround
    (s := ⟨buf, a + n - 1, a⟩) ⟨0, rfl, hlast, Lib.mirrored_zero.symm, by omega⟩ hfuel
  have hge : ¬u.ptr1 < u.ptr := of_decide_eq_false hexit
  exact ⟨u, t, hloop, hbuf, by omega⟩

/-- What is written from the last element on is reversed, and ended. -/
theorem reversed {buf : ℕ → BitVec 8} {a : ℕ} {text : List (BitVec 8)}
    (h : TextAt buf a text.reverse) (hpos : 0 < text.length) (hfuel : text.length < fuel) :
    ∃ u, Lib.whileLoop (fun u => u.ptr1 < u.ptr) swap fuel
        ⟨Function.update buf (a + text.length) 0, a + text.length - 1, a⟩ = some u ∧
      TextAt u.buf a (text ++ [0]) ∧ ∀ j < a, u.buf j = buf j := by
  obtain ⟨u, k, hswap, hbuf, hk⟩ := loop_swap (Function.update buf (a + text.length) 0) a hpos hfuel
  have hreversed : TextAt (Function.update buf (a + text.length) 0) a text.reverse :=
    h.congr fun j _ hj => Function.update_of_ne (by
      rw [List.length_reverse] at hj
      exact hj.ne) _ _
  have htext := hreversed.mirrored (t := k) (by rw [List.length_reverse]; exact hk)
  rw [List.length_reverse, List.reverse_reverse, ← hbuf] at htext
  have hend : u.buf (a + text.length) = 0 := by
    rw [hbuf, Lib.mirrored, if_neg (by omega), Function.update_self]
  refine ⟨u, hswap, TextAt.append_iff.mpr ⟨htext, TextAt.cons_iff.mpr ⟨hend, TextAt.nil⟩⟩,
    fun j hj => ?_⟩
  rw [hbuf, Lib.mirrored, if_neg (by omega), Function.update_of_ne (by omega)]

end Itoa

/-- `itoa` prints the sign and the digits of the magnitude. -/
theorem itoa_text {fuel : ℕ} (base i : Word) (h2 : 2 ≤ base.toNat) (h36 : base.toNat ≤ 36)
    (hfuel : (signText (i.slt 0) ++ digitText base.toNat i.toInt.natAbs).length < fuel)
    (buf : ℕ → BitVec 8) (a : ℕ) :
    ∃ buf', itoa fuel buf i a base = some (buf', a) ∧
      TextAt buf' a (signText (i.slt 0) ++ digitText base.toNat i.toInt.natAbs ++ [0]) ∧
      ∀ j < a, buf' j = buf j := by
  have hlength := length_digitText (b := base.toNat) (by omega) i.toInt.natAbs
  have hreverse := digitText_eq (b := base.toNat) (by omega) i.toInt.natAbs
  rw [List.reverse_eq_iff.symm] at hreverse
  have hbase : ¬(base.slt 2 = true ∨ BitVec.slt 36 base = true) := by
    have htwo : (2 : Word).toNat = 2 := rfl
    have hlast : (36 : Word).toNat = 36 := rfl
    rw [Lib.slt_of_nonneg (by omega) (by decide), Lib.slt_of_nonneg (by decide) (by omega)]
    omega
  rw [List.length_append, hlength] at hfuel
  obtain ⟨t, hloop, hsign, hwritten⟩ := Itoa.loop_put h2 h36 (i := i) (show _ ≤ fuel by omega)
    buf a
  have hptr : t.ptr = a + (Lib.backDigits base.toNat i.toInt.natAbs).length := hwritten.ptr
  have htext : TextAt t.buf a _ := hwritten.text
  have hframe : ∀ j < a, t.buf j = buf j := hwritten.frame
  rw [← hlength] at hptr hfuel
  rw [← hreverse] at htext
  generalize digitText base.toNat i.toInt.natAbs = text at *
  have hpos : 0 < text.length := by
    rw [hlength]
    exact Nat.succ_pos _
  rw [itoa, if_neg hbase, hloop]
  cases hneg : i.slt 0
  · obtain ⟨u, hswap, hstands, hkeep⟩ := Itoa.reversed htext hpos (show _ < fuel by omega)
    refine ⟨u.buf, ?_, hstands, fun j hj => (hkeep j hj).trans (hframe j hj)⟩
    rw [← hptr] at hswap
    simp only [Option.bind_eq_bind, Option.bind_some, hsign, hneg, Bool.false_eq_true, if_false,
      hswap]
    rfl
  · -- the sign is behind the digits before they are reversed
    have hbackward : TextAt (Function.update t.buf t.ptr (byte '-')) a
        (byte '-' :: text).reverse := by
      rw [List.reverse_cons, hptr, ← List.length_reverse]
      exact htext.snoc (byte '-')
    rw [hneg, signText, if_pos rfl, List.length_singleton] at hfuel
    obtain ⟨u, hswap, hstands, hkeep⟩ := Itoa.reversed hbackward (Nat.succ_pos _)
      (show _ < fuel by rw [List.length_cons]; omega)
    refine ⟨u.buf, ?_, hstands, fun j hj => ?_⟩
    · have hnext : a + (byte '-' :: text).length = t.ptr + 1 := by
        rw [hptr, List.length_cons, Nat.add_assoc]
      rw [hnext] at hswap
      simp only [Option.bind_eq_bind, Option.bind_some, hsign, hneg, if_true, hswap]
      rfl
    · rw [hkeep j hj, Function.update_of_ne (by omega)]
      exact hframe j hj

/-- `itoa` prints a positive integer. -/
theorem itoa_eq {fuel : ℕ} (hfuel : 10 < fuel) (buf : ℕ → BitVec 8) {i : Word} (a : ℕ)
    (hpos : 0 < i.toNat) (hlt : i.toNat < 2 ^ 31) :
    ∃ buf', itoa fuel buf i a 10 = some (buf', a) ∧ TextAt buf' a (decimal i.toNat ++ [0]) ∧
      ∀ j < a, buf' j = buf j := by
  have hint := BitVec.toInt_eq_toNat_of_lt (x := i) (by omega)
  have hsign : i.slt 0 = false := by
    have hzero : (0 : Word).toInt = 0 := rfl
    rw [BitVec.slt, hint, hzero]
    exact decide_eq_false (by omega)
  have htext : signText (i.slt 0) ++ digitText (10 : Word).toNat i.toInt.natAbs =
      decimal i.toNat := by
    rw [hsign, hint, Int.natAbs_natCast, decimal_eq]
    rfl
  have hitoa := itoa_text 10 i (by decide) (by decide)
    (htext ▸ (length_decimal hlt).trans_lt hfuel) buf a
  rwa [htext] at hitoa

/-! ## The two parts -/

namespace Ftoa

/-- The significand `m` for the exponent `e`, with 24 bits of a fraction. -/
def fixed (e m : ℕ) : ℕ := m * 2 ^ (e - 126) / 2 ^ (126 - e)

section Parts

variable {x m : Word}

theorem toInt_sub_bias {x : Word} (h : x.toNat < 2 ^ 8) :
    (x - 127).toInt = (x.toNat : ℤ) - 127 := by
  have hbias : (127 : Word).toInt = 127 := rfl
  rw [BitVec.toInt_sub, BitVec.toInt_eq_toNat_of_lt (by omega), hbias,
    Int.bmod_eq_of_le (by omega) (by omega)]

/-- The four cases of the shifts. -/
theorem cases_iff (h : x.toNat < 2 ^ 8) : ((x - 127).slt (-23) = true ↔ x.toNat < 104) ∧
    (BitVec.sle 23 (x - 127) = true ↔ 150 ≤ x.toNat) ∧
    (BitVec.sle 0 (x - 127) = true ↔ 127 ≤ x.toNat) ∧
    (BitVec.sle 31 (x - 127) = true ↔ 158 ≤ x.toNat) := by
  have hneg : (-23 : Word).toInt = -23 := rfl
  have h0 : (0 : Word).toInt = 0 := rfl
  have h23 : (23 : Word).toInt = 23 := rfl
  have h31 : (31 : Word).toInt = 31 := rfl
  simp only [BitVec.slt, BitVec.sle, decide_eq_true_eq, toInt_sub_bias h, hneg, h0, h23, h31]
  omega

/-- Above the bits of the fraction nothing is shifted. -/
theorem fixed_of_le {e m : ℕ} (h : 126 ≤ e) : fixed e m = m * 2 ^ (e - 126) := by
  rw [fixed, Nat.sub_eq_zero_of_le h, Nat.pow_zero, Nat.div_one]

theorem fixed_of_ge {e m : ℕ} (h : e ≤ 126) : fixed e m = m / 2 ^ (126 - e) := by
  rw [fixed, Nat.sub_eq_zero_of_le h, Nat.pow_zero, Nat.mul_one]

/-- The significand is shifted to the left by at most 7 bits, within 31 bits. -/
theorem toNat_intPart (hx : x.toNat < 158) (hm : m.toNat < 2 ^ 24) :
    (intPart (x - 127) m).toNat = fixed x.toNat m.toNat / 2 ^ 24 := by
  obtain ⟨hless, hinteger, hmixed, -⟩ := cases_iff (x := x) (by omega)
  have hzero : (0 : Word).toNat = 0 := rfl
  have hsmall : x.toNat < 127 → fixed x.toNat m.toNat / 2 ^ 24 = 0 := fun h => by
    rw [fixed_of_ge (by omega)]
    exact Nat.div_eq_of_lt (Nat.lt_of_le_of_lt (Nat.div_le_self _ _) hm)
  simp only [intPart, hless, hinteger, hmixed]
  split
  · next h => rw [hsmall (by omega), hzero]
  · split
    · next h =>
      -- a whole number
      have hamount : (x - 127 - 23).toNat = x.toNat - 150 := by bv_omega
      have hpow : 2 ^ (x.toNat - 150) ≤ 2 ^ 7 := Nat.pow_le_pow_right (by decide) (by omega)
      have hfits : m.toNat * 2 ^ (x.toNat - 150) < 2 ^ 24 * 2 ^ 7 :=
        Nat.mul_lt_mul_of_lt_of_le hm hpow (Nat.two_pow_pos 7)
      have hsplit : x.toNat - 126 = x.toNat - 150 + 24 := by omega
      rw [fixed_of_le (by omega), hamount, BitVec.toNat_shiftLeft, Nat.shiftLeft_eq,
        Nat.mod_eq_of_lt (by omega), hsplit, Nat.pow_add, ← Nat.mul_assoc,
        Nat.mul_div_cancel _ (Nat.two_pow_pos 24)]
    · split
      · next h =>
        -- the 24 bits and the shift are the same distance together
        have hamount : (23 - (x - 127)).toNat = 150 - x.toNat := by bv_omega
        have hsum : 150 - x.toNat + (x.toNat - 126) = 24 := by omega
        rw [fixed_of_le (by omega), hamount, Lib.toNat_sshiftRight (by omega), ← hsum, Nat.pow_add,
          Nat.mul_div_mul_right _ _ (Nat.two_pow_pos _)]
      · next h => rw [hsmall (by omega), hzero]

/-- The bits of the integer part are shifted out, or cut off. -/
theorem toNat_fracPart (hx : x.toNat < 158) (h104 : 104 ≤ x.toNat) (hm : m.toNat < 2 ^ 24) :
    (fracPart (x - 127) m).toNat = fixed x.toNat m.toNat % 2 ^ 24 := by
  obtain ⟨hless, hinteger, hmixed, -⟩ := cases_iff (x := x) (by omega)
  have hzero : (0 : Word).toNat = 0 := rfl
  simp only [fracPart, hless, hinteger, hmixed, if_neg (Nat.not_lt_of_le h104)]
  split
  · next h =>
    have hsplit : x.toNat - 126 = x.toNat - 150 + 24 := by omega
    rw [fixed_of_le (by omega), hsplit, Nat.pow_add, ← Nat.mul_assoc, Nat.mul_mod_left, hzero]
  · split
    · next h =>
      -- the integer part goes into the upper 8 bits and beyond them
      have hamount : (x - 127 + 1).toNat = x.toNat - 126 := by bv_omega
      rw [fixed_of_le (by omega), hamount, Lib.toNat_and_mask (k := 24) (by decide),
        BitVec.toNat_shiftLeft, Nat.shiftLeft_eq,
        Nat.mod_mod_of_dvd _ (Nat.pow_dvd_pow 2 (by decide))]
    · next h =>
      have hamount : (-(x - 127 + 1)).toNat = 126 - x.toNat := by bv_omega
      have hmask : (m &&& 0xffffff).toNat = m.toNat := by
        rw [Lib.toNat_and_mask (k := 24) (by decide), Nat.mod_eq_of_lt hm]
      rw [fixed_of_ge (by omega), hamount, Lib.toNat_sshiftRight (by omega), hmask,
        Nat.mod_eq_of_lt (Nat.lt_of_le_of_lt (Nat.div_le_self _ _) hm)]

/-- What is less than two units of the fraction is not printed. -/
theorem fracPart_of_lt (h104 : x.toNat < 104) : fracPart (x - 127) m = 0 := by
  obtain ⟨hless, -⟩ := cases_iff (x := x) (by omega)
  rw [fracPart, if_pos (hless.mpr h104)]

end Parts

/-- The two parts of a number: the fraction is rounded down to 24 bits, or to 0 from two units of
them on. -/
structure Parts (q : ℚ) (n k : ℕ) : Prop where
  whole : n = ⌊q⌋₊
  frac_lt : k < 2 ^ 24
  low : (n : ℚ) + k / 2 ^ 24 ≤ q
  high : q < n + k / 2 ^ 24 + 1 / 2 ^ 23

/-- The parts of a number that is only rounded down. -/
theorem parts_of_floor {q : ℚ} (hq : 0 ≤ q) {N : ℕ} (hN : N = ⌊q * 2 ^ 24⌋₊) :
    Parts q (N / 2 ^ 24) (N % 2 ^ 24) := by
  have hsplit : ((N / 2 ^ 24 : ℕ) : ℚ) * 2 ^ 24 + (N % 2 ^ 24 : ℕ) = N := by
    exact_mod_cast Nat.div_add_mod' N (2 ^ 24)
  have hlow : (N : ℚ) ≤ q * 2 ^ 24 := by
    rw [hN]
    exact Nat.floor_le (by positivity)
  have hhigh : q * 2 ^ 24 < N + 1 := by
    rw [hN]
    exact Nat.lt_floor_add_one _
  refine ⟨?_, Nat.mod_lt _ (Nat.two_pow_pos 24), by linarith, by linarith⟩
  have hcancel : q * 2 ^ 24 / (2 ^ 24 : ℕ) = q := by
    push_cast
    exact mul_div_cancel_right₀ q (by positivity)
  rw [hN, ← Nat.floor_div_natCast, hcancel]

/-- All bits of the magnitude from the last one of the fraction on. -/
theorem floor_value {f : Word} (hpos : 0 < binary32.exponent f) :
    fixed (binary32.exponent f) (binary32.significand f) = ⌊|binary32.value f| * 2 ^ 24⌋₊ := by
  have hscaled : |binary32.value f| * 2 ^ 24 =
      binary32.significand f * 2 ^ ((binary32.exponent f : ℤ) - 126) := by
    have hunit : binary32.unitAt (binary32.exponent f) * 2 ^ 24 =
        2 ^ ((binary32.exponent f : ℤ) - 126) := by
      show (2 : ℚ) ^ ((binary32.exponent f : ℤ) - 127 - 23) * 2 ^ 24 = _
      rw [← zpow_natCast (2 : ℚ) 24, ← zpow_add₀ two_ne_zero]
      congr 1
      omega
    rw [Lib.Format.abs_value_of_pos hpos, mul_assoc, hunit]
  rw [hscaled]
  rcases Nat.le_total 126 (binary32.exponent f) with h | h
  · obtain ⟨d, hd⟩ := Nat.exists_eq_add_of_le h
    have hexp : (binary32.exponent f : ℤ) - 126 = d := by omega
    rw [fixed_of_le h, hexp, hd, Nat.add_sub_cancel_left, zpow_natCast]
    exact_mod_cast (Nat.floor_natCast _).symm
  · obtain ⟨d, hd⟩ := Nat.exists_eq_add_of_le h
    have hexp : (binary32.exponent f : ℤ) - 126 = -d := by omega
    have hsub : 126 - binary32.exponent f = d := by omega
    rw [fixed_of_ge h, hexp, hsub, zpow_neg, zpow_natCast, ← div_eq_mul_inv]
    exact_mod_cast (Nat.floor_div_eq_div (K := ℚ) _ _).symm

theorem toNat_exponent {f : Word} (hmsb : f.msb = false) :
    (f.sshiftRight 23).toNat = binary32.exponent f := by
  have hlt := BitVec.msb_eq_false_iff_two_mul_lt.mp hmsb
  rw [Lib.toNat_sshiftRight hlt, exponent_eq]
  omega

/-- The test for what is too large. -/
theorem too_large_iff {f : Word} (hmsb : f.msb = false) :
    BitVec.sle 31 (f.sshiftRight 23 - 127) = true ↔ 158 ≤ binary32.exponent f := by
  have hx := toNat_exponent hmsb
  have hlt : binary32.exponent f < 2 ^ 8 := by
    rw [exponent_eq]
    exact Nat.mod_lt _ (by decide)
  rw [← hx]
  exact (cases_iff (hx ▸ hlt)).2.2.2

/-- The parts of a number without a sign. -/
theorem parts {f : Word} (hmsb : f.msb = false) (hexp : binary32.exponent f < 158) :
    Parts |binary32.value f|
      (intPart (f.sshiftRight 23 - 127) ((f &&& 0xffffff) ||| 0x800000)).toNat
      (fracPart (f.sshiftRight 23 - 127) ((f &&& 0xffffff) ||| 0x800000)).toNat := by
  have hx := toNat_exponent hmsb
  have hmantissa : ((f &&& 0xffffff) ||| 0x800000).toNat = binary32.significand f := by
    have habsorb : (f &&& 0xffffff) ||| 0x800000 = (f &&& 0x7fffff) ||| 0x800000 := by
      have hmask : (0xffffff : Word) = 0x7fffff ||| 0x800000 := rfl
      rw [hmask, BitVec.and_or_distrib_left, BitVec.or_assoc]
      congr 1
      ext i
      simp
    rw [habsorb, Lib.toNat_or_hidden (k := 23) (by decide) (by decide), ← fraction_eq32]
    rfl
  have hm := (Lib.Format.significand_bounds (F := binary32) (x := f)).2
  have hinteger := toNat_intPart (x := f.sshiftRight 23) (hx ▸ hexp) (hmantissa ▸ hm)
  by_cases h104 : 104 ≤ binary32.exponent f
  · have hfrac := toNat_fracPart (x := f.sshiftRight 23) (hx ▸ hexp) (hx ▸ h104) (hmantissa ▸ hm)
    rw [hinteger, hfrac, hx, hmantissa]
    exact parts_of_floor (abs_nonneg _) (floor_value (by omega))
  · -- the bits of the fraction that are not 0 are behind the last one
    have hsmall : |binary32.value f| < 1 / 2 ^ 23 := by
      have hbound := Lib.Format.abs_value_lt_unitAt (Nat.lt_of_not_le h104)
      have hunit : 2 ^ 23 * binary32.unitAt (104 : ℕ) = 1 / 2 ^ 23 := by
        show (2 : ℚ) ^ 23 * 2 ^ ((104 : ℕ) - 127 - 23 : ℤ) = 1 / 2 ^ 23
        norm_num
      exact hunit ▸ hbound
    have hzero : (0 : Word).toNat = 0 := rfl
    have hn : fixed (binary32.exponent f) (binary32.significand f) / 2 ^ 24 = 0 := by
      rw [fixed_of_ge (by omega)]
      exact Nat.div_eq_of_lt (Nat.lt_of_le_of_lt (Nat.div_le_self _ _) hm)
    rw [hinteger, fracPart_of_lt (hx ▸ Nat.lt_of_not_le h104), hx, hmantissa, hn, hzero]
    have hone : |binary32.value f| < 1 := hsmall.trans (by norm_num)
    refine ⟨(Nat.floor_eq_zero.mpr hone).symm, by decide, ?_, ?_⟩
    · push_cast
      linarith [abs_nonneg (binary32.value f)]
    · push_cast
      linarith

end Ftoa

/-! ## The integer part in the buffer -/

namespace Ftoa

/-- The integer part stands in the buffer, and `p` is behind it. -/
theorem integer_eq {fuel : ℕ} (hfuel : 10 < fuel) (buf : ℕ → BitVec 8) (p : ℕ) {intPart : Word}
    (hlt : intPart.toNat < 2 ^ 31) :
    ∃ buf', integer fuel buf p intPart = some (buf', p + (decimal intPart.toNat).length) ∧
      TextAt buf' p (decimal intPart.toNat) ∧ ∀ j < p, buf' j = buf j := by
  rw [integer]
  by_cases h0 : intPart = 0
  · rw [if_pos h0, h0]
    exact ⟨_, rfl, TextAt.cons_iff.mpr ⟨Function.update_self _ _ _, TextAt.nil⟩,
      fun j hj => Function.update_of_ne hj.ne _ _⟩
  · have hpos : 0 < intPart.toNat := by
      refine Nat.pos_of_ne_zero fun h => h0 (BitVec.eq_of_toNat_eq ?_)
      exact h
    obtain ⟨buf', hitoa, htext, hframe⟩ := itoa_eq hfuel buf p hpos hlt
    have hscan := htext.scan (zero_notMem_decimal _) ((length_decimal hlt).trans_lt hfuel)
    rw [if_neg h0, hitoa, Option.bind_eq_bind, Option.bind_some]
    refine ⟨buf', ?_, (TextAt.append_iff.mp htext).1, hframe⟩
    show (Lib.whileLoop _ _ fuel p).bind _ = _
    rw [hscan]
    rfl

/-! ## The digits of the fraction -/

section Digits

variable {s : Vars} {precision : Word}

theorem toNat_tenfold {fracPart : Word} (h : fracPart.toNat < 2 ^ 24) :
    (tenfold fracPart).toNat = fracPart.toNat * 10 := by
  rw [tenfold, BitVec.toNat_add, BitVec.toNat_shiftLeft, BitVec.toNat_shiftLeft, Nat.shiftLeft_eq,
    Nat.shiftLeft_eq]
  omega

/-- A round writes what is carried out of 24 bits, and keeps the others. -/
theorem digit_eq (h : s.fracPart.toNat < 2 ^ 24) :
    (digit s).fracPart.toNat = s.fracPart.toNat * 10 % 2 ^ 24 ∧ (digit s).buf =
      Function.update s.buf s.p (byte (s.fracPart.toNat * 10 / 2 ^ 24).digitChar) := by
  have hten := toNat_tenfold h
  constructor
  · rw [digit, Lib.toNat_and_mask (k := 24) (by decide), hten]
  · have h48 : (48 : Word).toNat = 48 := rfl
    have hbyte : ((tenfold s.fracPart).sshiftRight 24 + 48).setWidth 8 =
        byte (s.fracPart.toNat * 10 / 2 ^ 24).digitChar := by
      rw [byte_digitChar_eq _ (by omega), digitByte, if_pos (by omega)]
      apply BitVec.eq_of_toNat_eq
      rw [BitVec.toNat_setWidth, BitVec.toNat_add, Lib.toNat_sshiftRight (by omega), hten, h48,
        BitVec.toNat_ofNat]
      omega
    exact congrArg (Function.update s.buf s.p) hbyte

/-- The loop writes one digit in each round, from the first one on. -/
theorem loop_digit {r fuel : ℕ} (hfrac : s.fracPart.toNat < 2 ^ 24)
    (hprecision : precision.toNat < 2 ^ 31) (hr : s.i.toNat + r = precision.toNat)
    (hfuel : r < fuel) :
    ∃ t ds rest, Lib.whileLoop (fun s => s.i.slt precision) digit fuel s = some t ∧
      t.p = s.p + r ∧ ds.length = r ∧ Lib.FractionDigits 24 s.fracPart.toNat ds rest ∧
      TextAt t.buf s.p (ds.map fun d => byte d.digitChar) ∧ ∀ j < s.p, t.buf j = s.buf j := by
  -- induction on the rounds that are left
  induction r generalizing s fuel with
  | zero =>
    obtain ⟨fuel, rfl⟩ := Nat.exists_eq_succ_of_ne_zero (Nat.ne_zero_of_lt hfuel)
    have hexit : ¬s.i.slt precision = true := by
      rw [Lib.slt_of_nonneg (by omega) (by omega)]
      omega
    rw [Lib.whileLoop, if_neg hexit]
    exact ⟨s, [], _, rfl, rfl, rfl, .nil hfrac, TextAt.nil, fun _ _ => rfl⟩
  | succ r ih =>
    obtain ⟨fuel, rfl⟩ := Nat.exists_eq_succ_of_ne_zero (Nat.ne_zero_of_lt hfuel)
    have htest : s.i.slt precision = true := by
      rw [Lib.slt_of_nonneg (by omega) (by omega)]
      omega
    have hi : (digit s).i.toNat = s.i.toNat + 1 := by
      have hone : (1 : Word).toNat = 1 := rfl
      show (s.i + 1).toNat = _
      rw [BitVec.toNat_add, hone]
      omega
    obtain ⟨hrest, hbuf⟩ := digit_eq hfrac
    obtain ⟨t, ds, rest, hloop, hp, hlength, hdigits, htext, hframe⟩ :=
      ih (s := digit s) (by omega) (by omega) (Nat.lt_of_succ_lt_succ hfuel)
    have hnext : (digit s).p = s.p + 1 := rfl
    rw [hrest] at hdigits
    rw [hnext] at hp htext hframe
    rw [Lib.whileLoop, if_pos htest]
    refine ⟨t, s.fracPart.toNat * 10 / 2 ^ 24 :: ds, rest, hloop, by omega,
      by rw [List.length_cons, hlength], hdigits.cons hfrac, TextAt.cons_iff.mpr ⟨?_, htext⟩,
      fun j hj => ?_⟩
    · rw [hframe _ (Nat.lt_succ_self _), hbuf, Function.update_self]
    · rw [hframe j (Nat.lt_succ_of_lt hj), hbuf, Function.update_of_ne hj.ne]

/-- The point, the digits behind it and the end of the text. -/
theorem fraction_text {fuel : ℕ} {fracPart : Word} (hfrac : fracPart.toNat < 2 ^ 24)
    (hprecision : precision.toNat < 2 ^ 31) (hfuel : precision.toNat < fuel) (buf : ℕ → BitVec 8)
    (p : ℕ) :
    ∃ t ds rest, Lib.whileLoop (fun s => s.i.slt precision) digit fuel
        ⟨Function.update buf p (byte '.'), p + 1, fracPart, 0⟩ = some t ∧
      ds.length = precision.toNat ∧ Lib.FractionDigits 24 fracPart.toNat ds rest ∧
      TextAt (Function.update t.buf t.p 0) p
        (byte '.' :: (ds.map (fun d => byte d.digitChar) ++ [0])) ∧
      ∀ j < p, Function.update t.buf t.p 0 j = buf j := by
  obtain ⟨t, ds, rest, hloop, hend, hlength, hdigits, htext, hbefore⟩ := loop_digit
    (s := ⟨Function.update buf p (byte '.'), p + 1, fracPart, 0⟩) hfrac hprecision (Nat.zero_add _)
    hfuel
  change t.p = p + 1 + precision.toNat at hend
  change TextAt t.buf (p + 1) _ at htext
  change ∀ j < p + 1, t.buf j = Function.update buf p (byte '.') j at hbefore
  have hlast : p + 1 + (ds.map fun d => byte d.digitChar).length = t.p := by
    rw [List.length_map, hlength, hend]
  refine ⟨t, ds, rest, hloop, hlength, hdigits, TextAt.cons_iff.mpr ⟨?_, TextAt.append_iff.mpr
    ⟨htext.congr fun j _ hj => ?_, TextAt.cons_iff.mpr ⟨?_, TextAt.nil⟩⟩⟩, fun j hj => ?_⟩
  · rw [Function.update_of_ne (by omega), hbefore p (Nat.lt_succ_self p), Function.update_self]
  · exact Function.update_of_ne (by omega) _ _
  · rw [hlast, Function.update_self]
  · rw [Function.update_of_ne (by omega), hbefore j (Nat.lt_succ_of_lt hj),
      Function.update_of_ne hj.ne]

end Digits

end Ftoa

end HfRisc.Soft
