import HfRisc.Soft.Fixed
import HfRisc.Soft.Strings

/-!
# Printing fixed-point numbers (`fixtoa`)

The digits in front of the point are written backwards into a buffer of their own, and copied from
its end. Those behind the point are carried out of the fraction. A pointer is an index in the
buffer.
-/

namespace HfRisc.Soft

open HfRisc.Lib (TextAt)
open Fixed

/-! ## The function -/

namespace Fixtoa

/-- The variables of the loop over the digits in front of the point. -/
structure Back where
  tmp : ℕ → BitVec 8
  ndec : ℕ
  ip : Word

/-- `tmp[ndec++] = '0' + ip % 10; ip /= 10`. -/
def back (s : Back) : Back where
  tmp := Function.update s.tmp s.ndec ((48 + s.ip % 10).setWidth 8)
  ndec := s.ndec + 1
  ip := s.ip / 10

/-- The variables of the loop that copies them. -/
structure Front where
  str : ℕ → BitVec 8
  slen : ℕ
  ndec : ℕ

/-- `str[slen++] = tmp[--ndec]`. -/
def copy (tmp : ℕ → BitVec 8) (s : Front) : Front where
  str := Function.update s.str s.slen (tmp (s.ndec - 1))
  slen := s.slen + 1
  ndec := s.ndec - 1

/-- The variables of the loop over the digits behind the point. -/
structure Behind where
  str : ℕ → BitVec 8
  slen : ℕ
  fr : Word
  ndec : ℕ

/-- The body of this loop. -/
def digit (ibits : ℕ) (s : Behind) : Behind :=
  let fr := (s.fr &&& fmask ibits) * 10
  { str := Function.update s.str s.slen ((48 + fr >>> fbits ibits % 10).setWidth 8)
    slen := s.slen + 1
    fr := fr
    ndec := s.ndec + 1 }

end Fixtoa

open Fixtoa in
/-- `fixtoa`, with the buffer that it leaves. -/
def fixtoa (ibits fuel : ℕ) (a : Word) (str : ℕ → BitVec 8) (dec : Word) :
    Option (ℕ → BitVec 8) := do
  let neg := a.slt 0
  let str := if neg then Function.update str 0 (byte '-') else str
  let slen := if neg then 1 else 0
  let a := dropSign a
  let t ← Lib.whileLoop (fun t => t.ip ≠ 0) back fuel
    (back ⟨fun _ => 0, 0, a.sshiftRight (fbits ibits)⟩)
  let u ← Lib.whileLoop (fun u => 0 < u.ndec) (copy t.tmp) fuel ⟨str, slen, t.ndec⟩
  let v ← Lib.whileLoop (fun v => (v.ndec : ℤ) < dec.toInt) (digit ibits) fuel
    (digit ibits ⟨Function.update u.str u.slen (byte '.'), u.slen + 1, a &&& fmask ibits, u.ndec⟩)
  return Function.update v.str v.slen 0

/-! ## In front of the point -/

namespace Fixtoa

variable {fuel : ℕ}

/-- The digits of what is printed as a decimal number without a sign. -/
theorem digit_eq {w : Word} {d : ℕ} (hw : w.toNat = d) (hd : d < 10) :
    (48 + w).setWidth 8 = digitByte d := by
  have h48 : (48 : Word).toNat = 48 := rfl
  apply BitVec.eq_of_toNat_eq
  rw [digitByte, if_pos hd, BitVec.toNat_setWidth, BitVec.toNat_add, BitVec.toNat_ofNat, h48, hw]
  omega

/-- The first loop as one over the digits. -/
def view : Lib.DigitLoop Back (BitVec 8) where
  val s := s.ip.toNat
  ptr := Back.ndec
  buf := Back.tmp

theorem writes_back (s : Back) : view.Writes 10 digitByte s (back s) where
  val := BitVec.toNat_udiv
  ptr := rfl
  buf := by
    have hmod : (s.ip % 10).toNat = s.ip.toNat % 10 := BitVec.toNat_umod
    have hdigit := digit_eq hmod (Nat.mod_lt _ (by decide))
    exact congrArg (Function.update s.tmp s.ndec) hdigit

theorem loop_back (ip : Word) (hfuel : 10 ≤ fuel) :
    ∃ t, Lib.whileLoop (fun t => t.ip ≠ 0) back fuel (back ⟨fun _ => 0, 0, ip⟩) = some t ∧
      t.ndec = (digitText 10 ip.toNat).length ∧ TextAt t.tmp 0 (digitText 10 ip.toNat).reverse := by
  have hlt := ip.isLt
  have htest : ∀ s : Back, True → (decide (s.ip ≠ 0) = true ↔ view.val s ≠ 0) := fun s _ => by
    have hzero : s.ip.toNat = (0 : Word).toNat ↔ s.ip = 0 := BitVec.toNat_inj
    rw [decide_eq_true_iff, Ne, Ne, ← hzero]
    rfl
  obtain ⟨t, hloop, -, hwritten⟩ := Lib.DigitLoop.run_do (L := view) (p := fun _ => True)
    (s := ⟨fun _ => 0, 0, ip⟩) (by decide) htest (fun s _ _ => ⟨trivial, writes_back s⟩) trivial
    (writes_back _)
    (((Lib.length_backDigits_le_iff (k := 10) (by decide) (by decide)).mpr
      (hlt.trans (by decide))).trans hfuel)
  refine ⟨t, hloop, ?_, ?_⟩
  · have hptr : t.ndec = 0 + (Lib.backDigits 10 ip.toNat).length := hwritten.ptr
    rw [length_digitText (by decide), hptr, Nat.zero_add]
  · rw [digitText_eq (by decide), List.reverse_reverse]
    exact hwritten.text

/-- They are copied from the last one that was written. -/
theorem loop_copy {tmp : ℕ → BitVec 8} (text : List (BitVec 8)) {s : Front}
    (h : TextAt tmp 0 text.reverse) (hndec : s.ndec = text.length) (hfuel : text.length < fuel) :
    ∃ t, Lib.whileLoop (fun u => 0 < u.ndec) (copy tmp) fuel s = some t ∧
      t.slen = s.slen + text.length ∧ t.ndec = 0 ∧ TextAt t.str s.slen text ∧
      ∀ j < s.slen, t.str j = s.str j := by
  induction text generalizing s fuel with
  | nil =>
    obtain ⟨fuel, rfl⟩ := Nat.exists_eq_succ_of_ne_zero (Nat.ne_zero_of_lt hfuel)
    rw [Lib.whileLoop, if_neg (by rw [hndec]; decide)]
    exact ⟨s, rfl, rfl, hndec, TextAt.nil, fun _ _ => rfl⟩
  | cons c text ih =>
    obtain ⟨fuel, rfl⟩ := Nat.exists_eq_succ_of_ne_zero (Nat.ne_zero_of_lt hfuel)
    rw [List.reverse_cons, TextAt.append_iff, List.length_reverse, Nat.zero_add] at h
    obtain ⟨hrest, hc⟩ := h
    rw [List.length_cons] at hndec
    have hprevious : s.ndec - 1 = text.length := by omega
    have hfirst : tmp (s.ndec - 1) = c := by
      rw [hprevious]
      exact (TextAt.cons_iff.mp hc).1
    obtain ⟨t, hloop, hslen, hzero, htext, hframe⟩ := ih (s := copy tmp s) hrest hprevious
      (Nat.lt_of_succ_lt_succ hfuel)
    have hnext : (copy tmp s).slen = s.slen + 1 := rfl
    have hstr : (copy tmp s).str = Function.update s.str s.slen c :=
      congrArg (Function.update s.str s.slen) hfirst
    rw [hnext] at hslen htext hframe
    rw [Lib.whileLoop, if_pos (decide_eq_true (by omega))]
    refine ⟨t, hloop, by rw [hslen, List.length_cons]; omega, hzero,
      TextAt.cons_iff.mpr ⟨?_, htext⟩, fun j hj => ?_⟩
    · rw [hframe _ (Nat.lt_succ_self _), hstr, Function.update_self]
    · rw [hframe j (Nat.lt_succ_of_lt hj), hstr, Function.update_of_ne hj.ne]

end Fixtoa

/-! ## Behind the point -/

namespace Fixtoa

section Digits

variable {frac a j : ℕ} {str : ℕ → BitVec 8} {s : Behind}

/-- After `j` rounds: what is left of the fraction, and the digits that are written from `a` on. -/
structure Digits (frac a : ℕ) (str : ℕ → BitVec 8) (j : ℕ) (s : Behind) : Prop where
  ndec : s.ndec = j
  slen : s.slen = a + j
  rest : s.fr.toNat % 2 ^ 16 = frac * 10 ^ j % 2 ^ 16
  text : TextAt s.str a ((Lib.fractionDigits 16 frac j).map digitByte)
  frame : ∀ i < a, s.str i = str i

theorem length_fractionDigits (frac j : ℕ) : (Lib.fractionDigits 16 frac j).length = j := by
  rw [Lib.fractionDigits, List.length_map, List.length_range]

/-- The next digit is carried out of 16 bits. -/
theorem Digits.step (h : Digits frac a str j s) : Digits frac a str (j + 1) (digit 16 s) := by
  have hmask : (s.fr &&& fmask 16).toNat = frac * 10 ^ j % 2 ^ 16 := by
    rw [Lib.toNat_and_mask (k := 16) (by decide), h.rest]
  have hten : (10 : Word).toNat = 10 := rfl
  have hfr : ((s.fr &&& fmask 16) * 10).toNat = frac * 10 ^ j % 2 ^ 16 * 10 := by
    rw [BitVec.toNat_mul, hmask, hten]
    omega
  have hcarry : (((s.fr &&& fmask 16) * 10) >>> fbits 16 % 10).toNat =
      frac * 10 ^ (j + 1) / 2 ^ 16 % 10 := by
    rw [BitVec.toNat_umod, BitVec.toNat_ushiftRight, hfr, hten, Nat.shiftRight_eq_div_pow]
    exact Lib.digit_of_rest 16 frac j
  have hdigit := digit_eq hcarry (Nat.mod_lt _ (by decide))
  have hstr : (digit 16 s).str = Function.update s.str (a + j)
      (digitByte (frac * 10 ^ (j + 1) / 2 ^ 16 % 10)) := by
    rw [← hdigit, ← h.slen]
    rfl
  refine ⟨?_, ?_, ?_, ?_, fun i hi => ?_⟩
  · exact congrArg (· + 1) h.ndec
  · exact congrArg (· + 1) h.slen
  · rw [← Lib.rest_succ, ← hfr]
    rfl
  · rw [Lib.fractionDigits_succ, List.map_append, TextAt.append_iff, hstr, List.length_map,
      length_fractionDigits]
    refine ⟨h.text.congr fun i _ hi => Function.update_of_ne ?_ _ _,
      TextAt.cons_iff.mpr ⟨Function.update_self _ _ _, TextAt.nil⟩⟩
    rw [List.length_map, length_fractionDigits] at hi
    exact hi.ne
  · rw [hstr, Function.update_of_ne (by omega)]
    exact h.frame i hi

/-- One digit is written in any case. -/
theorem loop_digit {fuel : ℕ} {dec : Word} (hs : Digits frac a str 0 s)
    (hfuel : max 1 dec.toInt.toNat ≤ fuel) :
    ∃ t, Lib.whileLoop (fun v => (v.ndec : ℤ) < dec.toInt) (digit 16) fuel (digit 16 s) = some t ∧
      Digits frac a str (max 1 dec.toInt.toNat) t := by
  have hround : ∀ (k : ℕ) (v : Behind),
      (∃ j, 0 < j ∧ j + k = max 1 dec.toInt.toNat ∧ Digits frac a str j v) →
      decide ((v.ndec : ℤ) < dec.toInt) = true →
      ∃ i < k, ∃ j, 0 < j ∧ j + i = max 1 dec.toInt.toNat ∧
        Digits frac a str j (digit 16 v) := by
    rintro k v ⟨j, hpos, hj, hv⟩ htest
    have hlt : (v.ndec : ℤ) < dec.toInt := of_decide_eq_true htest
    have hndec := hv.ndec
    exact ⟨k - 1, by omega, j + 1, Nat.succ_pos j, by omega, hv.step⟩
  obtain ⟨t, hloop, ⟨k, j, hpos, hj, ht⟩, hexit⟩ := Lib.whileLoop_total hround
    (k := max 1 dec.toInt.toNat - 1) ⟨1, Nat.one_pos, by omega, hs.step⟩
    (show _ < fuel by omega)
  have hge : ¬(t.ndec : ℤ) < dec.toInt := of_decide_eq_false hexit
  have hndec := ht.ndec
  have hlast : max 1 dec.toInt.toNat = j := by omega
  rw [hlast]
  exact ⟨t, hloop, ht⟩

end Digits

end Fixtoa

/-! ## The text -/

/-- A number with the point. -/
def fixedText (neg : Bool) (ip frac n : ℕ) : List (BitVec 8) :=
  signText neg ++ (digitText 10 ip ++ byte '.' :: (Lib.fractionDigits 16 frac n).map digitByte)

namespace Fixtoa

theorem textAt_sign (neg : Bool) (str : ℕ → BitVec 8) :
    TextAt (if neg then Function.update str 0 (byte '-') else str) 0 (signText neg) := by
  cases neg with
  | false => exact TextAt.nil
  | true => exact TextAt.cons_iff.mpr ⟨Function.update_self 0 _ str, TextAt.nil⟩

/-- The parts stand one behind the other: nothing is written in front of a text that stands. -/
theorem textAt_fixedText {neg : Bool} {ip frac n : ℕ} {str : ℕ → BitVec 8} {u : Front}
    {v : Behind} (hsign : TextAt str 0 (signText neg))
    (hkeep : ∀ j < (signText neg).length, u.str j = str j)
    (hfront : TextAt u.str (signText neg).length (digitText 10 ip))
    (hslen : u.slen = (signText neg).length + (digitText 10 ip).length)
    (hv : Digits frac (u.slen + 1) (Function.update u.str u.slen (byte '.')) n v) :
    TextAt (Function.update v.str v.slen 0) 0 (fixedText neg ip frac n ++ [0]) := by
  have hend := hv.slen
  have hbefore : ∀ j < u.slen, Function.update v.str v.slen 0 j = u.str j := fun j hj => by
    rw [Function.update_of_ne (by omega), hv.frame j (by omega), Function.update_of_ne hj.ne]
  have hpoint : Function.update v.str v.slen 0 u.slen = byte '.' := by
    rw [Function.update_of_ne (by omega), hv.frame _ (Nat.lt_succ_self _), Function.update_self]
  simp only [fixedText, List.append_assoc, List.cons_append, TextAt.append_iff, TextAt.cons_iff,
    Nat.zero_add, ← hslen, List.length_map, length_fractionDigits, ← hend]
  refine ⟨hsign.congr fun j _ hj => ?_, hfront.congr fun j _ hj => hbefore j ?_, hpoint,
    hv.text.congr fun j _ hj => Function.update_of_ne ?_ _ _, Function.update_self _ _ _,
    TextAt.nil⟩
  · rw [hbefore j (by omega)]
    exact hkeep j (by omega)
  · rwa [hslen]
  · rw [List.length_map, length_fractionDigits] at hj
    omega

end Fixtoa

open Fixtoa in
/-- What `fixtoa` writes: what is in front of the point without a sign. -/
theorem fixtoa_text {fuel : ℕ} {dec : Word} (hfuel : max 10 dec.toInt.toNat < fuel) (a : Word)
    (str : ℕ → BitVec 8) :
    ∃ str', fixtoa 16 fuel a str dec = some str' ∧ TextAt str' 0 (fixedText (a.slt 0)
      ((dropSign a).sshiftRight 16).toNat ((dropSign a).toNat % 2 ^ 16)
      (max 1 dec.toInt.toNat) ++ [0]) := by
  have hsign := textAt_sign (a.slt 0) str
  generalize hstr : (if a.slt 0 then Function.update str 0 (byte '-') else str) = str₀ at *
  have hlength : (if a.slt 0 then 1 else 0) = (signText (a.slt 0)).length := by
    cases a.slt 0 <;> rfl
  have hmask : (dropSign a &&& fmask 16).toNat = (dropSign a).toNat % 2 ^ 16 :=
    Lib.toNat_and_mask (by decide)
  have hten : (digitText 10 ((dropSign a).sshiftRight 16).toNat).length ≤ 10 := by
    rw [length_digitText (by decide)]
    exact (Lib.length_backDigits_le_iff (by decide) (by decide)).mpr
      ((BitVec.isLt _).trans (by decide))
  -- one loop after the other: each of them starts where the one before has stopped
  obtain ⟨t, hback, hndec, hbackward⟩ := loop_back ((dropSign a).sshiftRight 16)
    (show 10 ≤ fuel by omega)
  obtain ⟨u, hcopy, hslen, hzero, hfront, hkeep⟩ := loop_copy _ hbackward
    (s := ⟨str₀, (signText (a.slt 0)).length, t.ndec⟩) hndec (show _ < fuel by omega)
  have hpointed : Digits ((dropSign a).toNat % 2 ^ 16) (u.slen + 1)
      (Function.update u.str u.slen (byte '.')) 0
      ⟨Function.update u.str u.slen (byte '.'), u.slen + 1, dropSign a &&& fmask 16, u.ndec⟩ :=
    ⟨hzero, rfl, by rw [hmask, Nat.pow_zero, Nat.mul_one], TextAt.nil, fun _ _ => rfl⟩
  obtain ⟨v, hdigits, hv⟩ := loop_digit hpointed (show max 1 dec.toInt.toNat ≤ fuel by omega)
  refine ⟨Function.update v.str v.slen 0, ?_, textAt_fixedText hsign hkeep hfront hslen hv⟩
  have hbits : fbits 16 = 16 := rfl
  simp only [fixtoa, hstr, hlength, hbits, Option.bind_eq_bind]
  rw [hback, Option.bind_some, hcopy, Option.bind_some, hdigits]
  rfl

end HfRisc.Soft
