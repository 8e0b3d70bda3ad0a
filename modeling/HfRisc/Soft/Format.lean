import HfRisc.Arch
import HfRisc.Lib.While
import HfRisc.Soft.Strings

/-!
# Formatted output (`vsprintf`)

The format is a text that ends with a zero, and the pointer to it moves forward only. What is left
of the text stands for the pointer: behind the zero there is nothing left to read. The arguments
are a stream of words, and the output is the list of the characters that are written.
-/

namespace HfRisc.Soft

/-! ## The function -/

namespace Vsprintf

/-- Why there is no result: the format is read behind its end, or the loops are given up. -/
inductive Stop
  | beyond
  | fuel
deriving DecidableEq, Repr

/-- A pointer into the format, as the text in front of the zero. -/
abbrev Pointer := Option (List (BitVec 8))

/-- `*fmt`. -/
def read : Pointer → Except Stop (BitVec 8)
  | some (c :: _) => .ok c
  | some [] => .ok 0
  | none => .error .beyond

/-- `fmt++`. -/
def next : Pointer → Pointer
  | some (_ :: text) => some text
  | _ => none

/-- `printchar`: the end of the text goes into a buffer only. -/
def printchar (buffered : Bool) (out : List (BitVec 8)) (c : BitVec 8) : List (BitVec 8) :=
  if buffered ∨ c ≠ 0 then out ++ [c] else out

/-- `toint` on a text. -/
def tointText (i : Word) : List (BitVec 8) → Word × List (BitVec 8)
  | [] => (i, [])
  | c :: text =>
    if isdigit c then tointText (i * 10 + c.signExtend 32 - 48) text else (i, c :: text)

/-- `toint`, and the pointer that it leaves. -/
def toint : Pointer → Word × Pointer
  | some text => ((tointText 0 text).1, some (tointText 0 text).2)
  | none => (0, none)

/-- `digits`. -/
def digits : List (BitVec 8) := "0123456789abcdef".toList.map byte

/-- The variables of the loop over the digits. -/
structure Back where
  tmp : ℕ → BitVec 8
  i : ℕ
  num : Word

/-- `tmp[i++] = digits[divide(&num, base)]`. -/
def back (base : Word) (s : Back) : Back where
  tmp := Function.update s.tmp s.i (digits.getD (s.num % base).toNat 0)
  i := s.i + 1
  num := s.num / base

/-- The digits of a number, from the last one on. -/
def backward (fuel : ℕ) (base num : Word) : Option Back :=
  if num = 0 then some ⟨Function.update (fun _ => 0) 0 (byte '0'), 1, num⟩
  else Lib.whileLoop (fun t => t.num ≠ 0) (back base) fuel ⟨fun _ => 0, 0, num⟩

/-- The variables of the loops that count the width down. -/
structure Field where
  out : List (BitVec 8)
  width : Word

/-- `while (width-- > 0) printchar(p, pad)`. -/
def padding (buffered : Bool) (fuel : ℕ) (pad : BitVec 8) (s : Field) :
    Option (List (BitVec 8)) :=
  (Lib.whileLoop (fun s => (0 : Word).slt s.width)
    (fun s => ⟨printchar buffered s.out pad, s.width - 1⟩) fuel s).map Field.out

/-- `while (i-- > 0) printchar(p, tmp[i])`. -/
def copyBack (buffered : Bool) (tmp : ℕ → BitVec 8) : ℕ → List (BitVec 8) → List (BitVec 8)
  | 0, out => out
  | i + 1, out => copyBack buffered tmp i (printchar buffered out (tmp i))

/-- A number in its field. -/
def number (buffered : Bool) (fuel : ℕ) (pad : BitVec 8) (width base : Word) (sign : Bool)
    (num : Word) (out : List (BitVec 8)) : Option (List (BitVec 8)) := do
  let neg := sign && num.slt 0
  let num := if neg then -num else num
  let out := if neg then printchar buffered out (byte '-') else out
  let width := if neg then width - 1 else width
  let t ← backward fuel base num
  let out ← padding buffered fuel pad ⟨out, width - BitVec.ofNat 32 t.i⟩
  return copyBack buffered t.tmp t.i out

/-- The variables of the loop over a string. -/
structure Chars where
  out : List (BitVec 8)
  str : Word
  width : Word

/-- `printchar(p, *str); str++, width--`. -/
def char (buffered : Bool) (chars : Word → BitVec 8) (t : Chars) : Chars where
  out := printchar buffered t.out (chars t.str)
  str := t.str + 1
  width := t.width - 1

/-- `"<NULL>"`, from the address 0 on. -/
def nullText (a : Word) : BitVec 8 := ("<NULL>".toList.map byte).getD a.toNat 0

/-- A string in its field. -/
def string (buffered : Bool) (fuel : ℕ) (pad : BitVec 8) (width : Word) (mem : Word → BitVec 8)
    (str : Word) (out : List (BitVec 8)) : Option (List (BitVec 8)) := do
  let chars := if str = 0 then nullText else mem
  let t ← Lib.whileLoop (fun t => chars t.str ≠ 0 ∧ t.width ≠ 0) (char buffered chars) fuel
    ⟨out, str, width⟩
  padding buffered fuel pad ⟨t.out, t.width⟩

/-- What is written so far, and how many arguments were taken. -/
structure State where
  out : List (BitVec 8)
  arg : ℕ

/-- The conversion letters: each of them takes an argument. -/
def letter (buffered : Bool) (fuel : ℕ) (args : ℕ → Word) (mem : Word → BitVec 8)
    (pad : BitVec 8) (width : Word) (c : BitVec 8) (s : State) : Option State :=
  let arg := args s.arg
  let took (out : List (BitVec 8)) : State := ⟨out, s.arg + 1⟩
  if c = byte 'c' then some (took (printchar buffered s.out (arg.setWidth 8)))
  else if c = byte 's' then (string buffered fuel pad width mem arg s.out).map took
  else if c = byte 'X' ∨ c = byte 'x' then
    (number buffered fuel pad width 16 false arg s.out).map took
  else if c = byte 'd' then (number buffered fuel pad width 10 true arg s.out).map took
  else if c = byte 'u' then (number buffered fuel pad width 10 false arg s.out).map took
  else some s

/-- A conversion, from behind the `%` to its letter. -/
def conversion (buffered : Bool) (fuel : ℕ) (args : ℕ → Word) (mem : Word → BitVec 8)
    (fmt : Pointer) (s : State) : Except Stop (Pointer × State) := do
  let zero := (← read fmt) = byte '0'
  let pad := if zero then byte '0' else byte ' '
  let fmt := if zero then next fmt else fmt
  let (width, fmt) := if isdigit (← read fmt) then toint fmt else (-1, fmt)
  let fmt := if (← read fmt) = byte 'l' then next fmt else fmt
  match letter buffered fuel args mem pad width (← read fmt) s with
  | some s => return (fmt, s)
  | none => throw .fuel

/-- The loop over the format. -/
def loop (buffered : Bool) (fuel : ℕ) (args : ℕ → Word) (mem : Word → BitVec 8) :
    ℕ → Pointer → State → Except Stop State
  | 0, _, _ => throw .fuel
  | n + 1, fmt, s => do
    let c ← read fmt
    if c = 0 then return s
    else if c ≠ byte '%' then
      loop buffered fuel args mem n (next fmt) ⟨printchar buffered s.out c, s.arg⟩
    else
      let (fmt, s) ← conversion buffered fuel args mem (next fmt) s
      loop buffered fuel args mem n (next fmt) s

end Vsprintf

open Vsprintf in
/-- `vsprintf`, with what it writes. -/
def vsprintf (fuel : ℕ) (buffered : Bool) (text : List (BitVec 8)) (args : ℕ → Word)
    (mem : Word → BitVec 8) : Except Stop (List (BitVec 8)) := do
  let s ← loop buffered fuel args mem fuel (some text) ⟨[], 0⟩
  return printchar buffered s.out 0

/-! ## Fields -/

namespace Vsprintf

variable {buffered : Bool} {fuel : ℕ} {pad : BitVec 8} {width base : Word}

theorem printchar_of_ne_zero (out : List (BitVec 8)) {c : BitVec 8} (h : c ≠ 0) :
    printchar buffered out c = out ++ [c] := if_pos (.inr h)

/-- The width is counted down to 0. -/
theorem padding_eq (buffered : Bool) (hpad : pad ≠ 0) (hfuel : width.toInt.toNat < fuel)
    (out : List (BitVec 8)) :
    padding buffered fuel pad ⟨out, width⟩ =
      some (out ++ List.replicate width.toInt.toNat pad) := by
  have hzero : (0 : Word).toInt = 0 := rfl
  induction fuel generalizing width out with
  | zero => exact absurd hfuel (Nat.not_lt_zero _)
  | succ fuel ih =>
    rw [padding, Lib.whileLoop]
    by_cases hpos : 0 < width.toInt
    · have htest : (0 : Word).slt width = true := by
        rw [BitVec.slt, hzero]
        exact decide_eq_true hpos
      have hlt : width.toInt < 2 ^ 31 := BitVec.toInt_lt
      have hone : (1 : Word).toInt = 1 := rfl
      have hnext : (width - 1).toInt = width.toInt - 1 := by
        rw [BitVec.toInt_sub, hone, Int.bmod_eq_of_le (by omega) (by omega)]
      have hsucc : width.toInt.toNat = (width - 1).toInt.toNat + 1 := by omega
      have hrest := ih (show (width - 1).toInt.toNat < fuel by omega) (out ++ [pad])
      rw [if_pos htest, printchar_of_ne_zero out hpad, hsucc, List.replicate_succ]
      exact hrest.trans (congrArg some (List.append_cons _ _ _).symm)
    · have htest : ¬(0 : Word).slt width = true := by
        rw [BitVec.slt, hzero, decide_eq_true_iff]
        exact hpos
      have hnone : width.toInt.toNat = 0 := by omega
      rw [if_neg htest, hnone]
      simp

/-- The digits are copied from the last one that was written. -/
theorem copyBack_eq (buffered : Bool) {tmp : ℕ → BitVec 8} {text : List (BitVec 8)}
    (h : Lib.TextAt tmp 0 text.reverse) (hnot : 0 ∉ text) (out : List (BitVec 8)) :
    copyBack buffered tmp text.length out = out ++ text := by
  induction text generalizing out with
  | nil => exact (List.append_nil out).symm
  | cons c text ih =>
    rw [List.reverse_cons, Lib.TextAt.append_iff, List.length_reverse, Nat.zero_add] at h
    rw [List.mem_cons, not_or] at hnot
    have hc : tmp text.length = c := (Lib.TextAt.cons_iff.mp h.2).1
    rw [List.length_cons, copyBack, hc, printchar_of_ne_zero out (Ne.symm hnot.1), ih h.1 hnot.2,
      ← List.append_cons]

/-- The loop over the digits. -/
def view : Lib.DigitLoop Back (BitVec 8) where
  val s := s.num.toNat
  ptr := Back.i
  buf := Back.tmp

theorem getD_digits : ∀ d < 16, digits.getD d 0 = digitByte d := by decide

theorem writes_back (h2 : 2 ≤ base.toNat) (h16 : base.toNat ≤ 16) (s : Back) :
    view.Writes base.toNat digitByte s (back base s) where
  val := BitVec.toNat_udiv
  ptr := rfl
  buf := by
    have hmod : (s.num % base).toNat = s.num.toNat % base.toNat := BitVec.toNat_umod
    have hlt : s.num.toNat % base.toNat < base.toNat := Nat.mod_lt _ (by omega)
    have hdigit := getD_digits (s.num % base).toNat (by omega)
    rw [hmod] at hdigit
    show Function.update s.tmp s.i (digits.getD (s.num % base).toNat 0) = _
    rw [hmod, hdigit]
    rfl

theorem backward_eq (h2 : 2 ≤ base.toNat) (h16 : base.toNat ≤ 16) (hfuel : 32 < fuel)
    (num : Word) :
    ∃ t, backward fuel base num = some t ∧
      t.i = (digitText base.toNat num.toNat).length ∧
      Lib.TextAt t.tmp 0 (digitText base.toNat num.toNat).reverse := by
  by_cases hzero : num = 0
  · have hnat : num.toNat = 0 := by rw [hzero]; rfl
    rw [backward, if_pos hzero, hnat]
    have hfirst := Function.update_self 0 (byte '0') (fun _ : ℕ => (0 : BitVec 8))
    exact ⟨_, rfl, rfl, Lib.TextAt.cons_iff.mpr ⟨hfirst, Lib.TextAt.nil⟩⟩
  · have hne : num.toNat ≠ 0 := fun h => hzero (BitVec.eq_of_toNat_eq h)
    have htest : ∀ s : Back, True → (decide (s.num ≠ 0) = true ↔ view.val s ≠ 0) := fun s _ => by
      have heq : s.num.toNat = (0 : Word).toNat ↔ s.num = 0 := BitVec.toNat_inj
      rw [decide_eq_true_iff, Ne, Ne, ← heq]
      rfl
    -- there are most digits in the base 2
    have hpow : 2 ^ 32 ≤ base.toNat ^ 32 := Nat.pow_le_pow_left h2 32
    have hlength : (Nat.digits base.toNat num.toNat).length ≤ 32 :=
      Lib.length_digits_le (by omega) (num.isLt.trans_le hpow)
    obtain ⟨t, hloop, -, hwritten⟩ := Lib.DigitLoop.run (L := view) (p := fun _ => True)
      (s := ⟨fun _ => 0, 0, num⟩) (show 1 < base.toNat by omega) htest
      (fun s _ _ => ⟨trivial, writes_back h2 h16 s⟩) trivial (hlength.trans_lt hfuel)
    have hi : t.i = 0 + (Nat.digits base.toNat num.toNat).length := hwritten.ptr
    rw [backward, if_neg hzero, digitText, if_neg hne, ← List.map_reverse, List.reverse_reverse,
      List.length_map, List.length_reverse]
    exact ⟨t, hloop, by rw [hi, Nat.zero_add], hwritten.text⟩

/-- The sign, the padding and the digits, in this order. -/
theorem number_eq (buffered : Bool) (width : Word) (h2 : 2 ≤ base.toNat) (h16 : base.toNat ≤ 16)
    (hpad : pad ≠ 0) (hfuel : 2 ^ 31 < fuel) (sign : Bool) (num : Word) (out : List (BitVec 8)) :
    let neg := sign && num.slt 0
    let text := digitText base.toNat (if neg then -num else num).toNat
    let left := (if neg then width - 1 else width) - BitVec.ofNat 32 text.length
    number buffered fuel pad width base sign num out =
      some (out ++ signText neg ++ List.replicate left.toInt.toNat pad ++ text) := by
  intro neg text left
  obtain ⟨t, hdigits, hi, htext⟩ := backward_eq h2 h16 (by omega : 32 < fuel)
    (if neg then -num else num)
  have hsign : (if neg then printchar buffered out (byte '-') else out) = out ++ signText neg := by
    cases neg with
    | false => exact (List.append_nil out).symm
    | true => exact printchar_of_ne_zero out (by decide)
  have hleft : left.toInt.toNat < fuel := by
    have hlt : left.toInt < 2 ^ 31 := BitVec.toInt_lt
    omega
  have hcopy := copyBack_eq buffered htext
    (zero_notMem_digitText (by omega) (by omega) _)
  have hpadding := padding_eq buffered hpad hleft (out ++ signText neg)
  simp only [number, Option.bind_eq_bind]
  rw [hdigits, Option.bind_some, hsign, hi]
  show (padding buffered fuel pad ⟨out ++ signText neg, left⟩).bind _ = _
  rw [hpadding, Option.bind_some]
  exact congrArg some (hcopy _)

/-- A string is written up to its end, or to the end of its field. -/
theorem string_total (hpad : pad ≠ 0) (hfuel : 2 ^ 32 < fuel) (mem : Word → BitVec 8) (str : Word)
    (out : List (BitVec 8)) : ∃ out', string buffered fuel pad width mem str out = some out' := by
  have hround : ∀ (k : ℕ) (t : Chars), t.width.toNat = k →
      decide ((if str = 0 then nullText else mem) t.str ≠ 0 ∧ t.width ≠ 0) = true →
        ∃ j < k, (char buffered (if str = 0 then nullText else mem) t).width.toNat = j := by
    rintro k t rfl htest
    have hne : t.width ≠ 0 := (of_decide_eq_true htest).2
    have hpos : t.width.toNat ≠ 0 := fun h => hne (BitVec.eq_of_toNat_eq h)
    refine ⟨_, ?_, rfl⟩
    -- it is counted down as a number without a sign, from -1 on where there is no width
    show (t.width - 1).toNat < t.width.toNat
    bv_omega
  have hlt := width.isLt
  obtain ⟨t, hloop, -⟩ := Lib.whileLoop_total hround (s := ⟨out, str, width⟩) rfl (hlt.trans hfuel)
  have hlast : t.width.toInt < 2 ^ 31 := BitVec.toInt_lt
  have hpadding := padding_eq buffered hpad (show t.width.toInt.toNat < fuel by omega) t.out
  rw [string, hloop]
  exact ⟨_, hpadding⟩

theorem letter_total (buffered : Bool) (width : Word) (hpad : pad ≠ 0) (hfuel : 2 ^ 32 < fuel)
    (args : ℕ → Word) (mem : Word → BitVec 8) (c : BitVec 8) (s : State) :
    ∃ s', letter buffered fuel args mem pad width c s = some s' := by
  have hnumber : ∀ base : Word, 2 ≤ base.toNat → base.toNat ≤ 16 → ∀ sign, ∃ out,
      number buffered fuel pad width base sign (args s.arg) s.out = some out :=
    fun base h2 h16 sign => ⟨_, number_eq buffered width h2 h16 hpad (by omega) sign _ _⟩
  have htook : ∀ {o : Option (List (BitVec 8))}, (∃ out, o = some out) →
      ∃ s', o.map (fun out => (⟨out, s.arg + 1⟩ : State)) = some s' := by
    rintro o ⟨out, rfl⟩
    exact ⟨_, rfl⟩
  simp only [letter]
  split_ifs
  · exact ⟨_, rfl⟩
  · exact htook (string_total hpad hfuel mem _ _)
  · exact htook (hnumber 16 (by decide) (by decide) false)
  · exact htook (hnumber 10 (by decide) (by decide) true)
  · exact htook (hnumber 10 (by decide) (by decide) false)
  · exact ⟨_, rfl⟩

/-! ## Conversions in the format -/

/-- What is left of a conversion from its letter on: the digits in front of it are the flag and the
width, and an `l` is ignored. -/
def fromLetter (text : List (BitVec 8)) : List (BitVec 8) :=
  match text.dropWhile isdigit with
  | [] => []
  | c :: rest => if c = byte 'l' then rest else c :: rest

theorem read_some (text : List (BitVec 8)) : read (some text) = .ok (text.headD 0) := by
  cases text <;> rfl

theorem tointText_snd (i : Word) (text : List (BitVec 8)) :
    (tointText i text).2 = text.dropWhile isdigit := by
  induction text generalizing i with
  | nil => rfl
  | cons c text ih =>
    rw [tointText, List.dropWhile_cons]
    split
    · exact ih _
    · rfl

/-- The four reads of a conversion. -/
theorem conversion_of {args : ℕ → Word} {mem : Word → BitVec 8}
    {text flagged rest last : List (BitVec 8)} {s s' : State}
    (hflag : (if text.headD 0 = byte '0' then next (some text) else some text) = some flagged)
    (hwidth : (if isdigit (flagged.headD 0) then toint (some flagged) else (-1, some flagged)) =
      (width, some rest))
    (hlong : (if rest.headD 0 = byte 'l' then next (some rest) else some rest) = some last)
    (hpad : (if text.headD 0 = byte '0' then byte '0' else byte ' ') = pad)
    (hletter : letter buffered fuel args mem pad width (last.headD 0) s = some s') :
    conversion buffered fuel args mem (some text) s = .ok (some last, s') := by
  rw [conversion, read_some, ok_bind]
  simp only [hpad, hflag, read_some, ok_bind, hwidth, hlong, hletter]
  rfl

/-- The zero behind the text is no part of a conversion, so that the pointer stays in front of it
or on it. -/
theorem conversion_eq (buffered : Bool) (hfuel : 2 ^ 32 < fuel) (args : ℕ → Word)
    (mem : Word → BitVec 8) (text : List (BitVec 8)) (s : State) :
    ∃ s', conversion buffered fuel args mem (some text) s = .ok (some (fromLetter text), s') := by
  obtain ⟨flagged, hflag, hdigits⟩ : ∃ flagged,
      (if text.headD 0 = byte '0' then next (some text) else some text) = some flagged ∧
        flagged.dropWhile isdigit = text.dropWhile isdigit := by
    cases text with
    | nil => exact ⟨[], if_neg (by decide), rfl⟩
    | cons c text =>
      by_cases hc : c = byte '0'
      · refine ⟨text, if_pos hc, ?_⟩
        rw [hc, List.dropWhile_cons_of_pos (by decide)]
      · exact ⟨c :: text, if_neg hc, rfl⟩
  obtain ⟨width, hwidth⟩ : ∃ width,
      (if isdigit (flagged.headD 0) then toint (some flagged) else (-1, some flagged)) =
        (width, some (text.dropWhile isdigit)) := by
    rw [← hdigits]
    split
    · exact ⟨_, Prod.ext rfl (congrArg some (tointText_snd 0 flagged))⟩
    · next h =>
      refine ⟨-1, Prod.ext rfl (congrArg some ?_)⟩
      cases flagged with
      | nil => rfl
      | cons c rest => exact (List.dropWhile_cons_of_neg h).symm
  have hlong : (if (text.dropWhile isdigit).headD 0 = byte 'l' then
      next (some (text.dropWhile isdigit)) else some (text.dropWhile isdigit)) =
        some (fromLetter text) := by
    rw [fromLetter]
    cases text.dropWhile isdigit with
    | nil => exact if_neg (by decide)
    | cons c rest =>
      show (if c = byte 'l' then some rest else some (c :: rest)) = _
      exact (apply_ite some _ _ _).symm
  have hpad : (if text.headD 0 = byte '0' then byte '0' else byte ' ') ≠ 0 := by
    split
    · decide
    · decide
  obtain ⟨s', hletter⟩ := letter_total buffered width hpad hfuel args mem
    ((fromLetter text).headD 0) s
  exact ⟨s', conversion_of hflag hwidth hlong rfl hletter⟩

/-! ## The whole format -/

/-- Where a reader of a format is: in the text, behind a `%` and digits, or behind an `l`. -/
inductive Place
  | text
  | flags
  | last

/-- No conversion is cut off by the end of the text. -/
def complete : Place → List (BitVec 8) → Bool
  | .text, [] => true
  | .flags, [] => false
  | .last, [] => false
  | .text, c :: text => complete (if c = byte '%' then .flags else .text) text
  | .flags, c :: text =>
    complete (if isdigit c then .flags else if c = byte 'l' then .last else .text) text
  | .last, _ :: text => complete .text text

theorem complete_flags (text : List (BitVec 8)) : complete .flags text =
    match fromLetter text with
    | [] => false
    | _ :: rest => complete .text rest := by
  induction text with
  | nil => rfl
  | cons c text ih =>
    rw [complete, fromLetter, List.dropWhile_cons]
    split
    · rw [ih, fromLetter]
    · split
      · next h =>
        show complete .last text = match (if c = byte 'l' then text else c :: text) with
          | [] => false
          | _ :: rest => complete .text rest
        rw [if_pos h]
        cases text <;> rfl
      · next h =>
        show complete .text text = match (if c = byte 'l' then text else c :: text) with
          | [] => false
          | _ :: rest => complete .text rest
        rw [if_neg h]

/-- What is behind the letter is shorter, and is from the same text. -/
theorem fromLetter_suffix (text : List (BitVec 8)) : fromLetter text <:+ text := by
  have hdigits := List.dropWhile_suffix (l := text) isdigit
  rw [fromLetter]
  cases h : text.dropWhile isdigit with
  | nil => exact List.nil_suffix
  | cons c rest =>
    rw [h] at hdigits
    show (if c = byte 'l' then rest else c :: rest) <:+ text
    split
    · exact (List.suffix_cons c rest).trans hdigits
    · exact hdigits

theorem loop_char {args : ℕ → Word} {mem : Word → BitVec 8} {c : BitVec 8} (hc : c ≠ 0)
    (hpercent : c ≠ byte '%') (n : ℕ) (text : List (BitVec 8)) (s : State) :
    loop buffered fuel args mem (n + 1) (some (c :: text)) s =
      loop buffered fuel args mem n (some text) ⟨printchar buffered s.out c, s.arg⟩ := by
  rw [loop, read_some, ok_bind, List.headD_cons, if_neg hc, if_pos hpercent]
  rfl

theorem loop_conversion {args : ℕ → Word} {mem : Word → BitVec 8} {text : List (BitVec 8)}
    {fmt : Pointer} {s s' : State}
    (h : conversion buffered fuel args mem (some text) s = .ok (fmt, s')) (n : ℕ) :
    loop buffered fuel args mem (n + 1) (some (byte '%' :: text)) s =
      loop buffered fuel args mem n (next fmt) s' := by
  have hpercent : byte '%' ≠ 0 := by decide
  rw [loop, read_some, ok_bind, List.headD_cons, if_neg hpercent, if_neg (not_not.mpr rfl)]
  show (conversion buffered fuel args mem (some text) s >>= _) = _
  rw [h, ok_bind]

/-- The loop ends at the end of a complete format, and runs past the end of another one. -/
theorem loop_eq (buffered : Bool) (hfuel : 2 ^ 32 < fuel) (args : ℕ → Word)
    (mem : Word → BitVec 8) {n : ℕ} {text : List (BitVec 8)} (hn : text.length < n)
    (hnot : 0 ∉ text) (s : State) :
    (complete .text text = true → ∃ s', loop buffered fuel args mem n (some text) s = .ok s') ∧
      (complete .text text = false →
        loop buffered fuel args mem n (some text) s = .error .beyond) := by
  -- on the rounds, since a conversion takes several characters in one of them
  induction n generalizing text s with
  | zero => exact absurd hn (Nat.not_lt_zero _)
  | succ n ih =>
    cases text with
    | nil => exact ⟨fun _ => ⟨s, rfl⟩, fun h => by cases h⟩
    | cons c text =>
      have hc : c ≠ 0 := fun h => hnot (h ▸ List.mem_cons_self)
      have hrest : 0 ∉ text := fun h => hnot (List.mem_cons_of_mem c h)
      have hlength : text.length < n := Nat.lt_of_succ_lt_succ hn
      rw [complete]
      by_cases hpercent : c = byte '%'
      · obtain ⟨s', hconversion⟩ := conversion_eq buffered hfuel args mem text s
        rw [if_pos hpercent, complete_flags, hpercent, loop_conversion hconversion]
        have hsuffix := fromLetter_suffix text
        cases h : fromLetter text with
        | nil =>
          -- the pointer is moved behind the zero, and read there
          obtain ⟨n, rfl⟩ := Nat.exists_eq_succ_of_ne_zero (Nat.ne_zero_of_lt hlength)
          exact ⟨fun hfalse => absurd hfalse Bool.false_ne_true, fun _ => rfl⟩
        | cons d rest =>
          rw [h] at hsuffix
          have hle := hsuffix.length_le
          rw [List.length_cons] at hle
          exact ih (by omega) (fun hz => hrest (hsuffix.subset (List.mem_cons_of_mem d hz))) s'
      · rw [if_neg hpercent, loop_char hc hpercent]
        exact ih hlength hrest _

end Vsprintf

end HfRisc.Soft
