import HfRisc.Lib.Mask
import HfRisc.Soft.Format
import HfRisc.Soft.Scan

/-!
# Formats of `sprintf`

A format is read behind its end where a conversion is cut off. A decimal number is what standard C
has for it, except that the sign is in front of the blanks.
-/

namespace HfRisc.Soft

open HfRisc.Lib (TextAt)
open Vsprintf

/-! ## Decimal conversions -/

/-- `%d`, `%<w>d` or `%0<w>d`. -/
def directive (zero : Bool) (w : Option ℕ) : List (BitVec 8) :=
  byte '%' :: ((if zero then [byte '0'] else []) ++ (w.elim [] (digitText 10) ++ [byte 'd']))

/-- The sign and the digits of a number. -/
def minimalText (n : Word) : List (BitVec 8) := signText (n.slt 0) ++ digitText 10 n.toInt.natAbs

/-- What standard C writes: zeros between the sign and the digits, or blanks in front of them. -/
def standardText (zero : Bool) (w : Option ℕ) (n : Word) : List (BitVec 8) :=
  let fill := w.getD 0 - (minimalText n).length
  if zero then signText (n.slt 0) ++ (List.replicate fill (byte '0') ++ digitText 10 n.toInt.natAbs)
  else List.replicate fill (byte ' ') ++ minimalText n

/-- How often the padding is written: the width is a word, and -1 where there is none. -/
def fill (w : Option ℕ) (len : ℕ) : ℕ :=
  (w.elim (-1) (BitVec.ofNat 32) - BitVec.ofNat 32 len : Word).toInt.toNat

section Directive

variable {fuel : ℕ} {w : Option ℕ} {len : ℕ} {n : Word}

/-- The padding is right where the width is less than half of a word. -/
theorem fill_eq_iff (hlen : len < 2 ^ 30) :
    fill w len = w.getD 0 - len ↔ w.getD 0 < 2 ^ 31 + len := by
  obtain ⟨z, hz, hword⟩ : ∃ z : ℤ, (w.elim (z = -1) fun w => z = w) ∧
      w.elim (-1) (BitVec.ofNat 32) = BitVec.ofInt 32 z := by
    cases w with
    | none => exact ⟨-1, rfl, rfl⟩
    | some w => exact ⟨w, rfl, (BitVec.ofInt_natCast 32 w).symm⟩
  have hleft : BitVec.ofInt 32 z - BitVec.ofNat 32 len = BitVec.ofInt 32 (z - len) := by
    rw [BitVec.sub_eq_add_neg, sub_eq_add_neg, BitVec.ofInt_add, BitVec.ofInt_neg,
      BitVec.ofInt_natCast]
  have hlt : (BitVec.ofInt 32 (z - len)).toInt < 2 ^ 31 := BitVec.toInt_lt
  have hvalue : z - len < 2 ^ 31 → -2 ^ 31 ≤ z - len →
      (BitVec.ofInt 32 (z - len)).toInt = z - len := fun hhigh hlow => by
    rw [BitVec.toInt_ofInt, Int.bmod_eq_of_le (by omega) (by omega)]
  rw [fill, hword, hleft]
  cases w with
  | none =>
    have hz : z = -1 := hz
    have hnone : (none : Option ℕ).getD 0 = 0 := rfl
    rw [hvalue (by omega) (by omega), hnone]
    omega
  | some w =>
    have hz : z = w := hz
    have hsome : (some w).getD 0 = w := rfl
    rw [hsome]
    constructor
    · intro h
      omega
    · intro h
      rw [hvalue (by omega) (by omega)]
      omega

theorem tointText_digits {c : BitVec 8} (hc : isdigit c = false) (text : List (BitVec 8)) {v : ℕ}
    {ds : List ℕ} (hds : ∀ d ∈ ds, d < 10) :
    tointText (BitVec.ofNat 32 v) (ds.map digitByte ++ c :: text) =
      (BitVec.ofNat 32 (ds.foldl (fun v d => v * 10 + d) v), c :: text) := by
  induction ds generalizing v with
  | nil =>
    show tointText _ (c :: text) = _
    rw [tointText, if_neg (by rw [hc]; exact Bool.false_ne_true)]
    rfl
  | cons d ds ih =>
    rw [List.forall_mem_cons] at hds
    rw [List.map_cons, List.cons_append, tointText, if_pos (isdigit_digitByte d hds.1),
      Atoi.accumulate hds.1, ih hds.2]
    rfl

/-- The width is read as a word. -/
theorem toint_width (w : ℕ) {c : BitVec 8} (hc : isdigit c = false) (text : List (BitVec 8)) :
    toint (some (digitText 10 w ++ c :: text)) = (BitVec.ofNat 32 w, some (c :: text)) := by
  obtain ⟨ds, hdigits, -, hds, hvalue⟩ := Atoi.digits_eq w
  have hread := tointText_digits (v := 0) hc text hds
  rw [hvalue, ← hdigits] at hread
  show ((tointText (BitVec.ofNat 32 0) _).1, some (tointText (BitVec.ofNat 32 0) _).2) = _
  rw [hread]

/-- The text from behind the flag on. -/
theorem width_read (w : Option ℕ) :
    let text := w.elim [] (digitText 10) ++ [byte 'd']
    (if isdigit (text.headD 0) then toint (some text) else (-1, some text)) =
      (w.elim (-1) (BitVec.ofNat 32), some [byte 'd']) := by
  have hd : isdigit (byte 'd') = false := by decide
  cases w with
  | none => exact if_neg (by decide)
  | some w =>
    obtain ⟨ds, hdigits, hne, hds, -⟩ := Atoi.digits_eq w
    have hread := toint_width w hd []
    obtain ⟨d, ds, rfl⟩ := List.exists_cons_of_ne_nil hne
    have hdigit : isdigit ((digitText 10 w ++ [byte 'd']).headD 0) = true := by
      rw [hdigits]
      exact isdigit_digitByte d (hds d List.mem_cons_self)
    exact (if_pos hdigit).trans hread

/-- A width above 0 does not begin with the flag. -/
theorem no_flag (hw : w ≠ some 0) :
    (w.elim [] (digitText 10) ++ [byte 'd']).headD 0 ≠ byte '0' := by
  cases w with
  | none => decide
  | some w =>
    have hdigits := digitText_eq (b := 10) (by decide) w
    rw [← List.map_reverse] at hdigits
    cases h : (Lib.backDigits 10 w).reverse with
    | nil => exact absurd (List.reverse_eq_nil_iff.mp h) (List.cons_ne_nil _ _)
    | cons d ds =>
      show (digitText 10 w ++ [byte 'd']).headD 0 ≠ byte '0'
      rw [hdigits, h]
      intro hzero
      have hd : d < 10 := Lib.lt_of_mem_backDigits (n := w) (by decide)
        (List.mem_reverse.mp (h ▸ List.mem_cons_self))
      have hnonzero : ∀ d < 10, digitByte d = byte '0' → d = 0 := by decide
      obtain rfl := hnonzero d hd hzero
      obtain rfl := Lib.backDigits_reverse_eq_zero_cons (by decide) h
      have hvalue := Lib.ofDigits_backDigits 10 w
      rw [List.reverse_eq_iff.mp h] at hvalue
      exact hw (congrArg some hvalue.symm)

/-- The sign takes one character of the width. -/
theorem left_eq (neg : Bool) (width : Word) (text : List (BitVec 8)) :
    (if neg then width - 1 else width) - BitVec.ofNat 32 text.length =
      width - BitVec.ofNat 32 (signText neg ++ text).length := by
  cases neg with
  | false => rfl
  | true =>
    have hlength : (signText true ++ text).length = 1 + text.length := Nat.add_comm _ 1
    rw [if_pos rfl, hlength, BitVec.ofNat_add, ← sub_sub]
    rfl

/-- What is written for a number: the sign is in front of the padding. -/
theorem vsprintf_directive {zero : Bool} {w : Option ℕ} (hw : zero = true ∨ w ≠ some 0)
    (hfuel : 2 ^ 32 < fuel) (args : ℕ → Word) (mem : Word → BitVec 8) :
    vsprintf fuel true (directive zero w) args mem =
      .ok (signText ((args 0).slt 0) ++
        List.replicate (fill w (minimalText (args 0)).length)
          (if zero then byte '0' else byte ' ') ++
        digitText 10 (args 0).toInt.natAbs ++ [0]) := by
  have hpad : (if zero then byte '0' else byte ' ') ≠ 0 := by
    cases zero <;> decide
  have hnumber := number_eq true (w.elim (-1) (BitVec.ofNat 32))
    (show 2 ≤ (10 : Word).toNat by decide) (by decide) hpad (show 2 ^ 31 < fuel by omega) true
    (args 0) []
  have hmagnitude : (if (args 0).slt 0 then -(args 0) else args 0).toNat =
      (args 0).toInt.natAbs := Lib.toNat_without_sign (args 0)
  simp only [Bool.true_and, hmagnitude, left_eq, List.nil_append] at hnumber
  generalize hout : signText ((args 0).slt 0) ++
    List.replicate (fill w (minimalText (args 0)).length) (if zero then byte '0' else byte ' ') ++
    digitText 10 (args 0).toInt.natAbs = out at *
  have hletter : letter true fuel args mem (if zero then byte '0' else byte ' ')
      (w.elim (-1) (BitVec.ofNat 32)) (byte 'd') ⟨[], 0⟩ = some ⟨out, 1⟩ := by
    simp only [letter]
    rw [if_neg (by decide), if_neg (by decide), if_neg (by decide), if_pos trivial,
      hnumber.trans (congrArg some hout)]
    rfl
  have hconversion : conversion true fuel args mem (some ((if zero then [byte '0'] else []) ++
      (w.elim [] (digitText 10) ++ [byte 'd']))) ⟨[], 0⟩ = .ok (some [byte 'd'], ⟨out, 1⟩) := by
    cases zero with
    | true => exact conversion_of (if_pos rfl) (width_read w) (if_neg (by decide)) rfl hletter
    | false =>
      have hflag := no_flag (hw.resolve_left Bool.false_ne_true)
      exact conversion_of (if_neg hflag) (width_read w) (if_neg (by decide)) (if_neg hflag) hletter
  have hloop : ∀ m, 2 ≤ m →
      loop true fuel args mem m (some (directive zero w)) ⟨[], 0⟩ = .ok ⟨out, 1⟩ := by
    intro m hm
    obtain ⟨k, rfl⟩ := Nat.exists_eq_add_of_le' hm
    rw [directive, loop_conversion hconversion]
    rfl
  rw [vsprintf, hloop fuel (by omega)]
  rfl

theorem vsprintf_decimal (zero : Bool) (w : Option ℕ) (hfuel : 2 ^ 32 < fuel) (args : ℕ → Word)
    (mem : Word → BitVec 8) :
    vsprintf fuel true (directive zero w) args mem =
      .ok (signText ((args 0).slt 0) ++
        List.replicate (fill w (minimalText (args 0)).length)
          (if zero then byte '0' else byte ' ') ++
        digitText 10 (args 0).toInt.natAbs ++ [0]) := by
  by_cases hw : zero = true ∨ w ≠ some 0
  · exact vsprintf_directive hw hfuel args mem
  · -- the width 0 is read as the flag
    rw [not_or, not_not, Bool.not_eq_true] at hw
    obtain ⟨rfl, rfl⟩ := hw
    have hlength := length_text (b := 10) (by decide) (args 0)
    have hnone : fill none (minimalText (args 0)).length = 0 :=
      ((fill_eq_iff (by rw [minimalText]; omega)).mpr (by simp)).trans (by simp)
    have hzero : fill (some 0) (minimalText (args 0)).length = 0 :=
      ((fill_eq_iff (by rw [minimalText]; omega)).mpr (by simp)).trans (by simp)
    have hflag := vsprintf_directive (show true = true ∨ none ≠ some 0 from .inl rfl) hfuel args mem
    rw [hnone] at hflag
    rw [hzero]
    exact hflag

/-- The blanks do not hide the number from `atoi`. -/
theorem atoi_standard (hw : w.getD 0 < 2 ^ 31 + (minimalText n).length) (hfuel : 2 ^ 32 < fuel)
    {buf : ℕ → BitVec 8} {s : ℕ} (h : TextAt buf s (standardText false w n ++ [0])) :
    atoi fuel buf s = some n := by
  have hlength := length_text (b := 10) (by decide) n
  rw [List.length_append] at hlength
  have hblanks : standardText false w n ++ [0] =
      List.replicate (w.getD 0 - (minimalText n).length) (byte ' ') ++
        (signText (n.slt 0) ++ (digitText 10 n.toInt.natAbs ++ [0])) := by
    rw [← List.append_assoc (signText _), ← List.append_assoc]
    rfl
  rw [hblanks] at h
  have hread := Atoi.atoi_eq h (by decide)
    (show max (w.getD 0 - (minimalText n).length) (digitText 10 _).length < fuel by omega)
  exact hread.trans (congrArg some (Lib.eq_of_sign n))

theorem length_standardText (zero : Bool) (w : Option ℕ) (n : Word) :
    (standardText zero w n).length =
      w.getD 0 - (minimalText n).length + (minimalText n).length := by
  cases zero with
  | false =>
    show (List.replicate _ _ ++ minimalText n).length = _
    rw [List.length_append, List.length_replicate]
  | true =>
    have hlength : (minimalText n).length =
        (signText (n.slt 0)).length + (digitText 10 n.toInt.natAbs).length := List.length_append
    show (signText _ ++ (List.replicate _ _ ++ digitText 10 _)).length = _
    rw [List.length_append, List.length_append, List.length_replicate, hlength]
    omega

/-- The order of the sign and the padding does not matter where there are no blanks in front of a
sign. -/
theorem text_eq_standard_iff (zero : Bool) (w : Option ℕ) (n : Word) :
    signText (n.slt 0) ++
      List.replicate (fill w (minimalText n).length) (if zero then byte '0' else byte ' ') ++
      digitText 10 n.toInt.natAbs = standardText zero w n ↔
    w.getD 0 < 2 ^ 31 + (minimalText n).length ∧
      (w.getD 0 ≤ (minimalText n).length ∨ zero = true ∨ 0 ≤ n.toInt) := by
  have hle : (minimalText n).length ≤ 33 := length_text (by decide) n
  have hsum : (minimalText n).length =
      (signText (n.slt 0)).length + (digitText 10 n.toInt.natAbs).length := List.length_append
  have hnegative : n.slt 0 = decide (n.toInt < 0) := rfl
  rw [← fill_eq_iff (by omega)]
  constructor
  · intro h
    have hfill : fill w (minimalText n).length = w.getD 0 - (minimalText n).length := by
      have hlengths := congrArg List.length h
      rw [length_standardText, List.length_append, List.length_append, List.length_replicate]
        at hlengths
      omega
    refine ⟨hfill, ?_⟩
    by_contra hnot
    rw [not_or, not_or, Bool.not_eq_true] at hnot
    obtain ⟨hwide, rfl, hneg⟩ := hnot
    -- the blanks are in front of the sign in the one text, and behind it in the other
    obtain ⟨f, hf⟩ := Nat.exists_eq_succ_of_ne_zero
      (show w.getD 0 - (minimalText n).length ≠ 0 by omega)
    rw [hnegative, decide_eq_true (not_le.mp hneg), standardText, hf] at h
    exact absurd (List.cons.inj h).1 (by decide)
  · rintro ⟨hfill, hcase⟩
    rw [hfill]
    cases zero with
    | true => exact List.append_assoc _ _ _
    | false =>
      show _ = List.replicate _ _ ++ minimalText n
      rcases hcase with hnarrow | hzero | hnonneg
      · rw [Nat.sub_eq_zero_of_le hnarrow, List.replicate_zero, List.append_nil]
        rfl
      · cases hzero
      · rw [minimalText, hnegative, decide_eq_false (not_lt.mpr hnonneg)]
        rfl

end Directive

end HfRisc.Soft

namespace HfRisc.Results

open HfRisc.Soft HfRisc.Lib

/-- A decimal number is what standard C writes, and `atoi` reads it behind blanks, unless a negative
number is behind blanks or the width is too large for a word. -/
theorem sprintf_decimal_iff {fuel : ℕ} (hfuel : 2 ^ 32 < fuel) (zero : Bool) (w : Option ℕ)
    (args : ℕ → Word) (mem : Word → BitVec 8) :
    (∃ out, vsprintf fuel true (directive zero w) args mem = .ok out ∧
      out = standardText zero w (args 0) ++ [0] ∧
      (zero = false → ∀ buf s, TextAt buf s out → atoi fuel buf s = some (args 0))) ↔
    w.getD 0 < 2 ^ 31 + (minimalText (args 0)).length ∧
      (w.getD 0 ≤ (minimalText (args 0)).length ∨ zero = true ∨ 0 ≤ (args 0).toInt) := by
  have hwritten := vsprintf_decimal zero w hfuel args mem
  rw [← text_eq_standard_iff]
  constructor
  · rintro ⟨out, hreturn, rfl, -⟩
    exact List.append_cancel_right (Except.ok.inj (hwritten.symm.trans hreturn))
  · intro heq
    have hw := ((text_eq_standard_iff zero w (args 0)).mp heq).1
    rw [heq] at hwritten
    refine ⟨_, hwritten, rfl, ?_⟩
    rintro rfl buf s h
    exact atoi_standard hw hfuel h

/-- 5 in three zeros. -/
theorem sprintf_decimal_three :
    (∃ out,
      vsprintf (2 ^ 32 + 1) true (directive true (some 3)) (fun _ => 5) (fun _ => 0) = .ok out ∧
      out = standardText true (some 3) 5 ++ [0] ∧
      (true = false → ∀ buf s, TextAt buf s out → atoi (2 ^ 32 + 1) buf s = some 5)) ↔
    (some 3).getD 0 < 2 ^ 31 + (minimalText 5).length ∧
      ((some 3).getD 0 ≤ (minimalText 5).length ∨ true = true ∨ 0 ≤ (5 : Word).toInt) :=
  sprintf_decimal_iff (by decide) true (some 3) (fun _ => 5) (fun _ => 0)

/-- -5 in a field of five characters has its sign in front of the blanks. -/
theorem sprintf_sign_first : ¬∀ (fuel : ℕ) (zero : Bool) (w : Option ℕ) (args : ℕ → Word)
    (mem : Word → BitVec 8), 2 ^ 32 < fuel →
      ∃ out, vsprintf fuel true (directive zero w) args mem = .ok out ∧
        out = standardText zero w (args 0) ++ [0] ∧
        (zero = false → ∀ buf s, TextAt buf s out → atoi fuel buf s = some (args 0)) := by
  intro h
  obtain ⟨out, hreturn, rfl, -⟩ :=
    h (2 ^ 32 + 1) false (some 5) (fun _ => -5) (fun _ => 0) (by decide)
  have hwritten := vsprintf_decimal false (some 5) (show 2 ^ 32 < 2 ^ 32 + 1 by decide)
    (fun _ => -5) (fun _ => 0)
  have heq := List.append_cancel_right (Except.ok.inj (hwritten.symm.trans hreturn))
  exact absurd ((text_eq_standard_iff false (some 5) (-5)).mp heq) (by decide)

/-- A format is read to its end exactly where no conversion is cut off by it. -/
theorem vsprintf_inside_iff {fuel : ℕ} {text : List (BitVec 8)} (hnot : 0 ∉ text)
    (hfuel : 2 ^ 32 + text.length < fuel) (buffered : Bool) (args : ℕ → Word)
    (mem : Word → BitVec 8) :
    (∃ out, vsprintf fuel buffered text args mem = .ok out) ↔
      Vsprintf.complete .text text = true := by
  obtain ⟨hcomplete, hcut⟩ := Vsprintf.loop_eq buffered
    (by omega : 2 ^ 32 < fuel) args mem (by omega : text.length < fuel) hnot ⟨[], 0⟩
  constructor
  · rintro ⟨out, hreturn⟩
    by_contra hfalse
    rw [vsprintf, hcut (Bool.not_eq_true _ ▸ hfalse)] at hreturn
    cases hreturn
  · intro htrue
    obtain ⟨s, hs⟩ := hcomplete htrue
    rw [vsprintf, hs]
    exact ⟨_, rfl⟩

/-- A percent sign and a letter. -/
theorem vsprintf_inside_letter :
    (∃ out, vsprintf (2 ^ 32 + 3) true [byte '%', byte 'u'] (fun _ => 7) (fun _ => 0) = .ok out) ↔
      Vsprintf.complete .text [byte '%', byte 'u'] = true :=
  vsprintf_inside_iff (by decide) (by decide) true _ _

/-- A percent sign at the end. -/
theorem vsprintf_beyond : ¬∀ (fuel : ℕ) (text : List (BitVec 8)) (buffered : Bool)
    (args : ℕ → Word) (mem : Word → BitVec 8), 0 ∉ text → 2 ^ 32 + text.length < fuel →
      ∃ out, vsprintf fuel buffered text args mem = .ok out := by
  intro h
  obtain ⟨out, hreturn⟩ := h (2 ^ 32 + 2) [byte '%'] true (fun _ => 0) (fun _ => 0) (by decide)
    (by decide)
  have hcut := (Vsprintf.loop_eq true (show 2 ^ 32 < 2 ^ 32 + 2 by decide) (fun _ => 0)
    (fun _ => 0) (show [byte '%'].length < 2 ^ 32 + 2 by decide) (by decide) ⟨[], 0⟩).2 rfl
  rw [vsprintf, hcut] at hreturn
  cases hreturn

end HfRisc.Results
