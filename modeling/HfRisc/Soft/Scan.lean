import HfRisc.Arch
import HfRisc.Soft.Strings

/-!
# Reading numbers (`atoi`, `strtol`)

Both accumulate the digits from the first one on, in 32 bits. `atoi` skips blanks and reads all
decimal digits, `strtol` has the digits of all bases and reads nine of them. A pointer is an index
in the buffer.
-/

namespace HfRisc.Soft

open HfRisc.Lib (TextAt)

/-! ## The functions -/

namespace Atoi

/-- The variables of the loop over the digits. -/
structure Vars where
  s : ℕ
  n : Word

/-- `n = n*10 + *s++ - '0'`. -/
def digit (buf : ℕ → BitVec 8) (v : Vars) : Vars where
  s := v.s + 1
  n := v.n * 10 + (buf v.s).signExtend 32 - 48

end Atoi

open Atoi in
/-- `atoi`. -/
def atoi (fuel : ℕ) (buf : ℕ → BitVec 8) (s : ℕ) : Option Word := do
  let s ← Lib.whileLoop (fun s => buf s = byte ' ' ∨ buf s = byte '\t') (· + 1) fuel s
  let f := buf s = byte '-'
  let s := if buf s = byte '-' ∨ buf s = byte '+' then s + 1 else s
  let v ← Lib.whileLoop (fun v => isdigit (buf v.s)) (digit buf) fuel ⟨s, 0⟩
  return if f then -v.n else v.n

namespace Strtol

/-- What a character stands for as a digit, where it is one. -/
def digit (ch : Word) : Option Word :=
  if 48 ≤ ch ∧ ch ≤ 57 then some (ch - 48)
  else if 65 ≤ ch ∧ ch ≤ 90 then some (ch - 65 + 10)
  else if 97 ≤ ch ∧ ch ≤ 122 then some (ch - 97 + 10)
  else none

/-- The loop over the digits, with the rounds that are left. A character that is no digit ends it,
and `s` is behind this character. -/
def loop (buf : ℕ → BitVec 8) (base : Word) : ℕ → ℕ → Word → Word × ℕ
  | 0, s, value => (value, s)
  | i + 1, s, value =>
    match digit ((buf s).signExtend 32) with
    | some ch => loop buf base i (s + 1) (value * base + ch)
    | none => (value, s + 1)

end Strtol

/-- `strtol`, with what it stores at `end`. -/
def strtol (buf : ℕ → BitVec 8) (s : ℕ) (base : Word) : Word × ℕ :=
  let neg := buf s = byte '-'
  let s := if buf s = byte '-' then s + 1 else s
  let hex := buf s = byte '0' ∧ buf (s + 1) = byte 'x'
  let base := if hex then 16 else base
  let s := if hex then s + 2 else s
  let (value, s) := Strtol.loop buf base 9 s 0
  (if neg then -value else value, s - 1)

/-! ## `atoi` -/

namespace Atoi

variable {buf : ℕ → BitVec 8} {fuel a v : ℕ} {z : BitVec 8} {ds : List ℕ}

theorem signExtend_digitByte :
    ∀ d < 10, (digitByte d).signExtend 32 = BitVec.ofNat 32 d + 48 := by decide

/-- A digit more. -/
theorem accumulate {d : ℕ} (hd : d < 10) :
    BitVec.ofNat 32 v * 10 + (digitByte d).signExtend 32 - 48 = BitVec.ofNat 32 (v * 10 + d) := by
  have hten : (10 : Word) = BitVec.ofNat 32 10 := rfl
  rw [signExtend_digitByte d hd, ← BitVec.add_assoc, BitVec.add_sub_cancel, hten,
    ← BitVec.ofNat_mul, ← BitVec.ofNat_add]

/-- The digits in front of what is none. -/
theorem loop_digits (h : TextAt buf a (ds.map digitByte ++ [z])) (hds : ∀ d ∈ ds, d < 10)
    (hz : isdigit z = false) (hfuel : ds.length < fuel) :
    ∃ s, Lib.whileLoop (fun v => isdigit (buf v.s)) (digit buf) fuel ⟨a, BitVec.ofNat 32 v⟩ =
      some ⟨s, BitVec.ofNat 32 (ds.foldl (fun v d => v * 10 + d) v)⟩ := by
  induction ds generalizing a v fuel with
  | nil =>
    obtain ⟨fuel, rfl⟩ := Nat.exists_eq_succ_of_ne_zero (Nat.ne_zero_of_lt hfuel)
    have hend : buf a = z := (TextAt.cons_iff.mp h).1
    rw [Lib.whileLoop, if_neg (by rw [hend, hz]; exact Bool.false_ne_true)]
    exact ⟨a, rfl⟩
  | cons d ds ih =>
    obtain ⟨fuel, rfl⟩ := Nat.exists_eq_succ_of_ne_zero (Nat.ne_zero_of_lt hfuel)
    obtain ⟨hd, hrest⟩ := TextAt.cons_iff.mp h
    rw [List.forall_mem_cons] at hds
    have hnext : digit buf ⟨a, BitVec.ofNat 32 v⟩ = ⟨a + 1, BitVec.ofNat 32 (v * 10 + d)⟩ := by
      rw [digit, hd, accumulate hds.1]
    rw [Lib.whileLoop, if_pos (by rw [hd]; exact isdigit_digitByte d hds.1), hnext]
    exact ih hrest hds.2 (Nat.lt_of_succ_lt_succ hfuel)

/-- The blanks in front of what is none. -/
theorem loop_blanks {k : ℕ} {c : BitVec 8} {text : List (BitVec 8)}
    (h : TextAt buf a (List.replicate k (byte ' ') ++ c :: text)) (hblank : c ≠ byte ' ')
    (htab : c ≠ byte '\t') (hfuel : k < fuel) :
    Lib.whileLoop (fun s => buf s = byte ' ' ∨ buf s = byte '\t') (· + 1) fuel a =
      some (a + k) := by
  induction k generalizing a fuel with
  | zero =>
    obtain ⟨fuel, rfl⟩ := Nat.exists_eq_succ_of_ne_zero (Nat.ne_zero_of_lt hfuel)
    have hc : buf a = c := (TextAt.cons_iff.mp h).1
    rw [Lib.whileLoop, if_neg (by
      rw [decide_eq_true_iff, hc]
      exact not_or.mpr ⟨hblank, htab⟩)]
    rfl
  | succ k ih =>
    obtain ⟨fuel, rfl⟩ := Nat.exists_eq_succ_of_ne_zero (Nat.ne_zero_of_lt hfuel)
    obtain ⟨hfirst, hrest⟩ := TextAt.cons_iff.mp h
    rw [Lib.whileLoop, if_pos (decide_eq_true (.inl hfirst)),
      ih hrest (Nat.lt_of_succ_lt_succ hfuel), Nat.add_assoc, Nat.add_comm 1]

theorem digitByte_not_blank : ∀ d < 10, digitByte d ≠ byte ' ' ∧ digitByte d ≠ byte '\t' ∧
    digitByte d ≠ byte '-' ∧ digitByte d ≠ byte '+' := by decide

/-- Digits that are not skipped, and have no sign. -/
theorem digits_eq (m : ℕ) : ∃ ds : List ℕ, digitText 10 m = ds.map digitByte ∧ ds ≠ [] ∧
    (∀ d ∈ ds, d < 10) ∧ ds.foldl (fun v d => v * 10 + d) 0 = m := by
  refine ⟨(Lib.backDigits 10 m).reverse, ?_, ?_, fun d hd => ?_, ?_⟩
  · rw [digitText_eq (by decide), List.map_reverse]
  · rw [Ne, List.reverse_eq_nil_iff]
    exact List.cons_ne_nil _ _
  · exact Lib.lt_of_mem_backDigits (by decide) (List.mem_reverse.mp hd)
  · rw [Lib.foldl_digits, Nat.zero_mul, Nat.zero_add, List.reverse_reverse, Lib.ofDigits_backDigits]

/-- What is read where the blanks end at `s` and the sign ends at `p`. -/
theorem atoi_of_sign {s p : ℕ}
    (hskip : Lib.whileLoop (fun s => buf s = byte ' ' ∨ buf s = byte '\t') (· + 1) fuel a = some s)
    (hsign : (if buf s = byte '-' ∨ buf s = byte '+' then s + 1 else s) = p)
    (h : TextAt buf p (ds.map digitByte ++ [z])) (hds : ∀ d ∈ ds, d < 10)
    (hz : isdigit z = false) (hfuel : ds.length < fuel) :
    atoi fuel buf a = some (if buf s = byte '-' then
      -BitVec.ofNat 32 (ds.foldl (fun v d => v * 10 + d) 0)
      else BitVec.ofNat 32 (ds.foldl (fun v d => v * 10 + d) 0)) := by
  have hzero : (0 : Word) = BitVec.ofNat 32 0 := rfl
  obtain ⟨t, hloop⟩ := loop_digits (v := 0) h hds hz hfuel
  rw [atoi, hskip, Option.bind_eq_bind, Option.bind_some]
  simp only [hsign, hzero, hloop]
  rfl

/-- A number behind blanks. -/
theorem atoi_eq {k m : ℕ} {neg : Bool}
    (h : TextAt buf a (List.replicate k (byte ' ') ++ (signText neg ++ (digitText 10 m ++ [z]))))
    (hz : isdigit z = false) (hfuel : max k (digitText 10 m).length < fuel) :
    atoi fuel buf a = some (if neg then -BitVec.ofNat 32 m else BitVec.ofNat 32 m) := by
  obtain ⟨ds, hdigits, hne, hds, hvalue⟩ := digits_eq m
  rw [hdigits, List.length_map] at hfuel
  rw [hdigits] at h
  have hnumber := (TextAt.append_iff.mp h).2
  rw [List.length_replicate] at hnumber
  cases neg with
  | false =>
    obtain ⟨d, ds', rfl⟩ := List.exists_cons_of_ne_nil hne
    obtain ⟨hblank, htab, hminus, hplus⟩ := digitByte_not_blank d (hds d List.mem_cons_self)
    have hfirst : buf (a + k) = digitByte d := (TextAt.cons_iff.mp hnumber).1
    have hskip := loop_blanks h hblank htab (by omega : k < fuel)
    have hatoi := atoi_of_sign hskip (if_neg (by rw [hfirst]; exact not_or.mpr ⟨hminus, hplus⟩))
      hnumber hds hz (by omega)
    rwa [hvalue, hfirst, if_neg hminus] at hatoi
  | true =>
    obtain ⟨hfirst, hdigits'⟩ := TextAt.cons_iff.mp hnumber
    have hskip := loop_blanks h (by decide) (by decide) (by omega : k < fuel)
    have hatoi := atoi_of_sign hskip (if_pos (.inl hfirst)) hdigits' hds hz (by omega)
    rwa [hvalue, if_pos hfirst] at hatoi

end Atoi

/-! ## `strtol` -/

namespace Strtol

variable {buf : ℕ → BitVec 8} {base : Word} {a i v : ℕ} {z : BitVec 8} {ds : List ℕ}

theorem digit_digitByte :
    ∀ d < 36, digit ((digitByte d).signExtend 32) = some (BitVec.ofNat 32 d) := by decide

theorem digit_zero : digit ((0 : BitVec 8).signExtend 32) = none := by decide

/-- The value of as many digits as there are rounds. -/
theorem loop_digits (base : Word) (i v : ℕ) (h : TextAt buf a (ds.map digitByte))
    (hds : ∀ d ∈ ds, d < 36) :
    loop buf base (ds.length + i) a (BitVec.ofNat 32 v) = loop buf base i (a + ds.length)
      (BitVec.ofNat 32 (ds.foldl (fun v d => v * base.toNat + d) v)) := by
  induction ds generalizing a v with
  | nil =>
    rw [List.length_nil, Nat.zero_add]
    rfl
  | cons d ds ih =>
    obtain ⟨hd, hrest⟩ := TextAt.cons_iff.mp h
    rw [List.forall_mem_cons] at hds
    have hnext : BitVec.ofNat 32 v * base + BitVec.ofNat 32 d =
        BitVec.ofNat 32 (v * base.toNat + d) := by
      rw [BitVec.ofNat_add, BitVec.ofNat_mul, BitVec.ofNat_toNat, BitVec.setWidth_eq]
    have hrounds : (d :: ds).length + i = ds.length + i + 1 := by
      rw [List.length_cons, Nat.add_right_comm]
    rw [hrounds, loop, hd, digit_digitByte d hds.1]
    simp only [hnext]
    rw [ih _ hrest hds.2, List.foldl_cons, List.length_cons, Nat.add_assoc, Nat.add_comm 1]

/-- The end of the text takes a round too, so that it is seen behind eight digits at most. -/
theorem loop_eq (base : Word) (h : TextAt buf a (ds.map digitByte ++ [0]))
    (hds : ∀ d ∈ ds, d < 36) :
    loop buf base 9 a 0 =
      (BitVec.ofNat 32 ((ds.take 9).foldl (fun v d => v * base.toNat + d) 0),
        a + min (ds.length + 1) 9) := by
  have hzero : (0 : Word) = BitVec.ofNat 32 0 := rfl
  rcases Nat.lt_or_ge ds.length 9 with hlt | hge
  · obtain ⟨i, hi⟩ := Nat.exists_eq_add_of_le (Nat.succ_le_of_lt hlt)
    have hrounds : 9 = ds.length + (i + 1) := by omega
    obtain ⟨hdigits, hend⟩ := TextAt.append_iff.mp h
    rw [List.length_map, TextAt.cons_iff] at hend
    rw [List.take_of_length_le hlt.le, Nat.min_eq_left hlt, hzero]
    conv_lhs => rw [hrounds]
    rw [loop_digits base (i + 1) 0 hdigits hds, loop, hend.1, digit_zero]
    rfl
  · -- all rounds read a digit
    have htake : (ds.take 9).length = 9 := by
      rw [List.length_take, Nat.min_eq_left hge]
    have hdigits : TextAt buf a ((ds.take 9).map digitByte) := by
      rw [← List.take_append_drop 9 ds, List.map_append, List.append_assoc] at h
      exact (TextAt.append_iff.mp h).1
    have hloop := loop_digits base 0 0 hdigits fun d hd =>
      hds d (List.mem_of_mem_take hd)
    rw [htake] at hloop
    rw [Nat.min_eq_right (by omega)]
    exact hloop

/-- What is read where the sign ends at `p`. -/
theorem strtol_of_sign (base : Word) {p : ℕ} (hsign : (if buf a = byte '-' then a + 1 else a) = p)
    (h : TextAt buf p (ds.map digitByte ++ [0])) (hds : ∀ d ∈ ds, d < 36)
    (hlead : ∀ ds', ds = 0 :: ds' → ds' = []) :
    strtol buf a base =
      let value := BitVec.ofNat 32 ((ds.take 9).foldl (fun v d => v * base.toNat + d) 0)
      (if buf a = byte '-' then -value else value, p + min ds.length 8) := by
  -- a single zero is followed by the end of the text
  have hhex : ¬(buf p = byte '0' ∧ buf (p + 1) = byte 'x') := by
    rintro ⟨hfirst, hsecond⟩
    cases ds with
    | nil =>
      have hend : buf p = 0 := (TextAt.cons_iff.mp h).1
      rw [hend] at hfirst
      exact absurd hfirst (by decide)
    | cons d ds =>
      obtain ⟨hd, hrest⟩ := TextAt.cons_iff.mp h
      rw [hd] at hfirst
      have hzero : d = 0 := by
        have hnonzero : ∀ d < 36, digitByte d = byte '0' → d = 0 := by decide
        exact hnonzero d (hds d List.mem_cons_self) hfirst
      obtain rfl := hlead ds (by rw [hzero])
      have hend : buf (p + 1) = 0 := (TextAt.cons_iff.mp hrest).1
      rw [hend] at hsecond
      exact absurd hsecond (by decide)
  have hlast : p + min (ds.length + 1) 9 - 1 = p + min ds.length 8 := by omega
  rw [strtol, hsign]
  simp only [if_neg hhex, loop_eq base h hds, hlast]

/-- What is read from a text with its sign. -/
theorem strtol_eq (base : Word) {neg : Bool}
    (h : TextAt buf a (signText neg ++ (ds.map digitByte ++ [0]))) (hds : ∀ d ∈ ds, d < 36)
    (hlead : ∀ ds', ds = 0 :: ds' → ds' = []) (hne : ds ≠ []) :
    strtol buf a base =
      let value := BitVec.ofNat 32 ((ds.take 9).foldl (fun v d => v * base.toNat + d) 0)
      (if neg then -value else value, a + (signText neg).length + min ds.length 8) := by
  cases neg with
  | false =>
    obtain ⟨d, ds', rfl⟩ := List.exists_cons_of_ne_nil hne
    have hfirst : buf a = digitByte d := (TextAt.cons_iff.mp h).1
    have hminus : buf a ≠ byte '-' := by
      have hnot : ∀ d < 36, digitByte d ≠ byte '-' := by decide
      rw [hfirst]
      exact hnot d (hds d List.mem_cons_self)
    have hread := strtol_of_sign base (if_neg hminus) h hds hlead
    simp only [if_neg hminus] at hread
    exact hread
  | true =>
    obtain ⟨hfirst, hdigits⟩ := TextAt.cons_iff.mp h
    have hread := strtol_of_sign base (if_pos hfirst) hdigits hds hlead
    simp only [if_pos hfirst] at hread
    exact hread

end Strtol

end HfRisc.Soft
