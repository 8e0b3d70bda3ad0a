import HfRisc.Arch
import HfRisc.Lib.Digits
import HfRisc.Lib.Segments
import HfRisc.Lib.Text
import HfRisc.Lib.While

/-!
# Strings (`libc.c`)

What the functions that print and read numbers have in common: a character is a byte, a number has
a sign in front of its digits, and above 9 the digits are the small letters.

`strncat` (`libc.c` 126-138), `strstr` (156-166) and `strtok` (213-249) walk along strings with
pointers. A pointer is an index in memory, and `NULL` is none. A byte that is not known cannot be
read: the function stops there, so that a function that returns has read nothing else.

A call of `strtok` looks at the rest of a string from some position on. The delimiters are the
separators of its segments: the call skips up to the first segment, returns it, and leaves what is
behind the delimiter that ends it for the next call.
-/

namespace HfRisc.Soft

variable {b n : ℕ}

/-- A character as an `int8_t`. -/
def byte (c : Char) : BitVec 8 := BitVec.ofNat 8 c.toNat

/-- `isdigit`. -/
def isdigit (c : BitVec 8) : Bool := (byte '0').sle c && c.sle (byte '9')

/-- The sign in front of the number. -/
def signText (neg : Bool) : List (BitVec 8) := if neg then [byte '-'] else []

/-- `0` to `9` and `a` to `z`. -/
def digitByte (d : ℕ) : BitVec 8 := BitVec.ofNat 8 (if d < 10 then d + 48 else d + 87)

/-- The digits of `n` in the base `b`, without leading zeros. -/
def digitText (b n : ℕ) : List (BitVec 8) :=
  if n = 0 then [byte '0'] else (Nat.digits b n).reverse.map digitByte

theorem digitText_eq (hb : 1 < b) (n : ℕ) :
    digitText b n = ((Lib.backDigits b n).map digitByte).reverse := by
  rw [digitText, ← List.map_reverse]
  split
  · next h =>
    rw [h, Lib.backDigits_zero]
    rfl
  · next h => rw [Lib.backDigits_of_ne_zero hb h]

theorem length_digitText (hb : 1 < b) (n : ℕ) :
    (digitText b n).length = (Lib.backDigits b n).length := by
  rw [digitText_eq hb, List.length_reverse, List.length_map]

/-- There are at most 33 characters. -/
theorem length_text (hb : 1 < b) (n : Word) :
    (signText (n.slt 0) ++ digitText b n.toInt.natAbs).length ≤ 33 := by
  have hsign : (signText (n.slt 0)).length ≤ 1 := by cases n.slt 0 <;> decide
  have hlow : -2 ^ 31 ≤ n.toInt := BitVec.le_toInt n
  have hhigh : n.toInt < 2 ^ 31 := BitVec.toInt_lt
  have hpow : 2 ^ 32 ≤ b ^ 32 := Nat.pow_le_pow_left hb 32
  have hdigits : (Lib.backDigits b n.toInt.natAbs).length ≤ 32 :=
    (Lib.length_backDigits_le_iff hb (by decide)).mpr (by omega)
  rw [List.length_append, length_digitText hb]
  omega

theorem digitByte_ne_zero {d : ℕ} (h : d < 36) : digitByte d ≠ 0 := by
  revert d
  decide

theorem isdigit_digitByte : ∀ d < 10, isdigit (digitByte d) = true := by decide

theorem zero_notMem_digitText (hb : 1 < b) (hle : b ≤ 36) (n : ℕ) : 0 ∉ digitText b n := by
  rw [digitText_eq hb, List.mem_reverse, List.mem_map]
  rintro ⟨d, hd, hzero⟩
  exact digitByte_ne_zero ((Lib.lt_of_mem_backDigits hb hd).trans_le hle) hzero

end HfRisc.Soft

/-! ## Strings in memory (`libc.c`) -/

namespace HfRisc.Soft

open HfRisc.Lib (Round loop)

/-- The bytes that are known. -/
abbrev Bytes := ℕ → Option (BitVec 8)

/-- Why there is no result: a byte is read that is not known, or a loop is given up. -/
inductive Fault
  | unknown
  | fuel
deriving DecidableEq, Repr

/-- `*p`. -/
def read (mem : Bytes) (p : ℕ) : Except Fault (BitVec 8) :=
  match mem p with
  | some c => .ok c
  | none => .error .unknown

/-- `*p = c`. -/
def write (mem : Bytes) (p : ℕ) (c : BitVec 8) : Bytes := Function.update mem p (some c)

/-! ## `strncat` -/

namespace Strncat

/-- `while (*s1++)`. -/
def skip (mem : Bytes) (s1 : ℕ) : Except Fault (Round ℕ ℕ) := do
  let c ← read mem s1
  return if c ≠ 0 then .next (s1 + 1) else .done (s1 + 1)

/-- The variables of the loop that copies. -/
structure Vars where
  mem : Bytes
  s1 : ℕ
  s2 : ℕ
  n : Word

/-- `while ((*s1++ = *s2++)) if (--n < 0) { *--s1 = '\0'; break; }`. -/
def copy (v : Vars) : Except Fault (Round Vars Bytes) := do
  let c ← read v.mem v.s2
  let mem := write v.mem v.s1 c
  let s1 := v.s1 + 1
  let s2 := v.s2 + 1
  if c = 0 then return .done mem
  else
    let n := v.n - 1
    if n.slt 0 then return .done (write mem (s1 - 1) 0)
    else return .next ⟨mem, s1, s2, n⟩

end Strncat

/-- `strncat`, with the memory that it leaves. -/
def strncat (fuel : ℕ) (mem : Bytes) (s1 s2 : ℕ) (n : Word) : Except Fault (Bytes × ℕ) := do
  let os1 := s1
  let s1 ← loop (Strncat.skip mem) .fuel fuel s1
  let mem ← loop Strncat.copy .fuel fuel ⟨mem, s1 - 1, s2, n⟩
  return (mem, os1)

/-! ## `strstr` -/

namespace Strstr

/-- `for(i = 0; string[i] == find[i] && find[i]; ++i)`. -/
def compare (mem : Bytes) (string find i : ℕ) : Except Fault (Round ℕ ℕ) := do
  let c ← read mem (string + i)
  let d ← read mem (find + i)
  return if c = d ∧ d ≠ 0 then .next (i + 1) else .done i

/-- The comparison at one position of the string. -/
def attempt (fuel : ℕ) (mem : Bytes) (find string : ℕ) :
    Except Fault (Round ℕ (Option ℕ)) := do
  let i ← loop (compare mem string find) .fuel fuel 0
  let d ← read mem (find + i)
  if d = 0 then return .done (some string)
  else
    let c ← read mem string
    return if c = 0 then .done none else .next (string + 1)

end Strstr

/-- `strstr`. -/
def strstr (fuel : ℕ) (mem : Bytes) (string find : ℕ) : Except Fault (Option ℕ) :=
  loop (Strstr.attempt fuel mem find) .fuel fuel string

/-! ## `strtok` -/

namespace Strtok

/-- The memory, and the pointer that is kept from one call to the next. -/
structure State where
  mem : Bytes
  last : Option ℕ

/-- `for (spanp = delim; (sc = *spanp++) != 0;) if (c == sc) goto cont`: whether `c` is skipped. -/
def span (mem : Bytes) (c : BitVec 8) (spanp : ℕ) : Except Fault (Round ℕ Bool) := do
  let sc ← read mem spanp
  return if sc = 0 then .done false else if c = sc then .done true else .next (spanp + 1)

/-- From `cont` on: the first character that is not skipped, and the pointer behind it. -/
def cont (fuel : ℕ) (mem : Bytes) (delim s : ℕ) : Except Fault (Round ℕ (BitVec 8 × ℕ)) := do
  let c ← read mem s
  let skipped ← loop (span mem c) .fuel fuel delim
  return if skipped then .next (s + 1) else .done (c, s + 1)

/-- `do if ((sc = *spanp++) == c) … while (sc != 0)`: whether `c` ends the token. -/
def ends (mem : Bytes) (c : BitVec 8) (spanp : ℕ) : Except Fault (Round ℕ Bool) := do
  let sc ← read mem spanp
  return if sc = c then .done true else if sc ≠ 0 then .next (spanp + 1) else .done false

/-- The loop over a token, up to the state that it leaves. -/
def word (fuel : ℕ) (mem : Bytes) (delim s : ℕ) : Except Fault (Round ℕ State) := do
  let c ← read mem s
  let s := s + 1
  let ended ← loop (ends mem c) .fuel fuel delim
  if ended then
    if c = 0 then return .done ⟨mem, none⟩
    else return .done ⟨write mem (s - 1) 0, some s⟩
  else return .next s

end Strtok

open Strtok in
/-- `strtok`. -/
def strtok (fuel : ℕ) (σ : State) (s : Option ℕ) (delim : ℕ) :
    Except Fault (State × Option ℕ) := do
  match s.or σ.last with
  | none => return (σ, none)
  | some s =>
    let (c, s) ← loop (cont fuel σ.mem delim) .fuel fuel s
    if c = 0 then return (⟨σ.mem, none⟩, none)
    else
      let tok := s - 1
      let σ ← loop (word fuel σ.mem delim) .fuel fuel s
      return (σ, some tok)

open Strtok in
/-- `strtok(s, delim)`, and `strtok(NULL, delim)` from the second call on. -/
def strtokCalls (fuel delim : ℕ) : ℕ → State → Option ℕ →
    Except Fault (State × List (Option ℕ))
  | 0, σ, _ => return (σ, [])
  | n + 1, σ, s => do
    let (σ, tok) ← strtok fuel σ s delim
    let (σ, toks) ← strtokCalls fuel delim n σ none
    return (σ, tok :: toks)

/-! ## Strings -/

/-- The string at `s`, with the zero that ends it. -/
structure StringAt (mem : Bytes) (s : ℕ) (text : List (BitVec 8)) : Prop where
  stands : Lib.TextAt mem s ((text ++ [0]).map some)
  nonzero : 0 ∉ text

variable {mem : Bytes} {s : ℕ} {text : List (BitVec 8)} {i : ℕ}

theorem read_of_some {c : BitVec 8} (h : mem s = some c) : read mem s = .ok c := by
  rw [read, h]

theorem ok_bind {α β ε : Type} (a : α) (f : α → Except ε β) : (Except.ok a >>= f) = f a := rfl

namespace StringAt

theorem getElem?_text (hi : i ≤ text.length) :
    ((text ++ [0]).map some)[i]? = some (some (text.getD i 0)) := by
  rw [List.getElem?_map]
  rcases Nat.lt_or_eq_of_le hi with hlt | rfl
  · rw [List.getElem?_append_left hlt, List.getElem?_eq_getElem hlt, List.getD_eq_getElem _ _ hlt]
    rfl
  · rw [List.getElem?_append_right le_rfl, Nat.sub_self, List.getD_eq_default _ _ le_rfl]
    rfl

/-- The characters, and the zero behind them. -/
theorem char (h : StringAt mem s text) (hi : i ≤ text.length) :
    mem (s + i) = some (text.getD i 0) := h.stands i _ (getElem?_text hi)

theorem read (h : StringAt mem s text) (hi : i ≤ text.length) :
    read mem (s + i) = .ok (text.getD i 0) := read_of_some (h.char hi)

theorem of_char (hchar : ∀ i ≤ text.length, mem (s + i) = some (text.getD i 0))
    (hnonzero : 0 ∉ text) : StringAt mem s text where
  stands k c hc := by
    have hlt := (List.getElem?_eq_some_iff.mp hc).1
    rw [List.length_map, List.length_append, List.length_singleton] at hlt
    have hle : k ≤ text.length := Nat.le_of_lt_succ hlt
    rw [hchar k hle]
    exact Option.some.inj ((getElem?_text hle).symm.trans hc)
  nonzero := hnonzero

/-- Only the character behind the last one is zero. -/
theorem getD_eq_zero_iff (hnonzero : 0 ∉ text) : text.getD i 0 = 0 ↔ text.length ≤ i := by
  constructor
  · intro h
    by_contra hlt
    rw [List.getD_eq_getElem _ _ (Nat.lt_of_not_le hlt)] at h
    exact hnonzero (h ▸ List.getElem_mem _)
  · exact List.getD_eq_default _ _

theorem getD_ne_zero (hnonzero : 0 ∉ text) (hi : i < text.length) : text.getD i 0 ≠ 0 :=
  (getD_eq_zero_iff hnonzero).not.mpr (Nat.not_le_of_lt hi)

theorem getD_length : text.getD text.length 0 = 0 := List.getD_eq_default _ _ le_rfl

/-- A string stays where nothing is written. -/
theorem congr {mem' : Bytes} (h : StringAt mem s text)
    (heq : ∀ i ≤ text.length, mem' (s + i) = mem (s + i)) : StringAt mem' s text :=
  of_char (fun i hi => (heq i hi).trans (h.char hi)) h.nonzero

end StringAt

end HfRisc.Soft

/-! ## One call of `strtok` -/

namespace HfRisc.Soft

namespace Strtok

open HfRisc.Lib (exists_first IsSegment)

variable {mem : Bytes} {a d m i j k fuel : ℕ} {xs ds : List (BitVec 8)} {c : BitVec 8}

/-- The character at a position is a delimiter. -/
def Separator (xs ds : List (BitVec 8)) (k : ℕ) : Prop := xs.getD k 0 ∈ ds

/-- The string from a position on. -/
def RestAt (mem : Bytes) (a : ℕ) (xs : List (BitVec 8)) (m : ℕ) : Prop :=
  ∀ k, m ≤ k → k ≤ xs.length → mem (a + k) = some (xs.getD k 0)

theorem RestAt.read (h : RestAt mem a xs m) (hm : m ≤ k) (hk : k ≤ xs.length) :
    read mem (a + k) = .ok (xs.getD k 0) := read_of_some (h k hm hk)

instance : DecidablePred (Separator xs ds) := fun k =>
  inferInstanceAs (Decidable (xs.getD k 0 ∈ ds))

theorem Separator.lt (hds : 0 ∉ ds) (h : Separator xs ds k) : k < xs.length := by
  by_contra hge
  rw [Separator, List.getD_eq_default _ _ (Nat.le_of_not_lt hge)] at h
  exact hds h

/-! ## The delimiters -/

theorem getD_mem (hi : i < ds.length) : ds.getD i 0 ∈ ds := by
  rw [List.getD_eq_getElem _ _ hi]
  exact List.getElem_mem hi

/-- Where a character is looked for among the delimiters, and where the search ends. -/
theorem exists_search (ds : List (BitVec 8)) (c : BitVec 8) :
    ∃ i ≤ ds.length, (∀ k < i, ds.getD k 0 ≠ c) ∧ (i < ds.length → ds.getD i 0 = c) ∧
      (c ∈ ds ↔ i < ds.length) := by
  obtain ⟨i, -, hi, hbefore, hfirst⟩ := exists_first (fun i => ds.getD i 0 = c)
    (Nat.zero_le ds.length)
  refine ⟨i, hi, fun k hk => hbefore k (Nat.zero_le k) hk, hfirst, ?_, fun hlt => ?_⟩
  · intro hmem
    obtain ⟨k, hk, heq⟩ := List.mem_iff_getElem.mp hmem
    by_contra hge
    refine hbefore k (Nat.zero_le k) (by omega) ?_
    rw [List.getD_eq_getElem _ _ hk, heq]
  · rw [← hfirst hlt]
    exact getD_mem hlt

theorem loop_span (hd : StringAt mem d ds) (hfuel : ds.length < fuel) (c : BitVec 8) :
    Lib.loop (span mem c) .fuel fuel d = .ok (decide (c ∈ ds)) := by
  obtain ⟨i, hi, hbefore, hfirst, hmem⟩ := exists_search ds c
  refine Lib.loop_path (f := (d + ·)) (fun k hk => ?_) ?_ (hi.trans_lt hfuel)
  · have hchar := StringAt.getD_ne_zero hd.nonzero (hk.trans_le hi)
    rw [span, hd.read (by omega), ok_bind, if_neg hchar, if_neg (hbefore k hk).symm]
    rfl
  · rw [span, hd.read hi, ok_bind]
    rcases Nat.lt_or_eq_of_le hi with hlt | rfl
    · rw [if_neg (StringAt.getD_ne_zero hd.nonzero hlt), if_pos (hfirst hlt).symm,
        decide_eq_true (hmem.mpr hlt)]
      rfl
    · rw [if_pos StringAt.getD_length,
        decide_eq_false fun h => absurd (hmem.mp h) (Nat.lt_irrefl _)]
      rfl

/-- The zero that ends the delimiters is the zero that ends the string. -/
theorem loop_ends (hd : StringAt mem d ds) (hfuel : ds.length < fuel) (c : BitVec 8) :
    Lib.loop (ends mem c) .fuel fuel d = .ok (decide (c ∈ ds ∨ c = 0)) := by
  obtain ⟨i, hi, hbefore, hfirst, hmem⟩ := exists_search ds c
  refine Lib.loop_path (f := (d + ·)) (fun k hk => ?_) ?_ (hi.trans_lt hfuel)
  · have hchar := StringAt.getD_ne_zero hd.nonzero (hk.trans_le hi)
    rw [ends, hd.read (by omega), ok_bind, if_neg (hbefore k hk), if_pos hchar]
    rfl
  · rw [ends, hd.read hi, ok_bind]
    rcases Nat.lt_or_eq_of_le hi with hlt | rfl
    · rw [if_pos (hfirst hlt), decide_eq_true (.inl (hmem.mpr hlt))]
      rfl
    · have hnot : c ∉ ds := fun h => absurd (hmem.mp h) (Nat.lt_irrefl _)
      rw [StringAt.getD_length]
      by_cases hc : c = 0
      · rw [if_pos hc.symm, decide_eq_true (.inr hc)]
        rfl
      · rw [if_neg (Ne.symm hc), if_neg (not_not.mpr rfl),
          decide_eq_false (not_or.mpr ⟨hnot, hc⟩)]
        rfl

/-! ## The two loops over the string -/

section Call

variable (hd : StringAt mem d ds) (hr : RestAt mem a xs m)
  (hfuel : max xs.length ds.length < fuel)
include hd hr hfuel

theorem cont_eq (hm : m ≤ k) (hk : k ≤ xs.length) : cont fuel mem d (a + k) =
    .ok (if Separator xs ds k then .next (a + (k + 1)) else .done (xs.getD k 0, a + (k + 1))) := by
  rw [cont, hr.read hm hk, ok_bind, loop_span hd (by omega), ok_bind]
  exact congrArg Except.ok (if_congr decide_eq_true_iff rfl rfl)

/-- The delimiters up to a position are skipped. -/
theorem loop_cont (hm : m ≤ i) (hi : i ≤ xs.length)
    (hskipped : ∀ k, m ≤ k → k < i → Separator xs ds k) (hstop : ¬Separator xs ds i) :
    Lib.loop (cont fuel mem d) .fuel fuel (a + m) = .ok (xs.getD i 0, a + (i + 1)) := by
  obtain ⟨n, rfl⟩ := Nat.exists_eq_add_of_le hm
  refine Lib.loop_path (f := fun k => a + (m + k)) (fun k hk => ?_) ?_ (show n < fuel by omega)
  · rw [cont_eq hd hr hfuel (by omega) (by omega), if_pos (hskipped _ (by omega) (by omega))]
    rfl
  · rw [cont_eq hd hr hfuel (by omega) hi, if_neg hstop]

/-- The end of the string ends a token like a delimiter, and leaves nothing for the next call. -/
theorem word_eq (hm : m ≤ k) (hk : k ≤ xs.length) (hxs : 0 ∉ xs) : word fuel mem d (a + k) =
    .ok (if Separator xs ds k then .done ⟨write mem (a + k) 0, some (a + (k + 1))⟩
      else if k = xs.length then .done ⟨mem, none⟩ else .next (a + (k + 1))) := by
  have hend : xs.getD k 0 = 0 ↔ k = xs.length := by
    rw [StringAt.getD_eq_zero_iff hxs]
    omega
  rw [word, hr.read hm hk, ok_bind, loop_ends hd (by omega), ok_bind]
  by_cases hsep : Separator xs ds k
  · have hchar : xs.getD k 0 ≠ 0 := fun hzero => absurd (hend.mp hzero) (hsep.lt hd.nonzero).ne
    rw [if_pos (decide_eq_true (.inl hsep)), if_neg hchar, if_pos hsep]
    rfl
  · rw [if_neg hsep]
    by_cases hlast : k = xs.length
    · have hchar := hend.mpr hlast
      rw [if_pos (decide_eq_true (.inr hchar)), if_pos hchar, if_pos hlast]
      rfl
    · have hchar : xs.getD k 0 ≠ 0 := fun hzero => hlast (hend.mp hzero)
      rw [if_neg (fun h => (of_decide_eq_true h).elim hsep hchar), if_neg hlast]
      rfl

/-- A token is left behind its first character, and ends at the first delimiter. -/
theorem loop_word (hm : m ≤ i) (hij : i ≤ j) (hj : j ≤ xs.length) (hxs : 0 ∉ xs)
    (hfree : ∀ k, i ≤ k → k < j → ¬Separator xs ds k) (hright : j < xs.length → Separator xs ds j) :
    Lib.loop (word fuel mem d) .fuel fuel (a + i) =
      .ok (if j < xs.length then ⟨write mem (a + j) 0, some (a + (j + 1))⟩ else ⟨mem, none⟩) := by
  obtain ⟨n, rfl⟩ := Nat.exists_eq_add_of_le hij
  refine Lib.loop_path (f := fun k => a + (i + k)) (fun k hk => ?_) ?_ (show n < fuel by omega)
  · rw [word_eq hd hr hfuel (by omega) (by omega) hxs, if_neg (hfree _ (by omega) (by omega)),
      if_neg (by omega)]
    rfl
  · rw [word_eq hd hr hfuel (by omega) hj hxs]
    rcases Nat.lt_or_eq_of_le hj with hlt | heq
    · rw [if_pos (hright hlt), if_pos hlt]
    · have hnot : ¬Separator xs ds (i + n) := fun hsep =>
        absurd heq (hsep.lt hd.nonzero).ne
      rw [if_neg hnot, if_pos heq, if_neg (by omega)]

/-! ## The call -/

variable {last s : Option ℕ}

/-- Where there are delimiters only, there is no token, neither now nor later. -/
theorem strtok_end (hs : s.or last = some (a + m)) (hm : m ≤ xs.length)
    (hsep : ∀ k, m ≤ k → k < xs.length → Separator xs ds k) :
    strtok fuel ⟨mem, last⟩ s d = .ok (⟨mem, none⟩, none) := by
  have hstop : ¬Separator xs ds xs.length := fun h => absurd (h.lt hd.nonzero) (Nat.lt_irrefl _)
  have hloop := loop_cont hd hr hfuel hm le_rfl hsep hstop
  rw [StringAt.getD_length] at hloop
  simp only [strtok, hs, hloop, ok_bind]
  rfl

/-- The first segment is the token, and the delimiter behind it is overwritten. -/
theorem strtok_token (hs : s.or last = some (a + m)) (hxs : 0 ∉ xs)
    (h : IsSegment.First (Separator xs ds) xs.length m i j) :
    strtok fuel ⟨mem, last⟩ s d =
      .ok (if j < xs.length then ⟨write mem (a + j) 0, some (a + (j + 1))⟩ else ⟨mem, none⟩,
        some (a + i)) := by
  have hseg := h.segment
  have hlt := hseg.lt
  have hle := hseg.le
  have hchar : xs.getD i 0 ≠ 0 := StringAt.getD_ne_zero hxs (hlt.trans_le hle)
  have hcont := loop_cont hd hr hfuel h.start (by omega) h.skipped (hseg.free i le_rfl hlt)
  have hword := loop_word hd hr hfuel (i := i + 1) (by have := h.start; omega) hlt hle hxs
    (fun k hk hkj => hseg.free k (by omega) hkj) hseg.right
  simp only [strtok, hs, hcont, ok_bind, if_neg hchar, hword]
  rfl

end Call

/-- After the last token the calls go on with `NULL`. -/
theorem strtok_null (fuel d : ℕ) (mem : Bytes) :
    strtok fuel ⟨mem, none⟩ none d = .ok (⟨mem, none⟩, none) := rfl

end Strtok

end HfRisc.Soft
