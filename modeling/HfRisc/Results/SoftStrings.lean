import HfRisc.Lib.Segments
import HfRisc.Soft.Memory
import HfRisc.Soft.Strings
import Mathlib.Data.List.Infix

/-!
# `memmove`, `strncat` and `strstr`

`memmove` (`libc.c` 261-277) copies a region whatever its position to the other one, as long as
neither of them wraps around (`memmove_eq`).

`strncat` (`libc.c` 126-138) stores the character behind the last one that is taken too, and
replaces it by the zero. The copy goes upward, so that the second string may lie in front of the
first one or behind it.

`strstr` (`libc.c` 156-166) ends a comparison at the first difference or at the end of the pattern.
It does not run past the end of the string: up to there the characters are those of the pattern,
and none of them is zero.
-/

namespace HfRisc.Soft

open Memmove

variable {dst src n : Word} {fuel : ℕ}

/-- Both directions copy all bytes. -/
theorem memmove_eq (hfuel : n.toNat < fuel) (mem : Word → BitVec 8)
    (hsrc : src.toNat + n.toNat ≤ 2 ^ 32) (hdst : dst.toNat + n.toNat ≤ 2 ^ 32) :
    memmove fuel mem dst src n = some (copied mem dst src 0 n.toNat, dst) := by
  rw [memmove]
  by_cases hle : dst ≤ src
  · obtain ⟨v, hloop, hmem⟩ := loop_up mem hle hsrc hfuel
    rw [if_pos hle, hloop, ← hmem]
    rfl
  · obtain ⟨v, hloop, hmem⟩ := loop_down mem hle hdst hfuel
    rw [if_neg hle, hloop, ← hmem]
    rfl

end HfRisc.Soft

namespace HfRisc.Results

open HfRisc.Soft

/-- The destination has what the source had, and nothing else is written. -/
theorem memmove_copies {fuel : ℕ} (mem : Word → BitVec 8) (dst src n : Word)
    (hfuel : n.toNat < fuel) (hsrc : src.toNat + n.toNat ≤ 2 ^ 32)
    (hdst : dst.toNat + n.toNat ≤ 2 ^ 32) :
    ∃ mem', memmove fuel mem dst src n = some (mem', dst) ∧
      (∀ i < n.toNat, mem' (dst + BitVec.ofNat 32 i) = mem (src + BitVec.ofNat 32 i)) ∧
      ∀ j, (∀ i < n.toNat, j ≠ dst + BitVec.ofNat 32 i) → mem' j = mem j := by
  have hlt := n.isLt
  refine ⟨_, memmove_eq hfuel mem hsrc hdst, fun i hi => ?_, fun j hj => ?_⟩
  · have hoffset : (dst + BitVec.ofNat 32 i - dst).toNat = i := Lib.toNat_offset (by omega)
    have hcancel : dst + BitVec.ofNat 32 i - dst = BitVec.ofNat 32 i := by
      rw [BitVec.add_comm, BitVec.add_sub_cancel]
    rw [Memmove.copied, if_pos ⟨Nat.zero_le _, by rwa [hoffset]⟩, hcancel]
  · refine if_neg fun h => hj _ h.2 ?_
    exact (Memmove.eq_offset_iff (j - dst).isLt).mpr rfl

/-- Two bytes at 4 are moved to 5. -/
theorem memmove_copies_overlap :
    ∃ mem', memmove 3 (fun a => a.setWidth 8) 5 4 2 = some (mem', 5) ∧
      (∀ i < (2 : Word).toNat, mem' (5 + BitVec.ofNat 32 i) = (4 + BitVec.ofNat 32 i).setWidth 8) ∧
      ∀ j, (∀ i < (2 : Word).toNat, j ≠ 5 + BitVec.ofNat 32 i) → mem' j = j.setWidth 8 :=
  memmove_copies _ 5 4 2 (by decide) (by decide) (by decide)

end HfRisc.Results

/-! ## `strncat` -/

namespace HfRisc.Soft

namespace Strncat

variable {mem : Bytes} {p b i : ℕ} {s1 s2 fuel : ℕ} {xs ys : List (BitVec 8)} {n : Word}

/-- The first `i` characters at `b` are at `p` too. -/
def copied (mem : Bytes) (p b i : ℕ) : Bytes := fun q =>
  if p ≤ q ∧ q < p + i then mem (b + (q - p)) else mem q

theorem copied_zero : copied mem p b 0 = mem := by
  funext q
  rw [copied, if_neg (by omega)]

theorem copied_inside {k : ℕ} (h : k < i) : copied mem p b i (p + k) = mem (b + k) := by
  rw [copied, if_pos (by omega), Nat.add_sub_cancel_left]

theorem copied_outside {q : ℕ} (h : q < p ∨ p + i ≤ q) : copied mem p b i q = mem q := by
  rw [copied, if_neg (by omega)]

/-- One character more. -/
theorem write_copied {c : BitVec 8} (h : mem (b + i) = some c) :
    write (copied mem p b i) (p + i) c = copied mem p b (i + 1) := by
  funext q
  rw [write, Function.update_apply, copied, copied]
  by_cases hq : q = p + i
  · rw [if_pos hq, if_pos (by omega), ← h]
    congr 1
    omega
  · rw [if_neg hq]
    exact if_congr (by omega) rfl rfl

/-- The first loop ends behind the zero. -/
theorem loop_skip (h : StringAt mem s1 xs) (hfuel : xs.length < fuel) :
    Lib.loop (skip mem) .fuel fuel s1 = .ok (s1 + xs.length + 1) := by
  refine Lib.loop_path (f := (s1 + ·)) (fun i hi => ?_) ?_ hfuel
  · rw [skip, h.read hi.le, ok_bind, if_pos (StringAt.getD_ne_zero h.nonzero hi)]
    rfl
  · rw [skip, h.read le_rfl, ok_bind, if_neg (not_not.mpr StringAt.getD_length)]
    rfl

/-- The count is negative after one round more than it says. -/
theorem slt_count (hn : 0 ≤ n.toInt) (hi : i ≤ n.toInt.toNat) :
    (n - BitVec.ofNat 32 i - 1).slt 0 = decide (i = n.toInt.toNat) := by
  have hlt : n.toInt < 2 ^ 31 := BitVec.toInt_lt
  have hzero : (0 : Word).toInt = 0 := rfl
  have hsub : n - BitVec.ofNat 32 i - 1 = BitVec.ofInt 32 (n.toInt - i - 1) := by
    have hone : (1 : Word) = BitVec.ofInt 32 1 := rfl
    rw [sub_eq_add_neg (n.toInt - i), sub_eq_add_neg n.toInt, BitVec.ofInt_add, BitVec.ofInt_add,
      BitVec.ofInt_neg, BitVec.ofInt_neg, BitVec.ofInt_toInt, BitVec.ofInt_natCast,
      BitVec.sub_eq_add_neg, BitVec.sub_eq_add_neg, hone]
  rw [BitVec.slt, hzero, hsub, BitVec.toInt_ofInt_eq_self (by decide) (by omega) (by omega)]
  exact decide_eq_decide.mpr (by omega)

/-- The variables after `i` characters. -/
def after (mem : Bytes) (p b : ℕ) (n : Word) (i : ℕ) : Vars :=
  ⟨copied mem p b i, p + i, b + i, n - BitVec.ofNat 32 i⟩

theorem after_zero : after mem p b n 0 = ⟨mem, p, b, n⟩ := by
  have hstart : n - BitVec.ofNat 32 0 = n := BitVec.sub_zero n
  rw [after, copied_zero, hstart]
  rfl

/-- The second loop ends behind all characters, or behind as many as are counted. -/
theorem loop_copy (h : StringAt mem b ys) (hsource : ∀ i ≤ ys.length, b + i < p ∨ p + i ≤ b + i)
    (hn : 0 ≤ n.toInt) (hfuel : ys.length < fuel) :
    Lib.loop copy .fuel fuel ⟨mem, p, b, n⟩ =
      .ok (write (copied mem p b (min n.toInt.toNat ys.length))
        (p + min n.toInt.toNat ys.length) 0) := by
  have hread : ∀ i ≤ ys.length, read (copied mem p b i) (b + i) = .ok (ys.getD i 0) :=
    fun i hi => read_of_some ((copied_outside (hsource i hi)).trans (h.char hi))
  rw [← after_zero]
  refine Lib.loop_path (fun i hi => ?_) ?_ (show min n.toInt.toNat ys.length < fuel by omega)
  · -- there is a character, and it is counted
    have hchar : ys.getD i 0 ≠ 0 := StringAt.getD_ne_zero h.nonzero (by omega)
    have hnext : n - BitVec.ofNat 32 i - 1 = n - BitVec.ofNat 32 (i + 1) := by
      rw [BitVec.ofNat_add, BitVec.sub_sub]
      rfl
    have hcount : ¬(n - BitVec.ofNat 32 (i + 1)).slt 0 = true := by
      rw [← hnext, slt_count hn (by omega), decide_eq_true_iff]
      omega
    simp only [after, copy, hread i (by omega), ok_bind, if_neg hchar, hnext, if_neg hcount,
      write_copied (h.char (by omega : i ≤ ys.length))]
    rfl
  · rcases Nat.lt_or_ge n.toInt.toNat ys.length with hlt | hge
    · -- the character that is not counted any more is replaced
      have hmin : min n.toInt.toNat ys.length = n.toInt.toNat := by omega
      have hchar : ys.getD n.toInt.toNat 0 ≠ 0 := StringAt.getD_ne_zero h.nonzero hlt
      have hcount : (n - BitVec.ofNat 32 n.toInt.toNat - 1).slt 0 = true := by
        rw [slt_count hn le_rfl, decide_eq_true rfl]
      simp only [hmin, after, copy, hread _ hlt.le, ok_bind, if_neg hchar, if_pos hcount, write,
        Nat.add_sub_cancel, Function.update_idem]
      rfl
    · -- the zero is copied as well
      have hmin : min n.toInt.toNat ys.length = ys.length := by omega
      simp only [hmin, after, copy, hread _ le_rfl, ok_bind, StringAt.getD_length]
      rfl

/-- What stands at `s1` afterwards. -/
theorem stringAt_copied {p : ℕ} {mem' : Bytes} (h1 : StringAt mem s1 xs) (h2 : StringAt mem s2 ys)
    (hp : p = s1 + xs.length) {m : ℕ} (hm : m ≤ ys.length)
    (hmem' : mem' = write (copied mem p s2 m) (p + m) 0) :
    StringAt mem' s1 (xs ++ ys.take m) := by
  have hlength : (xs ++ ys.take m).length = xs.length + m := by
    rw [List.length_append, List.length_take, Nat.min_eq_left hm]
  refine .of_char (fun i hi => ?_) fun hzero => ?_
  · rw [hlength] at hi
    rw [hmem', write, hp]
    rcases Nat.lt_or_ge i xs.length with hlt | hge
    · rw [Function.update_of_ne (by omega), copied_outside (.inl (by omega)), h1.char hlt.le,
        List.getD_append _ _ _ _ hlt]
    · obtain ⟨k, rfl⟩ := Nat.exists_eq_add_of_le hge
      rw [List.getD_append_right _ _ _ _ hge, Nat.add_sub_cancel_left, ← Nat.add_assoc]
      rcases Nat.lt_or_ge k m with hlt | hge
      · rw [Function.update_of_ne (by omega), copied_inside hlt, h2.char (hlt.le.trans hm),
          List.getD_eq_getElem?_getD, List.getD_eq_getElem?_getD, List.getElem?_take_of_lt hlt]
      · obtain rfl : k = m := by omega
        rw [Function.update_self, List.getD_eq_default]
        exact List.length_take_le _ _
  · rcases List.mem_append.mp hzero with hxs | hys
    · exact h1.nonzero hxs
    · exact h2.nonzero (List.mem_of_mem_take hys)

/-- Nothing else is written. -/
theorem copied_frame {m q : ℕ} (h : q < p ∨ p + m < q) :
    write (copied mem p b m) (p + m) 0 q = mem q := by
  rw [write, Function.update_of_ne (by omega), copied_outside (by omega)]

/-- Where the strings do not overlap, what is read next has not been written. -/
theorem source_apart (h : s1 + xs.length < s2 ∨ s2 + ys.length < s1) :
    ∀ i ≤ ys.length, s2 + i < s1 + xs.length ∨ s1 + xs.length + i ≤ s2 + i := fun i hi => by omega

end Strncat

open Strncat in
theorem strncat_eq {mem : Bytes} {s1 s2 fuel : ℕ} {xs ys : List (BitVec 8)} {n : Word}
    (h1 : StringAt mem s1 xs) (h2 : StringAt mem s2 ys)
    (hapart : s1 + xs.length < s2 ∨ s2 + ys.length < s1) (hn : 0 ≤ n.toInt)
    (hfuel : max xs.length ys.length < fuel) :
    strncat fuel mem s1 s2 n = .ok (write
      (copied mem (s1 + xs.length) s2 (min n.toInt.toNat ys.length))
      (s1 + xs.length + min n.toInt.toNat ys.length) 0, s1) := by
  have hskip := loop_skip h1 (show xs.length < fuel by omega)
  have hcopy := loop_copy h2 (source_apart hapart) hn (show ys.length < fuel by omega)
  simp only [strncat, hskip, ok_bind, Nat.add_sub_cancel, hcopy]
  rfl

end HfRisc.Soft

namespace HfRisc.Results

open HfRisc.Soft

/-- What is appended are the first `n` characters of `s2`, or all of them, and a zero. Nothing in
front of the end of `s1` or behind the new end is written. -/
theorem strncat_appends {fuel : ℕ} {mem : Bytes} {s1 s2 : ℕ} {xs ys : List (BitVec 8)} {n : Word}
    (h1 : StringAt mem s1 xs) (h2 : StringAt mem s2 ys)
    (hapart : s1 + xs.length < s2 ∨ s2 + ys.length < s1) (hn : 0 ≤ n.toInt)
    (hfuel : max xs.length ys.length < fuel) :
    ∃ mem', strncat fuel mem s1 s2 n = .ok (mem', s1) ∧
      StringAt mem' s1 (xs ++ ys.take (min n.toInt.toNat ys.length)) ∧
      ∀ q, q < s1 + xs.length ∨ s1 + xs.length + min n.toInt.toNat ys.length < q →
        mem' q = mem q :=
  ⟨_, strncat_eq h1 h2 hapart hn hfuel,
    Strncat.stringAt_copied h1 h2 rfl (Nat.min_le_right _ _) rfl,
    fun _ hq => Strncat.copied_frame hq⟩

/-- Two characters of `xyz` behind `ab`. -/
theorem strncat_appends_two :
    let mem : Bytes := fun q => ([97, 98, 0, 120, 121, 122, 0] : List (BitVec 8))[q]?
    ∃ mem', strncat 4 mem 0 3 2 = .ok (mem', 0) ∧
      StringAt mem' 0 ([97, 98] ++ [120, 121, 122].take (min (2 : Word).toInt.toNat 3)) ∧
      ∀ q, q < 0 + 2 ∨ 0 + 2 + min (2 : Word).toInt.toNat 3 < q → mem' q = mem q := by
  intro mem
  have h1 : StringAt mem 0 [97, 98] := .of_char (by decide) (by decide)
  have h2 : StringAt mem 3 [120, 121, 122] := .of_char (by decide) (by decide)
  exact strncat_appends h1 h2 (by decide) (by decide) (by decide)

end HfRisc.Results

/-! ## `strstr` -/

namespace HfRisc.Soft

namespace Strstr

variable {mem : Bytes} {string find fuel k : ℕ} {xs ys : List (BitVec 8)}

/-- The pattern occurs where its characters are those of the string. -/
theorem isPrefix_iff (hys : 0 ∉ ys) :
    ys <+: xs.drop k ↔ ∀ i < ys.length, xs.getD (k + i) 0 = ys.getD i 0 := by
  rw [List.prefix_iff_getElem?]
  constructor
  · intro h i hi
    have hchar := h i hi
    rw [List.getElem?_drop] at hchar
    rw [List.getD_eq_getElem?_getD, hchar, List.getD_eq_getElem _ _ hi]
    rfl
  · intro h i hi
    have hchar := h i hi
    have hinside : k + i < xs.length := by
      by_contra hge
      rw [List.getD_eq_default _ _ (Nat.le_of_not_lt hge)] at hchar
      exact StringAt.getD_ne_zero hys hi hchar.symm
    rw [List.getD_eq_getElem _ _ hinside, List.getD_eq_getElem _ _ hi] at hchar
    rw [List.getElem?_drop, List.getElem?_eq_getElem hinside, hchar]

/-- The comparison at one position ends with the pattern where it occurs there, and at a difference
where it does not. -/
theorem loop_compare (hs : StringAt mem string xs) (hf : StringAt mem find ys)
    (hk : k ≤ xs.length) (hfuel : ys.length < fuel) :
    ∃ i ≤ ys.length, Lib.loop (compare mem (string + k) find) .fuel fuel 0 = .ok i ∧
      (ys.getD i 0 = 0 ↔ ys <+: xs.drop k) := by
  obtain ⟨i, -, hi, hbefore, hfirst⟩ := Lib.exists_first
    (fun i => ¬(xs.getD (k + i) 0 = ys.getD i 0 ∧ ys.getD i 0 ≠ 0)) (Nat.zero_le ys.length)
  have hsame : ∀ j < i, xs.getD (k + j) 0 = ys.getD j 0 ∧ ys.getD j 0 ≠ 0 := fun j hj =>
    not_not.mp (hbefore j (Nat.zero_le j) hj)
  -- the characters of the string are not zero either, so that the next one belongs to it
  have hinside : ∀ j ≤ i, k + j ≤ xs.length := by
    intro j hj
    cases j with
    | zero => exact hk
    | succ j =>
      obtain ⟨heq, hne⟩ := hsame j hj
      rw [← heq, Ne, StringAt.getD_eq_zero_iff hs.nonzero] at hne
      omega
  have hround : ∀ j ≤ i, compare mem (string + k) find j = .ok
      (if xs.getD (k + j) 0 = ys.getD j 0 ∧ ys.getD j 0 ≠ 0 then .next (j + 1) else .done j) := by
    intro j hj
    rw [compare, Nat.add_assoc, hs.read (hinside j hj), ok_bind, hf.read (hj.trans hi), ok_bind]
    rfl
  have hdiffer : ¬(xs.getD (k + i) 0 = ys.getD i 0 ∧ ys.getD i 0 ≠ 0) := by
    rcases Nat.lt_or_eq_of_le hi with hlt | rfl
    · exact hfirst hlt
    · exact fun h => h.2 StringAt.getD_length
  refine ⟨i, hi, Lib.loop_path (f := id) (fun j hj => ?_) ?_ (hi.trans_lt hfuel), ?_⟩
  · exact (hround j hj.le).trans (congrArg Except.ok (if_pos (hsame j hj)))
  · exact (hround i le_rfl).trans (congrArg Except.ok (if_neg hdiffer))
  · rw [StringAt.getD_eq_zero_iff hf.nonzero, isPrefix_iff hf.nonzero]
    constructor
    · intro hend j hj
      exact (hsame j (hj.trans_le hend)).1
    · intro hsame'
      by_contra hge
      have hlt : i < ys.length := Nat.lt_of_not_le hge
      exact hfirst hlt ⟨hsame' i hlt, StringAt.getD_ne_zero hf.nonzero hlt⟩

/-- One position: the pattern occurs there, the string ends, or the next position follows. -/
theorem attempt_eq (hs : StringAt mem string xs) (hf : StringAt mem find ys)
    (hk : k ≤ xs.length) (hfuel : ys.length < fuel) :
    (ys <+: xs.drop k → attempt fuel mem find (string + k) = .ok (.done (some (string + k)))) ∧
      (¬ys <+: xs.drop k → attempt fuel mem find (string + k) =
        .ok (if k = xs.length then .done none else .next (string + (k + 1)))) := by
  obtain ⟨i, hi, hloop, hend⟩ := loop_compare hs hf hk hfuel
  rw [attempt, hloop, ok_bind, hf.read hi, ok_bind, ← hend]
  constructor
  · intro hzero
    rw [if_pos hzero]
    rfl
  · intro hne
    have hlast : xs.getD k 0 = 0 ↔ k = xs.length := by
      rw [StringAt.getD_eq_zero_iff hs.nonzero]
      omega
    rw [if_neg hne, hs.read hk, ok_bind, if_congr hlast rfl rfl]
    rfl

/-- The positions are tried from the first one on, up to the end of the string. -/
theorem strstr_eq (hs : StringAt mem string xs) (hf : StringAt mem find ys)
    (hfuel : max xs.length ys.length < fuel) :
    ∃ r, strstr fuel mem string find = .ok r ∧
      ((∃ k, r = some (string + k) ∧ ys <+: xs.drop k ∧ ∀ j < k, ¬ys <+: xs.drop j) ∨
        r = none ∧ ∀ k, ¬ys <+: xs.drop k) := by
  have hfuel' : ys.length < fuel := by omega
  obtain ⟨k, -, hk, hbefore, hfirst⟩ := Lib.exists_first (fun k => ys <+: xs.drop k)
    (Nat.zero_le xs.length)
  have hbefore' : ∀ j < k, ¬ys <+: xs.drop j := fun j hj => hbefore j (Nat.zero_le j) hj
  have hround : ∀ j < k, attempt fuel mem find (string + j) = .ok (.next (string + (j + 1))) :=
    fun j hj => by
      rw [(attempt_eq hs hf (hj.le.trans hk) hfuel').2 (hbefore' j hj), if_neg (by omega)]
  by_cases hoccurs : ys <+: xs.drop k
  · exact ⟨_, Lib.loop_path hround ((attempt_eq hs hf hk hfuel').1 hoccurs) (by omega),
      .inl ⟨k, rfl, hoccurs, hbefore'⟩⟩
  · obtain rfl : k = xs.length := by
      by_contra hne
      exact hoccurs (hfirst (by omega))
    have hlast := (attempt_eq hs hf hk hfuel').2 hoccurs
    rw [if_pos rfl] at hlast
    refine ⟨_, Lib.loop_path hround hlast (by omega), .inr ⟨rfl, fun j => ?_⟩⟩
    rcases Nat.lt_or_ge j xs.length with hlt | hge
    · exact hbefore' j hlt
    · rwa [List.drop_of_length_le hge, ← List.drop_length (l := xs)]

end Strstr

end HfRisc.Soft

namespace HfRisc.Results

open HfRisc.Soft

/-- The lowest position at which the pattern occurs, and `NULL` where it does not. -/
theorem strstr_first {fuel : ℕ} {mem : Bytes} {string find : ℕ} {xs ys : List (BitVec 8)}
    (hs : StringAt mem string xs) (hf : StringAt mem find ys)
    (hfuel : max xs.length ys.length < fuel) :
    ∃ r, strstr fuel mem string find = .ok r ∧ (r = none ↔ ¬ys <:+: xs) ∧
      ∀ k, r = some (string + k) ↔ ys <+: xs.drop k ∧ ∀ j < k, ¬ys <+: xs.drop j := by
  obtain ⟨r, hreturn, hr⟩ := Strstr.strstr_eq hs hf hfuel
  refine ⟨r, hreturn, ?_⟩
  rcases hr with ⟨k, rfl, hoccurs, hbefore⟩ | ⟨rfl, hnever⟩
  · constructor
    · refine iff_of_false (Option.some_ne_none _) (not_not.mpr ?_)
      exact hoccurs.isInfix.trans (List.drop_suffix k xs).isInfix
    · intro j
      rw [Option.some.injEq, Nat.add_left_cancel_iff]
      constructor
      · rintro rfl
        exact ⟨hoccurs, hbefore⟩
      · rintro ⟨hoccurs', hbefore'⟩
        rcases Nat.lt_trichotomy k j with hlt | heq | hgt
        · exact absurd hoccurs (hbefore' k hlt)
        · exact heq
        · exact absurd hoccurs' (hbefore j hgt)
  · constructor
    · refine iff_of_true rfl ?_
      rintro ⟨front, rest, rfl⟩
      refine hnever front.length ?_
      rw [List.append_assoc, List.drop_left]
      exact List.prefix_append ys rest
    · intro k
      exact iff_of_false (Option.some_ne_none _).symm fun h => hnever k h.1

/-- `aab` in `aaab`. -/
theorem strstr_first_overlap :
    let mem : Bytes := fun q => ([97, 97, 97, 98, 0, 97, 97, 98, 0] : List (BitVec 8))[q]?
    ∃ r, strstr 5 mem 0 5 = .ok r ∧
      (r = none ↔ ¬[97, 97, 98] <:+: ([97, 97, 97, 98] : List (BitVec 8))) ∧
      ∀ k, r = some (0 + k) ↔ [97, 97, 98] <+: ([97, 97, 97, 98] : List (BitVec 8)).drop k ∧
        ∀ j < k, ¬[97, 97, 98] <+: ([97, 97, 97, 98] : List (BitVec 8)).drop j := by
  intro mem
  have hs : StringAt mem 0 [97, 97, 97, 98] := .of_char (by decide) (by decide)
  have hf : StringAt mem 5 [97, 97, 98] := .of_char (by decide) (by decide)
  exact strstr_first hs hf (by decide)

end HfRisc.Results
