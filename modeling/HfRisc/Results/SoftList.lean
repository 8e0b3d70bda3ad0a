import HfRisc.Soft.ListSpec
import Mathlib.Data.List.GetD

/-!
# The list library as a sequence

Over every run of calls a list behaves as the sequence that the calls describe, with one
exception: the loop of `list_insert` moves to a node before it compares, so that an
insertion at position 0 goes to the end. A run agrees with the sequence if and only if
every insertion at position 0 is into a list where that makes no difference
(`list_refines`).
-/

namespace HfRisc.Results

open HfRisc.Lib HfRisc.Soft

variable {ε : Type} {null : ε} {h : Nodes ε} {lst fuel : ℕ} {xs ys : List ε}

/-! ## Sequences -/

/-- What a call is to do to the sequence, and what it is to return. -/
def seq (xs : List ε) : Call ε → List ε × ℤ
  | .append item a => if a ≠ 0 then (xs ++ [item], 0) else (xs, -1)
  | .insert item pos a =>
    if a ≠ 0 then
      if 0 ≤ pos ∧ pos ≤ xs.length then (xs.insertIdx pos.toNat item, 0) else (xs ++ [item], 0)
    else (xs, -1)
  | .remove pos => if 0 ≤ pos ∧ pos < xs.length then (xs.eraseIdx pos.toNat, 0) else (xs, -1)
  | .set item pos => if 0 ≤ pos ∧ pos < xs.length then (xs.set pos.toNat item, 0) else (xs, -1)

/-- What it does: the same, but for an insertion at position 0. -/
def actual (xs : List ε) : Call ε → List ε
  | .insert item pos a => if a ≠ 0 ∧ pos = 0 then xs ++ [item] else (seq xs (.insert item pos a)).1
  | c => (seq xs c).1

/-- An insertion at position 0 makes no difference to an insertion at the end. -/
def InOrder (xs : List ε) : Call ε → Prop
  | .insert item pos a => a ≠ 0 → pos = 0 → ∀ x ∈ xs, x = item
  | _ => True

/-- The memory that `malloc` returns is not that of another node. -/
def Fresh (h : Nodes ε) : Call ε → Prop
  | .append _ a => a ≠ 0 → h a = none
  | .insert _ _ a => a ≠ 0 → h a = none
  | _ => True

theorem cons_eq_append_iff {item : ε} : item :: xs = xs ++ [item] ↔ ∀ x ∈ xs, x = item := by
  constructor
  · intro heq
    induction xs with
    | nil => exact nofun
    | cons x xs ih =>
      obtain ⟨rfl, htail⟩ := List.cons.inj heq
      intro y hy
      rcases List.mem_cons.mp hy with rfl | hy
      · rfl
      · exact ih htail y hy
  · intro hall
    rw [List.eq_replicate_of_mem hall, ← List.replicate_succ, List.replicate_succ']

/-- What a call does is what it is to do if and only if the call is in order. -/
theorem actual_eq_iff {c : Call ε} : actual xs c = (seq xs c).1 ↔ InOrder xs c := by
  cases c with
  | insert item pos a =>
    show (if a ≠ 0 ∧ pos = 0 then xs ++ [item] else (seq xs (.insert item pos a)).1) =
      (seq xs (.insert item pos a)).1 ↔ (a ≠ 0 → pos = 0 → ∀ x ∈ xs, x = item)
    by_cases hfront : a ≠ 0 ∧ pos = 0
    · obtain ⟨ha, rfl⟩ := hfront
      have hseq : (seq xs (.insert item 0 a)).1 = item :: xs := by
        simp [seq, ha]
      rw [if_pos ⟨ha, rfl⟩, hseq, eq_comm, cons_eq_append_iff]
      exact ⟨fun hall _ _ => hall, fun hall => hall ha rfl⟩
    · rw [if_neg hfront]
      exact ⟨fun _ ha hpos => absurd ⟨ha, hpos⟩ hfront, fun _ => rfl⟩
  | append item a => exact ⟨fun _ => trivial, fun _ => rfl⟩
  | remove pos => exact ⟨fun _ => trivial, fun _ => rfl⟩
  | set item pos => exact ⟨fun _ => trivial, fun _ => rfl⟩

/-! ## One call -/

theorem exists_split {α : Type*} {l : List α} {k : ℕ} (hk : k < l.length) :
    ∃ m₁ c m₂, l = m₁ ++ c :: m₂ ∧ m₁.length = k :=
  ⟨l.take k, l[k], l.drop (k + 1), by simp, by simp [hk.le]⟩

theorem insertIdx_append {α : Type*} (m₁ m₂ : List α) (x : α) :
    (m₁ ++ m₂).insertIdx m₁.length x = m₁ ++ x :: m₂ := by
  induction m₁ with
  | nil => exact List.insertIdx_zero
  | cons c m₁ ih => rw [List.cons_append, List.length_cons, List.insertIdx_succ_cons, ih,
      List.cons_append]

/-- What `list_insert` leaves. -/
theorem holds_insert {item : ε} {pos : ℤ} {a : ℕ} (hh : Holds h lst xs)
    (hfuel : xs.length < fuel) (ha : h a = none) (hne : a ≠ 0) :
    ∃ h', listInsert h lst item pos a fuel = some (h', 0) ∧
      Holds h' lst (actual xs (.insert item pos a)) := by
  obtain ⟨e, l, hl, rfl⟩ := hh
  rw [List.length_map] at hfuel
  by_cases hin : 0 < pos ∧ pos ≤ l.length
  · -- The loop stops where the counter reaches the position.
    obtain ⟨k, rfl⟩ := Int.eq_ofNat_of_zero_le hin.1.le
    have hk : k ≤ l.length := by exact_mod_cast hin.2
    have hpos : 0 < k := by exact_mod_cast hin.1
    obtain ⟨m₁, m₂, rfl, rfl⟩ : ∃ m₁ m₂, l = m₁ ++ m₂ ∧ m₁.length = k :=
      ⟨l.take k, l.drop k, by simp, by simp [hk]⟩
    rw [List.length_append] at hfuel
    have hm : m₁.length < fuel := by omega
    have hstop : m₂ = [] ∨ (m₁.length : ℤ) = m₁.length ∧ m₁ ≠ [] :=
      .inr ⟨rfl, List.ne_nil_of_length_pos hpos⟩
    obtain ⟨h', hexec, hl'⟩ :=
      listInsert_eq (x := item) hl hm hstop (fun hpass => lt_irrefl _ hpass.2) ha hne
    refine ⟨h', hexec, e, _, hl', ?_⟩
    have hactual : actual ((m₁ ++ m₂).map Prod.snd) (.insert item m₁.length a) =
        ((m₁ ++ m₂).map Prod.snd).insertIdx (m₁.map Prod.snd).length item := by
      have hzero : (m₁.length : ℤ) ≠ 0 := hin.1.ne'
      have hrange : (0 : ℤ) ≤ m₁.length ∧ (m₁.length : ℤ) ≤ ((m₁ ++ m₂).map Prod.snd).length := by
        rw [List.length_map]
        exact ⟨hin.1.le, hin.2⟩
      rw [actual, if_neg fun hfront => hzero hfront.2, seq, if_pos hne, if_pos hrange,
        Int.toNat_natCast, List.length_map]
    rw [hactual, List.map_append, List.map_append, insertIdx_append, List.map_cons]
  · -- It runs to the end of the list.
    rw [← List.append_nil l] at hl
    have hpass : ¬ (0 < pos ∧ pos < l.length) := fun hlt => hin ⟨hlt.1, hlt.2.le⟩
    obtain ⟨h', hexec, hl'⟩ := listInsert_eq (x := item) hl hfuel (.inl rfl) hpass ha hne
    refine ⟨h', hexec, e, _, hl', ?_⟩
    have hactual : actual (l.map Prod.snd) (.insert item pos a) = l.map Prod.snd ++ [item] := by
      by_cases hzero : pos = 0
      · exact if_pos ⟨hne, hzero⟩
      · have hout : ¬ (0 ≤ pos ∧ pos ≤ (l.map Prod.snd).length) := by
          rw [List.length_map]
          exact fun hin' => hin ⟨lt_of_le_of_ne hin'.1 (Ne.symm hzero), hin'.2⟩
        rw [actual, if_neg fun hfront => hzero hfront.2, seq, if_pos hne, if_neg hout]
    rw [hactual, List.map_append, List.map_cons, List.map_nil]

/-- Outside of the list nothing is found. -/
theorem seek_outside {e : ε} {l : List (ℕ × ε)} (hl : IsList h lst e l) (hfuel : l.length < fuel)
    {pos : ℤ} (hout : ¬ (0 ≤ pos ∧ pos < l.length)) : seek h pos fuel lst 0 = some none :=
  seek_none hl.seg hfuel (by omega)

/-- What `list_append` leaves. -/
theorem holds_append (item : ε) {a : ℕ} (hh : Holds h lst xs) (hfuel : xs.length < fuel)
    (ha : h a = none) (hne : a ≠ 0) :
    ∃ h', listAppend h lst item a fuel = some (h', 0) ∧ Holds h' lst (xs ++ [item]) := by
  obtain ⟨e, l, hl, rfl⟩ := hh
  rw [List.length_map] at hfuel
  obtain ⟨h', hexec, hl'⟩ := listAppend_eq (x := item) hl hfuel ha hne
  refine ⟨h', hexec, e, _, hl', ?_⟩
  rw [List.map_append]
  rfl

/-- What `list_remove` leaves. -/
theorem holds_remove {pos : ℤ} (hh : Holds h lst xs) (hfuel : xs.length < fuel) :
    ∃ h', listRemove h lst pos fuel = some (h', (seq xs (.remove pos)).2) ∧
      Holds h' lst (seq xs (.remove pos)).1 := by
  obtain ⟨e, l, hl, rfl⟩ := hh
  rw [List.length_map] at hfuel
  by_cases hin : 0 ≤ pos ∧ pos < l.length
  · -- The node at the position is unlinked.
    obtain ⟨k, rfl⟩ := Int.eq_ofNat_of_zero_le hin.1
    obtain ⟨m₁, c, m₂, rfl, rfl⟩ := exists_split (by exact_mod_cast hin.2 : k < l.length)
    rw [List.length_append] at hfuel
    have hm : m₁.length < fuel := by omega
    obtain ⟨h', hexec, hl'⟩ := listRemove_eq hl hm
    have hseq : seq ((m₁ ++ c :: m₂).map Prod.snd) (.remove m₁.length) =
        ((m₁ ++ m₂).map Prod.snd, 0) := by
      rw [seq, if_pos (by rw [List.length_map]; exact hin), Int.toNat_natCast, List.map_append,
        List.map_append, List.eraseIdx_append_of_length_le (List.length_map _).le,
        List.length_map, Nat.sub_self, List.map_cons, List.eraseIdx_zero, List.tail_cons]
    rw [hseq]
    exact ⟨h', hexec, e, _, hl', rfl⟩
  · -- The search ends without a node, and the list stays.
    have hseq : seq (l.map Prod.snd) (.remove pos) = (l.map Prod.snd, -1) :=
      if_neg (by rw [List.length_map]; exact hin)
    rw [hseq]
    refine ⟨h, ?_, e, l, hl, rfl⟩
    simp only [listRemove, seek_outside hl hfuel hin, Option.bind_eq_bind, Option.bind_some]

/-- What `list_set` leaves. -/
theorem holds_set {item : ε} {pos : ℤ} (hh : Holds h lst xs) (hfuel : xs.length < fuel) :
    ∃ h', listSet h lst item pos fuel = some (h', (seq xs (.set item pos)).2) ∧
      Holds h' lst (seq xs (.set item pos)).1 := by
  obtain ⟨e, l, hl, rfl⟩ := hh
  rw [List.length_map] at hfuel
  by_cases hin : 0 ≤ pos ∧ pos < l.length
  · -- The node at the position gets the item.
    obtain ⟨k, rfl⟩ := Int.eq_ofNat_of_zero_le hin.1
    obtain ⟨m₁, c, m₂, rfl, rfl⟩ := exists_split (by exact_mod_cast hin.2 : k < l.length)
    rw [List.length_append] at hfuel
    have hm : m₁.length < fuel := by omega
    obtain ⟨h', hexec, hl'⟩ := listSet_eq (x := item) hl hm
    have hseq : seq ((m₁ ++ c :: m₂).map Prod.snd) (.set item m₁.length) =
        ((m₁ ++ (c.1, item) :: m₂).map Prod.snd, 0) := by
      rw [seq, if_pos (by rw [List.length_map]; exact hin), Int.toNat_natCast, List.map_append,
        List.map_append, List.set_append_right _ _ (List.length_map _).le,
        List.length_map, Nat.sub_self, List.map_cons, List.map_cons, List.set_cons_zero]
    rw [hseq]
    exact ⟨h', hexec, e, _, hl', rfl⟩
  · -- The search ends without a node, and the list stays.
    have hseq : seq (l.map Prod.snd) (.set item pos) = (l.map Prod.snd, -1) :=
      if_neg (by rw [List.length_map]; exact hin)
    rw [hseq]
    refine ⟨h, ?_, e, l, hl, rfl⟩
    simp only [listSet, seek_outside hl hfuel hin, Option.bind_eq_bind, Option.bind_some]

/-- Every call ends, returns what it is to return, and leaves a list. -/
theorem holds_exec (hh : Holds h lst xs) (hfuel : xs.length < fuel) {c : Call ε}
    (hfresh : Fresh h c) :
    ∃ h', c.exec h lst fuel = some (h', (seq xs c).2) ∧ Holds h' lst (actual xs c) := by
  cases c with
  | append item a =>
    by_cases hne : a = 0
    · -- Without memory nothing is appended.
      subst hne
      exact ⟨h, rfl, hh⟩
    · obtain ⟨h', hexec, hh'⟩ := holds_append item hh hfuel (hfresh hne) hne
      have hseq : seq xs (.append item a) = (xs ++ [item], 0) := if_pos hne
      refine ⟨h', ?_, ?_⟩
      · rw [hseq]
        exact hexec
      · show Holds h' lst (seq xs (.append item a)).1
        rw [hseq]
        exact hh'
  | insert item pos a =>
    by_cases hne : a = 0
    · subst hne
      exact ⟨h, rfl, hh⟩
    · obtain ⟨h', hexec, hh'⟩ : ∃ h', listInsert h lst item pos a fuel = some (h', 0) ∧
          Holds h' lst (actual xs (.insert item pos a)) :=
        holds_insert hh hfuel (hfresh hne) hne
      refine ⟨h', ?_, hh'⟩
      have hret : (seq xs (.insert item pos a)).2 = 0 := by
        rw [seq, if_pos hne]
        split <;> rfl
      rw [hret]
      exact hexec
  | remove pos => exact holds_remove hh hfuel
  | set item pos => exact holds_set hh hfuel

/-! ## What is observed -/

/-- The element at a position, or null outside. -/
def elemAt (null : ε) (xs : List ε) (pos : ℤ) : ε :=
  if 0 ≤ pos then xs.getD pos.toNat null else null

/-- `list_count` is the length, and `list_get` the element at every position. -/
structure Agrees (null : ε) (h : Nodes ε) (lst fuel : ℕ) (xs : List ε) : Prop where
  count : listCount h lst fuel = some (xs.length : ℤ)
  get : ∀ pos, listGet null h lst pos fuel = some (elemAt null xs pos)

theorem Agrees.of_holds (hh : Holds h lst xs) (hfuel : xs.length < fuel) :
    Agrees null h lst fuel xs := by
  obtain ⟨e, l, hl, rfl⟩ := hh
  rw [List.length_map] at hfuel
  refine ⟨?_, fun pos => ?_⟩
  · rw [listCount, countLoop_eq hl.seg hfuel, List.length_map, zero_add]
  · by_cases hin : 0 ≤ pos ∧ pos < l.length
    · obtain ⟨k, rfl⟩ := Int.eq_ofNat_of_zero_le hin.1
      obtain ⟨m₁, c, m₂, rfl, rfl⟩ := exists_split (by exact_mod_cast hin.2 : k < l.length)
      rw [List.length_append] at hfuel
      have hm : m₁.length < fuel := by omega
      rw [listGet_eq hl hm, elemAt, if_pos hin.1, Int.toNat_natCast, List.getD, List.map_append,
        List.getElem?_append_right (List.length_map _).le, List.length_map, Nat.sub_self]
      rfl
    · have hnull : elemAt null (l.map Prod.snd) pos = null := by
        rw [elemAt]
        split
        · rw [List.getD, List.getElem?_eq_none, Option.getD_none]
          rw [List.length_map]
          omega
        · rfl
      rw [hnull]
      simp only [listGet, seek_outside hl hfuel hin, Option.bind_eq_bind, Option.bind_some]

/-- What is observed determines the sequence. -/
theorem Agrees.unique (hx : Agrees null h lst fuel xs) (hy : Agrees null h lst fuel ys) :
    xs = ys := by
  have hlen : xs.length = ys.length := by
    have hcount := hx.count.symm.trans hy.count
    exact_mod_cast Option.some.inj hcount
  refine List.ext_getElem hlen fun k hk hk' => ?_
  have hget := Option.some.inj ((hx.get k).symm.trans (hy.get k))
  rwa [elemAt, elemAt, if_pos (Int.natCast_nonneg k), if_pos (Int.natCast_nonneg k),
    Int.toNat_natCast, List.getD_eq_getElem _ _ hk, List.getD_eq_getElem _ _ hk'] at hget

/-! ## Runs -/

/-- Through a run of calls the list is observed as the sequence, and the calls return what
they are to return. -/
def Refines (null : ε) (lst fuel : ℕ) : Nodes ε → List ε → List (Call ε) → Prop
  | h, xs, [] => Agrees null h lst fuel xs
  | h, xs, c :: cs => Agrees null h lst fuel xs ∧
      ∃ h', c.exec h lst fuel = some (h', (seq xs c).2) ∧ Refines null lst fuel h' (seq xs c).1 cs

/-- Every call of a run gets fresh memory. -/
def AllFresh (lst fuel : ℕ) : Nodes ε → List (Call ε) → Prop
  | _, [] => True
  | h, c :: cs => Fresh h c ∧ ∀ h' r, c.exec h lst fuel = some (h', r) → AllFresh lst fuel h' cs

/-- Every call of a run is in order for the sequence it finds. -/
def AllInOrder : List ε → List (Call ε) → Prop
  | _, [] => True
  | xs, c :: cs => InOrder xs c ∧ AllInOrder (seq xs c).1 cs

theorem Refines.agrees {cs : List (Call ε)} (hr : Refines null lst fuel h xs cs) :
    Agrees null h lst fuel xs := by
  cases cs with
  | nil => exact hr
  | cons c cs => exact hr.1

/-- A call makes the sequence longer by one at most. -/
theorem length_actual_le (xs : List ε) (c : Call ε) : (actual xs c).length ≤ xs.length + 1 := by
  cases c with
  | append item a =>
    show (seq xs (.append item a)).1.length ≤ _
    rw [seq]
    split <;> simp
  | insert item pos a =>
    rw [actual]
    split
    · simp
    · rw [seq]
      split
      · split
        · exact List.length_insertIdx_le_succ
        · simp
      · exact Nat.le_succ _
  | remove pos =>
    show (seq xs (.remove pos)).1.length ≤ _
    rw [seq]
    split
    · exact (List.length_eraseIdx_le _ _).trans (Nat.le_succ _)
    · exact Nat.le_succ _
  | set item pos =>
    show (seq xs (.set item pos)).1.length ≤ _
    rw [seq]
    split <;> simp

theorem refines_iff {cs : List (Call ε)} (hh : Holds h lst xs)
    (hfuel : xs.length + cs.length < fuel) (hfresh : AllFresh lst fuel h cs) :
    Refines null lst fuel h xs cs ↔ AllInOrder xs cs := by
  induction cs generalizing h xs with
  | nil => exact ⟨fun _ => trivial, fun _ => Agrees.of_holds hh hfuel⟩
  | cons c cs ih =>
    rw [List.length_cons] at hfuel
    have hlen : xs.length < fuel := by omega
    obtain ⟨hc, hcs⟩ := hfresh
    obtain ⟨h', hexec, hh'⟩ := holds_exec hh hlen hc
    have hnext := length_actual_le xs c
    constructor
    · rintro ⟨-, h'', hexec', hr⟩
      obtain rfl : h' = h'' := congrArg Prod.fst (Option.some.inj (hexec.symm.trans hexec'))
      -- What is observed of the call is what it does.
      have hsame : actual xs c = (seq xs c).1 :=
        Agrees.unique (Agrees.of_holds hh' (by omega)) hr.agrees
      refine ⟨actual_eq_iff.mp hsame, ?_⟩
      rw [← hsame] at hr ⊢
      exact (ih hh' (by omega) (hcs _ _ hexec)).mp hr
    · rintro ⟨horder, hrest⟩
      have hsame := actual_eq_iff.mpr horder
      rw [hsame] at hh' hnext
      exact ⟨Agrees.of_holds hh hlen, h', hexec,
        (ih hh' (by omega) (hcs _ _ hexec)).mpr hrest⟩

/-- A list from `list_init` behaves as the sequence through a run of calls, if and only if
no insertion at position 0 is into a list with an element other than the item. -/
theorem list_refines (null : ε) {a : ℕ} (ha : a ≠ 0) {cs : List (Call ε)}
    (hfuel : cs.length < fuel)
    (hfresh : AllFresh (listInit null h a).2 fuel (listInit null h a).1 cs) :
    Refines null (listInit null h a).2 fuel (listInit null h a).1 [] cs ↔ AllInOrder [] cs := by
  have hinit : listInit null h a = (Function.update h a (some ⟨null, 0⟩), a) := if_pos ha
  rw [hinit] at hfresh ⊢
  refine refines_iff ⟨null, [], ⟨⟨rfl, ha, 0, Function.update_self _ _ _, rfl⟩, ?_⟩, rfl⟩ ?_ hfresh
  · exact List.nodup_singleton a
  · rw [List.length_nil, Nat.zero_add]
    exact hfuel

/-- A list at 8 in an empty memory. -/
def emptyList : Nodes ℕ × ℕ := listInit 0 (fun _ => none) 8

theorem allFresh_two :
    AllFresh emptyList.2 9 emptyList.1 [.append 1 24, .insert 1 0 40] := by
  refine ⟨fun _ => rfl, fun h r hexec => ⟨fun _ => ?_, fun _ _ _ => trivial⟩⟩
  have hh : h = _ := (congrArg Prod.fst (Option.some.inj hexec)).symm
  rw [hh]
  rfl

theorem list_refines_two :
    Refines 0 emptyList.2 9 emptyList.1 [] [.append 1 24, .insert 1 0 40] :=
  (list_refines 0 (by decide) (by decide) allFresh_two).mpr
    ⟨trivial, by simp [InOrder, seq], trivial⟩

/-- After `list_append(l, 1)` and `list_insert(l, 2, 0)` the element at 0 is 1. -/
theorem list_refines_front :
    (do
      let (h, r) ← (Call.append 1 24).exec emptyList.1 emptyList.2 9
      let (h', r') ← (Call.insert 2 0 40).exec h emptyList.2 9
      let x ← listGet 0 h' emptyList.2 0 9
      let y ← listGet 0 h' emptyList.2 1 9
      some (r, r', x, y)) = some (0, 0, 1, 2) ∧
    elemAt 0 (seq (seq [] (Call.append 1 24)).1 (.insert 2 0 40)).1 0 = 2 := by
  decide

end HfRisc.Results
