import HfRisc.Soft.List
import Mathlib.Algebra.Order.Ring.Int
import Mathlib.Data.List.InsertIdx

/-!
# Lists as sequences

A list in memory holds a sequence (`Holds`). With fuel for its length every loop ends, and
every operation is one on the sequence (`Holds.exec`); what it is for `list_insert` is in
`Call.actual`.
-/

namespace HfRisc.Soft

open HfRisc.Lib

variable {ε : Type} {h : Nodes ε} {lst fuel : ℕ} {b c : ℕ × ε} {l₁ l₂ : List (ℕ × ε)} {t : ℕ}

/-! ## The loops -/

theorem getNext_of {r : ℕ} (hc : h c.1 = some ⟨c.2, r⟩) : getNext h c.1 = some r := by
  rw [getNext, hc]
  rfl

theorem setNext_of {r n : ℕ} (hc : h c.1 = some ⟨c.2, r⟩) :
    setNext h c.1 n = some (Function.update h c.1 (some ⟨c.2, n⟩)) := by
  rw [setNext, hc]
  rfl

theorem setElem_of {r : ℕ} {x : ε} (hc : h c.1 = some ⟨c.2, r⟩) :
    setElem h c.1 x = some (Function.update h c.1 (some ⟨x, r⟩)) := by
  rw [setElem, hc]
  rfl

/-- The pointer to what follows is null if nothing follows. -/
theorem next_ne_zero {r : ℕ} (hs : Seg h r l₂ 0) : r ≠ 0 ↔ l₂ ≠ [] := by
  cases l₂ with
  | nil =>
    obtain rfl : r = 0 := hs
    simp
  | cons c l₂ => simp [hs.head.2]

theorem lastNode_eq (hs : Seg h t (l₁ ++ [b]) 0) (hfuel : l₁.length < fuel) :
    lastNode h fuel t = some b.1 := by
  induction l₁ generalizing t fuel with
  | nil =>
    obtain ⟨rfl, -, r, hb, rfl⟩ := hs
    obtain ⟨fuel, rfl⟩ := Nat.exists_eq_add_of_lt hfuel
    rw [lastNode, getNext_of hb]
    rfl
  | cons c l₁ ih =>
    obtain ⟨rfl, -, r, hc, hs⟩ := hs
    obtain ⟨fuel, rfl⟩ := Nat.exists_eq_add_of_lt hfuel
    have hr : r ≠ 0 := (next_ne_zero hs).mpr (by simp)
    rw [lastNode, getNext_of hc, Option.bind_eq_bind, Option.bind_some, if_pos hr]
    exact ih hs (by rw [List.length_cons]; omega)

/-- The loop of `list_insert` stops at the last node, or where the counter reaches the
position, but not before it has moved. -/
theorem insertPoint_eq {pos i : ℤ} (hs : Seg h t (l₁ ++ b :: l₂) 0) (hfuel : l₁.length < fuel)
    (hstop : l₂ = [] ∨ i + l₁.length = pos ∧ l₁ ≠ [])
    (hpass : ¬ (i < pos ∧ pos < i + l₁.length)) :
    insertPoint h pos fuel t i = some b.1 := by
  induction l₁ generalizing t fuel i with
  | nil =>
    obtain ⟨rfl, -, r, hb, hs⟩ := hs
    obtain ⟨fuel, rfl⟩ := Nat.exists_eq_add_of_lt hfuel
    have hlast : l₂ = [] := hstop.resolve_right fun h => h.2 rfl
    subst hlast
    obtain rfl : r = 0 := hs
    rw [insertPoint, getNext_of hb]
    rfl
  | cons c l₁ ih =>
    obtain ⟨rfl, -, r, hc, hs⟩ := hs
    obtain ⟨fuel, rfl⟩ := Nat.exists_eq_add_of_lt hfuel
    have hr : r ≠ 0 := (next_ne_zero hs).mpr (by simp)
    rw [List.length_cons] at hstop hpass
    push_cast at hstop hpass
    rw [insertPoint, getNext_of hc, Option.bind_eq_bind, Option.bind_some, if_pos hr]
    by_cases hpos : i + 1 = pos
    · have hlen : l₁ = [] := List.length_eq_zero_iff.mp (by omega)
      subst hlen
      rw [if_pos hpos, hs.head.1]
    · rw [if_neg hpos]
      refine ih hs (by rw [List.length_cons]; omega) ?_ (by omega)
      refine hstop.imp_right fun hreach => ⟨by omega, ?_⟩
      rintro rfl
      exact hpos (by simpa using hreach.1)

/-- The loop of the other operations finds the node whose index the counter reaches. -/
theorem seek_eq {pos i : ℤ} (hs : Seg h t (l₁ ++ b :: c :: l₂) 0) (hfuel : l₁.length < fuel)
    (hpos : i + l₁.length = pos) : seek h pos fuel t i = some (some (b.1, c.1)) := by
  induction l₁ generalizing t fuel i with
  | nil =>
    obtain ⟨rfl, -, r, hb, hs⟩ := hs
    obtain ⟨fuel, rfl⟩ := Nat.exists_eq_add_of_lt hfuel
    rw [seek, getNext_of hb, Option.bind_eq_bind, Option.bind_some, if_pos hs.head.2,
      if_pos (by simpa using hpos), hs.head.1]
  | cons a l₁ ih =>
    obtain ⟨rfl, -, r, hc, hs⟩ := hs
    obtain ⟨fuel, rfl⟩ := Nat.exists_eq_add_of_lt hfuel
    have hr : r ≠ 0 := (next_ne_zero hs).mpr (by simp)
    rw [List.length_cons] at hpos
    push_cast at hpos
    rw [seek, getNext_of hc, Option.bind_eq_bind, Option.bind_some, if_pos hr,
      if_neg (by omega)]
    exact ih hs (by rw [List.length_cons]; omega) (by omega)

/-- It finds none if the position is outside. -/
theorem seek_none {pos i : ℤ} (hs : Seg h t (c :: l₂) 0) (hfuel : l₂.length < fuel)
    (hpos : pos < i ∨ i + l₂.length ≤ pos) : seek h pos fuel t i = some none := by
  induction l₂ generalizing c t fuel i with
  | nil =>
    obtain ⟨rfl, -, r, hc, rfl⟩ := hs
    obtain ⟨fuel, rfl⟩ := Nat.exists_eq_add_of_lt hfuel
    rw [seek, getNext_of hc]
    rfl
  | cons b l₂ ih =>
    obtain ⟨rfl, -, r, hc, hs⟩ := hs
    obtain ⟨fuel, rfl⟩ := Nat.exists_eq_add_of_lt hfuel
    rw [List.length_cons] at hpos
    push_cast at hpos
    rw [seek, getNext_of hc, Option.bind_eq_bind, Option.bind_some, if_pos hs.head.2,
      if_neg (by omega)]
    exact ih hs (by rw [List.length_cons]; omega) (by omega)

theorem countLoop_eq {i : ℤ} (hs : Seg h t (c :: l₂) 0) (hfuel : l₂.length < fuel) :
    countLoop h fuel t i = some (i + l₂.length) := by
  induction l₂ generalizing c t fuel i with
  | nil =>
    obtain ⟨rfl, -, r, hc, rfl⟩ := hs
    obtain ⟨fuel, rfl⟩ := Nat.exists_eq_add_of_lt hfuel
    rw [countLoop, getNext_of hc]
    simp
  | cons b l₂ ih =>
    obtain ⟨rfl, -, r, hc, hs⟩ := hs
    obtain ⟨fuel, rfl⟩ := Nat.exists_eq_add_of_lt hfuel
    rw [countLoop, getNext_of hc, Option.bind_eq_bind, Option.bind_some, if_pos hs.head.2,
      ih hs (by rw [List.length_cons]; omega), List.length_cons]
    push_cast
    congr 1
    omega

/-! ## The operations -/

/-- The header at `lst`, with `e` in it, and the nodes of `l` behind it. -/
structure IsList (h : Nodes ε) (lst : ℕ) (e : ε) (l : List (ℕ × ε)) : Prop where
  seg : Seg h lst ((lst, e) :: l) 0
  nodup : (((lst, e) :: l).map Prod.fst).Nodup

/-- The list at `lst` holds the sequence `xs`. -/
def Holds (h : Nodes ε) (lst : ℕ) (xs : List ε) : Prop :=
  ∃ e l, IsList h lst e l ∧ l.map Prod.snd = xs

theorem cons_eq_concat {α : Type*} (c : α) (m : List α) :
    ∃ l₁ b, c :: m = l₁ ++ [b] ∧ l₁.length = m.length := by
  refine ⟨(c :: m).dropLast, (c :: m).getLast (List.cons_ne_nil c m), ?_, by simp⟩
  exact (List.dropLast_append_getLast _).symm

/-- A list, cut behind `m₁`. -/
theorem IsList.cut {e : ε} {m₁ m₂ : List (ℕ × ε)} (hl : IsList h lst e (m₁ ++ m₂)) :
    ∃ l₁ b, (lst, e) :: m₁ = l₁ ++ [b] ∧ l₁.length = m₁.length ∧
      Seg h lst (l₁ ++ b :: m₂) 0 ∧ ((l₁ ++ b :: m₂).map Prod.fst).Nodup := by
  obtain ⟨l₁, b, heq, hlen⟩ := cons_eq_concat (lst, e) m₁
  have hsplit : (lst, e) :: (m₁ ++ m₂) = l₁ ++ b :: m₂ := by
    rw [← List.cons_append, heq, List.append_assoc, List.singleton_append]
  refine ⟨l₁, b, heq, hlen, ?_, ?_⟩
  · rw [← hsplit]
    exact hl.seg
  · rw [← hsplit]
    exact hl.nodup

/-- A new node behind `m₁`. -/
theorem IsList.insertAfter {e x : ε} {m₁ m₂ : List (ℕ × ε)} {a r : ℕ}
    (heq : (lst, e) :: m₁ = l₁ ++ [b]) (hs : Seg h lst (l₁ ++ b :: m₂) 0)
    (hnodup : ((l₁ ++ b :: m₂).map Prod.fst).Nodup) (hb : h b.1 = some ⟨b.2, r⟩) (ha : h a = none)
    (hne : a ≠ 0) :
    IsList (Function.update (Function.update h a (some ⟨x, r⟩)) b.1 (some ⟨b.2, a⟩)) lst e
      (m₁ ++ (a, x) :: m₂) := by
  have hsplit : (lst, e) :: (m₁ ++ (a, x) :: m₂) = l₁ ++ b :: (a, x) :: m₂ := by
    rw [← List.cons_append, heq, List.append_assoc, List.singleton_append]
  have hfresh := hs.fresh ha
  refine ⟨?_, ?_⟩
  · rw [hsplit]
    exact hs.insertAfter hnodup hb hfresh hne
  · rw [hsplit]
    have hperm : List.Perm ((l₁ ++ b :: (a, x) :: m₂).map Prod.fst)
        (a :: (l₁ ++ b :: m₂).map Prod.fst) := by
      have hcomm : List.Perm (l₁ ++ b :: (a, x) :: m₂) ((a, x) :: (l₁ ++ b :: m₂)) := by
        rw [← List.singleton_append, ← List.append_assoc]
        refine List.perm_middle.trans ?_
        rw [List.append_assoc, List.singleton_append]
      exact hcomm.map Prod.fst
    rw [hperm.nodup_iff, List.nodup_cons]
    exact ⟨hfresh, hnodup⟩

theorem listAppend_eq {e x : ε} {l : List (ℕ × ε)} {a : ℕ} (hl : IsList h lst e l)
    (hfuel : l.length < fuel) (ha : h a = none) (hne : a ≠ 0) :
    ∃ h', listAppend h lst x a fuel = some (h', 0) ∧ IsList h' lst e (l ++ [(a, x)]) := by
  rw [← List.append_nil l] at hl
  obtain ⟨l₁, b, heq, hlen, hs, hnodup⟩ := hl.cut
  obtain ⟨-, -, r, hb, rfl⟩ := hs.middle
  have hfresh := hs.fresh ha
  have hab : b.1 ≠ a := by
    rintro rfl
    exact hfresh (List.mem_map_of_mem (by simp))
  refine ⟨_, ?_, IsList.insertAfter (x := x) heq hs hnodup hb ha hne⟩
  have hb' : Function.update h a (some ⟨x, 0⟩) b.1 = some ⟨b.2, 0⟩ := by
    rw [Function.update_of_ne hab, hb]
  simp only [listAppend, if_pos hne, lastNode_eq (hs.write hfresh) (hlen ▸ hfuel),
    setNext_of hb', Option.bind_eq_bind, Option.bind_some]

/-- `list_insert` where its loop stops behind `m₁`. -/
theorem listInsert_eq {e x : ε} {m₁ m₂ : List (ℕ × ε)} {a : ℕ} {pos : ℤ}
    (hl : IsList h lst e (m₁ ++ m₂)) (hfuel : m₁.length < fuel)
    (hstop : m₂ = [] ∨ m₁.length = pos ∧ m₁ ≠ []) (hpass : ¬ (0 < pos ∧ pos < m₁.length))
    (ha : h a = none) (hne : a ≠ 0) :
    ∃ h', listInsert h lst x pos a fuel = some (h', 0) ∧ IsList h' lst e (m₁ ++ (a, x) :: m₂) := by
  obtain ⟨l₁, b, heq, hlen, hs, hnodup⟩ := hl.cut
  obtain ⟨-, -, r, hb, -⟩ := hs.middle
  have hfresh := hs.fresh ha
  have hab : b.1 ≠ a := by
    rintro rfl
    exact hfresh (List.mem_map_of_mem (by simp))
  refine ⟨_, ?_, IsList.insertAfter (x := x) heq hs hnodup hb ha hne⟩
  have hpoint : insertPoint (Function.update h a (some ⟨x, 0⟩)) pos fuel lst 0 = some b.1 := by
    refine insertPoint_eq (hs.write hfresh) (hlen ▸ hfuel) (hstop.imp_right fun hreach => ?_)
      (by rw [hlen, zero_add]; exact hpass)
    refine ⟨by rw [hlen, zero_add]; exact hreach.1, fun hnil => hreach.2 ?_⟩
    rw [hnil, List.length_nil] at hlen
    exact List.length_eq_zero_iff.mp hlen.symm
  have hb₁ : Function.update h a (some ⟨x, 0⟩) b.1 = some ⟨b.2, r⟩ := by
    rw [Function.update_of_ne hab, hb]
  have ha₁ : setNext (Function.update h a (some ⟨x, 0⟩)) a r =
      some (Function.update h a (some ⟨x, r⟩)) := by
    rw [setNext, Function.update_self, Option.map_some, Function.update_idem]
  have hb₂ : Function.update h a (some ⟨x, r⟩) b.1 = some ⟨b.2, r⟩ := by
    rw [Function.update_of_ne hab, hb]
  simp only [listInsert, if_pos hne, hpoint, getNext_of hb₁, ha₁, setNext_of hb₂,
    Option.bind_eq_bind, Option.bind_some]

theorem listRemove_eq {e : ε} {m₁ m₂ : List (ℕ × ε)} (hl : IsList h lst e (m₁ ++ c :: m₂))
    (hfuel : m₁.length < fuel) :
    ∃ h', listRemove h lst m₁.length fuel = some (h', 0) ∧ IsList h' lst e (m₁ ++ m₂) := by
  obtain ⟨l₁, b, heq, hlen, hs, hnodup⟩ := hl.cut
  obtain ⟨-, -, r, hb, -, -, s, hc, -⟩ := hs.middle
  have hseek := seek_eq (i := 0) hs (hlen ▸ hfuel) (by rw [hlen, zero_add])
  refine ⟨Function.update (Function.update h b.1 (some ⟨b.2, s⟩)) c.1 none, ?_, ?_, ?_⟩
  · simp only [listRemove, hseek, getNext_of hc, setNext_of hb, freeNode, Option.bind_eq_bind,
      Option.bind_some]
  · have hsplit : (lst, e) :: (m₁ ++ m₂) = l₁ ++ b :: m₂ := by
      rw [← List.cons_append, heq, List.append_assoc, List.singleton_append]
    rw [hsplit]
    exact hs.eraseAfter hnodup hc
  · refine hl.nodup.sublist (List.Sublist.map _ ((List.Sublist.append (List.Sublist.refl m₁)
      (List.sublist_cons_self c m₂)).cons_cons _))

theorem listSet_eq {e x : ε} {m₁ m₂ : List (ℕ × ε)} (hl : IsList h lst e (m₁ ++ c :: m₂))
    (hfuel : m₁.length < fuel) :
    ∃ h', listSet h lst x m₁.length fuel = some (h', 0) ∧
      IsList h' lst e (m₁ ++ (c.1, x) :: m₂) := by
  obtain ⟨l₁, b, heq, hlen, hs, -⟩ := hl.cut
  obtain ⟨-, -, r, -, -, -, s, hc, -⟩ := hs.middle
  have hseek := seek_eq (i := 0) hs (hlen ▸ hfuel) (by rw [hlen, zero_add])
  refine ⟨Function.update h c.1 (some ⟨x, s⟩), ?_, ?_, ?_⟩
  · simp only [listSet, hseek, setElem_of hc, Option.bind_eq_bind, Option.bind_some]
  · have hseg : Seg h lst ((lst, e) :: m₁ ++ c :: m₂) 0 := hl.seg
    exact hseg.setElem hl.nodup hc
  · have hnodup := hl.nodup
    rw [List.map_cons, List.map_append, List.map_cons] at hnodup ⊢
    exact hnodup

theorem listGet_eq {e null : ε} {m₁ m₂ : List (ℕ × ε)} (hl : IsList h lst e (m₁ ++ c :: m₂))
    (hfuel : m₁.length < fuel) : listGet null h lst m₁.length fuel = some c.2 := by
  obtain ⟨l₁, b, -, hlen, hs, -⟩ := hl.cut
  obtain ⟨-, -, r, -, -, -, s, hc, -⟩ := hs.middle
  have hseek := seek_eq (i := 0) hs (hlen ▸ hfuel) (by rw [hlen, zero_add])
  simp only [listGet, hseek, hc, Option.bind_eq_bind, Option.bind_some, Option.map_some]

end HfRisc.Soft
