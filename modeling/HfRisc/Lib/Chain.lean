import Mathlib.Data.List.Nodup
import Mathlib.Logic.Function.Basic

/-!
# Singly linked chains

Nodes in memory, and the segment of the chain from one pointer to another (`Seg`). A
segment is split at any of its nodes (`seg_append`, `Seg.middle`), survives what is written
elsewhere (`Seg.frame`), and is relinked by a write to the node at its end
(`Seg.relink`).
-/

namespace HfRisc.Lib

/-- A node: an element, and the address of the next node or 0. -/
@[ext] structure Node (ε : Type*) where
  elem : ε
  next : ℕ
deriving DecidableEq

/-- The nodes in memory. -/
abbrev Nodes (ε : Type*) := ℕ → Option (Node ε)

variable {ε : Type*}

/-- From `p` the chain goes through the nodes of `l`, given with their addresses, and then
to `q`. -/
def Seg (h : Nodes ε) : ℕ → List (ℕ × ε) → ℕ → Prop
  | p, [], q => p = q
  | p, c :: l, q => p = c.1 ∧ c.1 ≠ 0 ∧ ∃ r, h c.1 = some ⟨c.2, r⟩ ∧ Seg h r l q

variable {h h' : Nodes ε} {p q : ℕ} {c : ℕ × ε} {l l₁ l₂ : List (ℕ × ε)}

theorem seg_append : Seg h p (l₁ ++ l₂) q ↔ ∃ r, Seg h p l₁ r ∧ Seg h r l₂ q := by
  induction l₁ generalizing p with
  | nil =>
    constructor
    · intro hs
      exact ⟨p, rfl, hs⟩
    · rintro ⟨r, rfl, hs⟩
      exact hs
  | cons c l₁ ih =>
    constructor
    · rintro ⟨hp, hne, r, hc, hs⟩
      obtain ⟨s, hs₁, hs₂⟩ := ih.mp hs
      exact ⟨s, ⟨hp, hne, r, hc, hs₁⟩, hs₂⟩
    · rintro ⟨s, ⟨hp, hne, r, hc, hs₁⟩, hs₂⟩
      exact ⟨hp, hne, r, hc, ih.mpr ⟨s, hs₁, hs₂⟩⟩

/-- The node in the middle of a segment. -/
theorem Seg.middle (hs : Seg h p (l₁ ++ c :: l₂) q) :
    Seg h p l₁ c.1 ∧ c.1 ≠ 0 ∧ ∃ r, h c.1 = some ⟨c.2, r⟩ ∧ Seg h r l₂ q := by
  obtain ⟨r, hs₁, rfl, hne, s, hc, hs₂⟩ := seg_append.mp hs
  exact ⟨hs₁, hne, s, hc, hs₂⟩

/-- The nodes of a segment are in memory. -/
theorem Seg.mem (hs : Seg h p l q) (hc : c ∈ l) : ∃ r, h c.1 = some ⟨c.2, r⟩ := by
  obtain ⟨l₁, l₂, rfl⟩ := List.append_of_mem hc
  obtain ⟨-, -, r, hr, -⟩ := hs.middle
  exact ⟨r, hr⟩

/-- An address without a node is none of theirs. -/
theorem Seg.fresh {a : ℕ} (hs : Seg h p l q) (ha : h a = none) : a ∉ l.map Prod.fst := by
  intro hmem
  obtain ⟨c, hc, rfl⟩ := List.mem_map.mp hmem
  obtain ⟨r, hr⟩ := hs.mem hc
  rw [ha] at hr
  cases hr

/-- A segment reads its own nodes only. -/
theorem Seg.frame (hs : Seg h p l q) (hsame : ∀ c ∈ l, h' c.1 = h c.1) : Seg h' p l q := by
  induction l generalizing p with
  | nil => exact hs
  | cons c l ih =>
    obtain ⟨hp, hne, r, hc, hs⟩ := hs
    refine ⟨hp, hne, r, ?_, ih hs fun b hb => hsame b (List.mem_cons_of_mem c hb)⟩
    rw [hsame c List.mem_cons_self, hc]

/-- A write to an address outside the segment. -/
theorem Seg.write {a : ℕ} {x : Option (Node ε)} (hs : Seg h p l q) (ha : a ∉ l.map Prod.fst) :
    Seg (Function.update h a x) p l q := by
  refine hs.frame fun c hc => Function.update_of_ne ?_ _ _
  rintro rfl
  exact ha (List.mem_map_of_mem hc)

/-- What a pointer to a segment is. -/
theorem Seg.head (hs : Seg h p (c :: l) q) : p = c.1 ∧ p ≠ 0 := by
  obtain ⟨rfl, hne, -⟩ := hs
  exact ⟨rfl, hne⟩

/-- The node at the end of a segment is written, and leads elsewhere. -/
theorem Seg.relink {x : ε} {r : ℕ} (hs : Seg h p l₁ c.1) (hne : c.1 ≠ 0)
    (hc : c.1 ∉ l₁.map Prod.fst)
    (hrest : Seg (Function.update h c.1 (some ⟨x, r⟩)) r l₂ q) :
    Seg (Function.update h c.1 (some ⟨x, r⟩)) p (l₁ ++ (c.1, x) :: l₂) q :=
  seg_append.mpr ⟨c.1, hs.write hc, rfl, hne, r, Function.update_self _ _ _, hrest⟩

/-! ## Edits -/

variable {b : ℕ × ε} {r : ℕ}

/-- A new node is linked in behind `b`. -/
theorem Seg.insertAfter {a : ℕ} {x : ε} (hs : Seg h p (l₁ ++ b :: l₂) q)
    (hnodup : ((l₁ ++ b :: l₂).map Prod.fst).Nodup) (hb : h b.1 = some ⟨b.2, r⟩)
    (ha : a ∉ (l₁ ++ b :: l₂).map Prod.fst) (hne : a ≠ 0) :
    Seg (Function.update (Function.update h a (some ⟨x, r⟩)) b.1 (some ⟨b.2, a⟩)) p
      (l₁ ++ b :: (a, x) :: l₂) q := by
  obtain ⟨hs₁, hbne, s, hs, hs₂⟩ := hs.middle
  obtain rfl : r = s := congrArg Node.next (Option.some.inj (hb.symm.trans hs))
  rw [List.map_append, List.map_cons] at hnodup ha
  rw [List.nodup_append, List.nodup_cons] at hnodup
  obtain ⟨-, ⟨hb₂, -⟩, hdisj⟩ := hnodup
  rw [List.mem_append, List.mem_cons, not_or, not_or] at ha
  obtain ⟨ha₁, hab, ha₂⟩ := ha
  have hb₁ : b.1 ∉ l₁.map Prod.fst := fun hmem => hdisj _ hmem _ List.mem_cons_self rfl
  refine (hs₁.write ha₁).relink hbne hb₁ ⟨rfl, hne, r, ?_, (hs₂.write ha₂).write hb₂⟩
  rw [Function.update_of_ne hab, Function.update_self]

/-- The node behind `b` is taken out of the chain and of the memory. -/
theorem Seg.eraseAfter (hs : Seg h p (l₁ ++ b :: c :: l₂) q)
    (hnodup : ((l₁ ++ b :: c :: l₂).map Prod.fst).Nodup) (hc : h c.1 = some ⟨c.2, r⟩) :
    Seg (Function.update (Function.update h b.1 (some ⟨b.2, r⟩)) c.1 none) p
      (l₁ ++ b :: l₂) q := by
  obtain ⟨hs₁, hbne, s, -, hs₂⟩ := hs.middle
  obtain ⟨-, -, t, ht, hs₃⟩ := hs₂
  obtain rfl : r = t := congrArg Node.next (Option.some.inj (hc.symm.trans ht))
  rw [List.map_append, List.map_cons, List.map_cons] at hnodup
  rw [List.nodup_append, List.nodup_cons, List.nodup_cons, List.mem_cons, not_or] at hnodup
  obtain ⟨-, ⟨⟨hbc, hb₂⟩, hc₂, -⟩, hdisj⟩ := hnodup
  have hb₁ : b.1 ∉ l₁.map Prod.fst := fun hmem => hdisj _ hmem _ List.mem_cons_self rfl
  have hc₁ : c.1 ∉ l₁.map Prod.fst := fun hmem =>
    hdisj _ hmem _ (List.mem_cons_of_mem _ List.mem_cons_self) rfl
  refine Seg.write (hs₁.relink hbne hb₁ (hs₃.write hb₂)) ?_
  rw [List.map_append, List.map_cons, List.mem_append, List.mem_cons, not_or, not_or]
  exact ⟨hc₁, fun h => hbc h.symm, hc₂⟩

/-- The element of a node is written. -/
theorem Seg.setElem {x : ε} (hs : Seg h p (l₁ ++ c :: l₂) q)
    (hnodup : ((l₁ ++ c :: l₂).map Prod.fst).Nodup) (hc : h c.1 = some ⟨c.2, r⟩) :
    Seg (Function.update h c.1 (some ⟨x, r⟩)) p (l₁ ++ (c.1, x) :: l₂) q := by
  obtain ⟨hs₁, hne, s, hs, hs₂⟩ := hs.middle
  obtain rfl : r = s := congrArg Node.next (Option.some.inj (hc.symm.trans hs))
  rw [List.map_append, List.map_cons, List.nodup_append, List.nodup_cons] at hnodup
  obtain ⟨-, ⟨hc₂, -⟩, hdisj⟩ := hnodup
  exact hs₁.relink hne (fun hmem => hdisj _ hmem _ List.mem_cons_self rfl) (hs₂.write hc₂)

end HfRisc.Lib
