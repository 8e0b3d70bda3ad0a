import Mathlib.Data.List.Induction

/-!
# Direct-mapped caches by their history

A direct-mapped cache puts every block in one slot, `place`, and keeps there the
block of the last access that allocated. What it holds is therefore a function of
the history: `resident` is the block in a slot, and `Written` says that the block
has been written since it was brought in. Both are stated over whole histories,
with the equation that one more access adds; an implementation refines them when
its bits follow these equations.
-/

namespace HfRisc.Lib

/-- An access to a block. -/
structure Access (β : Type*) where
  block : β
  write : Bool
deriving DecidableEq, Repr

namespace DirectMapped

variable {β ι : Type*} [DecidableEq ι] (place : β → ι) (allocates : Access β → Bool)

/-- The block of the last allocating access to slot `i`; histories begin with the
oldest access. -/
def resident (h : List (Access β)) (i : ι) : Option β :=
  (h.reverse.find? fun a => allocates a && decide (place a.block = i)).map Access.block

/-- A block is found in the cache. -/
def Hit (h : List (Access β)) (b : β) : Prop := resident place allocates h (place b) = some b

instance [DecidableEq β] (h : List (Access β)) (b : β) : Decidable (Hit place allocates h b) :=
  inferInstanceAs (Decidable (_ = _))

/-- The block in slot `i` was written when it was already there, and is there since. -/
def Written (h : List (Access β)) (i : ι) : Prop :=
  ∃ before a after, h = before ++ a :: after ∧ a.write = true ∧ place a.block = i ∧
    Hit place allocates before a.block ∧ ∀ a' ∈ after, place a'.block = i → a'.block = a.block

variable {place allocates} {h : List (Access β)} {a : Access β} {i : ι} {b : β}

@[simp] theorem resident_nil (i : ι) : resident place allocates [] i = none := rfl

/-- One more access. -/
theorem resident_append : resident place allocates (h ++ [a]) i =
    if allocates a = true ∧ place a.block = i then some a.block
    else resident place allocates h i := by
  rw [resident, List.reverse_append, List.reverse_singleton, List.singleton_append,
    List.find?_cons]
  by_cases hc : allocates a = true ∧ place a.block = i
  · rw [if_pos hc]
    simp only [hc.1, hc.2, decide_true, Bool.and_self, Option.map_some]
  · have hfalse : (allocates a && decide (place a.block = i)) = false := by
      rw [Bool.eq_false_iff]
      intro ht
      rw [Bool.and_eq_true, decide_eq_true_iff] at ht
      exact hc ht
    rw [if_neg hc]
    simp only [hfalse]
    rfl

/-! ## When every access allocates -/

section Allocating

variable (hall : ∀ a, allocates a = true)
include hall

theorem resident_append_all : resident place allocates (h ++ [a]) i =
    if place a.block = i then some a.block else resident place allocates h i := by
  rw [resident_append]
  simp only [hall a, true_and]

/-- As long as no other block comes into the slot, the block stays. -/
theorem resident_append_same {after : List (Access β)}
    (hafter : ∀ a' ∈ after, place a'.block = i → a'.block = b)
    (hr : resident place allocates h i = some b) :
    resident place allocates (h ++ after) i = some b := by
  induction after using List.reverseRecOn with
  | nil => rwa [List.append_nil]
  | append_singleton after a ih =>
    rw [← List.append_assoc, resident_append_all hall]
    split_ifs with hp
    · rw [hafter a (by simp) hp]
    · exact ih fun a' ha' => hafter a' (List.mem_append_left _ ha')

/-- A written block is in its slot. -/
theorem resident_of_written {before after : List (Access β)} (hp : place a.block = i)
    (hafter : ∀ a' ∈ after, place a'.block = i → a'.block = a.block) :
    resident place allocates (before ++ a :: after) i = some a.block := by
  rw [List.append_cons]
  refine resident_append_same hall hafter ?_
  rw [resident_append_all hall, if_pos hp]

omit hall in
/-- An access to another slot. -/
theorem written_append_of_ne (hp : place a.block ≠ i) :
    Written place allocates (h ++ [a]) i ↔ Written place allocates h i := by
  constructor
  · rintro ⟨before, w, after, heq, hw, hpw, hhit, hafter⟩
    rcases List.eq_nil_or_concat after with rfl | ⟨rest, last, rfl⟩
    · obtain ⟨-, hlast⟩ := List.append_inj' heq rfl
      cases hlast
      exact absurd hpw hp
    · rw [List.concat_eq_append, ← List.cons_append, ← List.append_assoc] at heq
      obtain ⟨hh, -⟩ := List.append_inj' heq rfl
      rw [List.concat_eq_append] at hafter
      exact ⟨before, w, rest, hh, hw, hpw, hhit,
        fun a' ha' => hafter a' (List.mem_append_left _ ha')⟩
  · rintro ⟨before, w, after, rfl, hw, hpw, hhit, hafter⟩
    refine ⟨before, w, after ++ [a], by simp, hw, hpw, hhit, fun a' ha' hp' => ?_⟩
    rcases List.mem_append.mp ha' with ha' | ha'
    · exact hafter a' ha' hp'
    · rw [List.mem_singleton] at ha'
      subst ha'
      exact absurd hp' hp

/-- An access to the slot: the written block is gone, or it stays and is written
again, or it stays and was written before. -/
theorem written_append_of_eq (hp : place a.block = i) :
    Written place allocates (h ++ [a]) i ↔
      Hit place allocates h a.block ∧ (a.write = true ∨ Written place allocates h i) := by
  constructor
  · rintro ⟨before, w, after, heq, hw, hpw, hhit, hafter⟩
    rcases List.eq_nil_or_concat after with rfl | ⟨rest, last, rfl⟩
    · obtain ⟨hh, hlast⟩ := List.append_inj' heq rfl
      cases hlast
      subst hh
      exact ⟨hhit, .inl hw⟩
    · rw [List.concat_eq_append, ← List.cons_append, ← List.append_assoc] at heq
      obtain ⟨hh, hlast⟩ := List.append_inj' heq rfl
      cases hlast
      rw [List.concat_eq_append] at hafter
      have hblock : a.block = w.block := hafter a (by simp) hp
      have hrest : ∀ a' ∈ rest, place a'.block = i → a'.block = w.block :=
        fun a' ha' => hafter a' (List.mem_append_left _ ha')
      refine ⟨?_, .inr ⟨before, w, rest, hh, hw, hpw, hhit, hrest⟩⟩
      rw [Hit, hp, hblock, hh]
      exact resident_of_written hall hpw hrest
  · rintro ⟨hhit, hw | ⟨before, w, after, rfl, hw, hpw, hhit', hafter⟩⟩
    · exact ⟨h, a, [], rfl, hw, hp, hhit, fun a' ha' => by simp at ha'⟩
    · have hblock : w.block = a.block := by
        have hres : resident place allocates (before ++ w :: after) i = some w.block :=
          resident_of_written hall hpw hafter
        rw [Hit, hp, hres] at hhit
        exact Option.some.inj hhit
      refine ⟨before, w, after ++ [a], by simp, hw, hpw, hhit', fun a' ha' hp' => ?_⟩
      rcases List.mem_append.mp ha' with ha' | ha'
      · exact hafter a' ha' hp'
      · rw [List.mem_singleton] at ha'
        rw [ha', hblock]

end Allocating

/-- Nothing is written before the first access. -/
theorem not_written_nil : ¬ Written place allocates [] i := by
  rintro ⟨before, a, after, heq, -⟩
  exact absurd heq.symm (by simp)

end DirectMapped

end HfRisc.Lib
