import Mathlib.Algebra.Order.Ring.Nat
import Mathlib.Data.List.Basic

/-!
# Segments between separators

The positions below `n`, some of which are separators. A segment is a maximal interval without one,
and not empty. The segments from a position on are found one after the other: the first position
that is no separator begins one, and the next separator, or the end, ends it.
-/

namespace HfRisc.Lib

variable {p q : ℕ → Prop} {n m i j i' j' : ℕ}

/-- The first position from `m` on with a property, or the end. -/
theorem exists_first (q : ℕ → Prop) (h : m ≤ n) :
    ∃ i, m ≤ i ∧ i ≤ n ∧ (∀ k, m ≤ k → k < i → ¬q k) ∧ (i < n → q i) := by
  obtain ⟨t, rfl⟩ := Nat.exists_eq_add_of_le h
  clear h
  induction t generalizing m with
  | zero =>
    exact ⟨m, le_rfl, le_rfl, fun k hle hlt => absurd hle (Nat.not_le_of_lt hlt),
      fun hlt => absurd hlt (Nat.lt_irrefl m)⟩
  | succ t ih =>
    by_cases hm : q m
    · exact ⟨m, le_rfl, Nat.le_add_right _ _, fun k hle hlt => absurd hle (Nat.not_le_of_lt hlt),
        fun _ => hm⟩
    · obtain ⟨i, hle, hi, hbefore, hfirst⟩ := ih (m := m + 1)
      refine ⟨i, by omega, by omega, fun k hk hki => ?_, fun hlt => hfirst (by omega)⟩
      rcases Nat.eq_or_lt_of_le hk with rfl | hgt
      · exact hm
      · exact hbefore k hgt hki

/-- The positions from `i` up to `j` are a segment. -/
structure IsSegment (p : ℕ → Prop) (n i j : ℕ) : Prop where
  lt : i < j
  le : j ≤ n
  free : ∀ k, i ≤ k → k < j → ¬p k
  left : ∀ k, k + 1 = i → p k
  right : j < n → p j

namespace IsSegment

/-- Behind a separator, or at the start. -/
def Boundary (p : ℕ → Prop) (m : ℕ) : Prop := ∀ k, k + 1 = m → p k

theorem boundary_zero : Boundary p 0 := fun k hk => absurd hk (Nat.succ_ne_zero k)

/-- The first segment from `m` on. -/
structure First (p : ℕ → Prop) (n m i j : ℕ) : Prop where
  skipped : ∀ k, m ≤ k → k < i → p k
  start : m ≤ i
  segment : IsSegment p n i j

/-- There are separators only, or there is a first segment. -/
theorem exists_first_segment (h : m ≤ n) (hm : Boundary p m) :
    (∀ k, m ≤ k → k < n → p k) ∨ ∃ i j, First p n m i j := by
  obtain ⟨i, hmi, hin, hskipped, hstart⟩ := exists_first (fun k => ¬p k) h
  have hskipped' : ∀ k, m ≤ k → k < i → p k := fun k hk hki => not_not.mp (hskipped k hk hki)
  rcases Nat.eq_or_lt_of_le hin with rfl | hlt
  · exact .inl hskipped'
  · obtain ⟨j, hij, hjn, hfree, hright⟩ := exists_first p (Nat.succ_le_of_lt hlt)
    refine .inr ⟨i, j, hskipped', hmi, hij, hjn, fun k hik hkj => ?_, fun k hk => ?_, hright⟩
    · rcases Nat.eq_or_lt_of_le hik with rfl | hgt
      · exact hstart hlt
      · exact hfree k hgt hkj
    · rcases Nat.eq_or_lt_of_le hmi with rfl | hgt
      · exact hm k hk
      · exact hskipped' k (by omega) (by omega)

theorem not_of_separators (hsep : ∀ k, m ≤ k → k < n → p k) (h : IsSegment p n i j) : i < m := by
  by_contra hge
  have hlt := h.lt
  have hle := h.le
  exact h.free i le_rfl hlt (hsep i (Nat.le_of_not_lt hge) (by omega))

/-- Any other segment from `m` on is behind the separator that ends the first one. -/
theorem First.eq_or_lt (h : First p n m i j) (h' : IsSegment p n i' j') (hm : m ≤ i') :
    i' = i ∧ j' = j ∨ j < i' := by
  have hseg := h.segment
  have hlt := hseg.lt
  have hlt' := h'.lt
  have hle := hseg.le
  have hle' := h'.le
  have hstart' := h'.free i' le_rfl hlt'
  have hge : i ≤ i' := by
    by_contra hless
    exact hstart' (h.skipped i' hm (Nat.lt_of_not_le hless))
  rcases Nat.eq_or_lt_of_le hge with rfl | hgt
  · left
    refine ⟨rfl, ?_⟩
    rcases Nat.lt_trichotomy j j' with hjj | hjj | hjj
    · exact absurd (hseg.right (by omega)) (h'.free j (by omega) hjj)
    · exact hjj.symm
    · exact absurd (h'.right (by omega)) (hseg.free j' (by omega) hjj)
  · right
    by_contra hnot
    rcases Nat.eq_or_lt_of_le (Nat.le_of_not_lt hnot) with rfl | hinside
    · exact hstart' (hseg.right (by omega))
    · -- the position in front of it is in the first segment
      exact hseg.free (i' - 1) (by omega) (by omega) (h'.left (i' - 1) (by omega))

/-- The next search begins behind this separator. -/
theorem First.boundary (h : First p n m i j) (hj : j < n) : Boundary p (j + 1) := fun k hk => by
  obtain rfl : k = j := Nat.succ.inj hk
  exact h.segment.right hj

/-! ## All segments -/

/-- The segments from `m` on, in order. -/
structure Listed (p : ℕ → Prop) (n m : ℕ) (segs : List (ℕ × ℕ)) : Prop where
  sorted : segs.Pairwise fun x y => x.2 < y.1
  mem_iff : ∀ x, x ∈ segs ↔ IsSegment p n x.1 x.2 ∧ m ≤ x.1

theorem Listed.nil (hsep : ∀ k, m ≤ k → k < n → p k) : Listed p n m [] where
  sorted := List.Pairwise.nil
  mem_iff x := by
    refine iff_of_false List.not_mem_nil fun h => ?_
    exact absurd h.2 (Nat.not_le_of_lt (not_of_separators hsep h.1))

/-- The first segment, and those behind it. -/
theorem Listed.cons {segs : List (ℕ × ℕ)} (h : First p n m i j) (hsegs : Listed p n (j + 1) segs) :
    Listed p n m ((i, j) :: segs) where
  sorted := List.Pairwise.cons (fun x hx => ((hsegs.mem_iff x).mp hx).2) hsegs.sorted
  mem_iff x := by
    rw [List.mem_cons, hsegs.mem_iff]
    constructor
    · rintro (rfl | ⟨hseg, hle⟩)
      · exact ⟨h.segment, h.start⟩
      · have hlt := h.segment.lt
        have hstart := h.start
        exact ⟨hseg, by omega⟩
    · rintro ⟨hseg, hle⟩
      exact (h.eq_or_lt hseg hle).imp (fun heq => Prod.ext heq.1 heq.2) fun hlt => ⟨hseg, hlt⟩

end IsSegment

end HfRisc.Lib
