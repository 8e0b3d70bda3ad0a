import Mathlib.Data.Nat.Find
import Mathlib.Tactic.Common

/-!
# A filter that counts up and down

A counter between `0` and `M` goes up at every high sample and down at every low one,
and its upper half is the filtered value. A sequence that changes only after `M` equal
samples passes such a filter unchanged, `k` samples later, where `M + 1 = 2 * k`.
-/

namespace HfRisc.Lib

/-- The counter `c` averages the samples `x`. It starts full. -/
structure UpDown (M : ℕ) (x : ℕ → Bool) (c : ℕ → ℕ) : Prop where
  start : c 0 = M
  step : ∀ n, c (n + 1) = if x n then min (c n + 1) M else c n - 1

/-- A change of the sequence comes after `M` equal samples, or after none at all. -/
def Steady (M : ℕ) (x : ℕ → Bool) : Prop :=
  ∀ n, x (n + 1) ≠ x n → ∀ i ≤ n, n < i + M → x i = x n

namespace UpDown

variable {M k : ℕ} {x : ℕ → Bool} {c : ℕ → ℕ}

theorem le (h : UpDown M x c) : ∀ n, c n ≤ M := by
  intro n
  induction n with
  | zero => exact le_of_eq h.start
  | succ n ih =>
    rw [h.step]
    split <;> omega

/-- One sample moves the counter by at most one. -/
theorem near (h : UpDown M x c) (i j : ℕ) : c i ≤ c (i + j) + j ∧ c (i + j) ≤ c i + j := by
  induction j with
  | zero => exact ⟨le_rfl, le_rfl⟩
  | succ j ih =>
    have hle := h.le (i + j)
    have hstep := h.step (i + j)
    rw [Nat.add_assoc] at hstep
    split at hstep <;> omega

/-- Equal samples move the counter to the end of its range. -/
theorem constant (h : UpDown M x c) {i : ℕ} {b : Bool} :
    ∀ j, (∀ l < j, x (i + l) = b) → c (i + j) = if b then min (c i + j) M else c i - j := by
  intro j hx
  induction j with
  | zero =>
    have hle := h.le i
    cases b
    · rfl
    · exact (Nat.min_eq_left hle).symm
  | succ j ih =>
    rw [← Nat.add_assoc, h.step, ih fun l hl => hx l (Nat.lt_succ_of_lt hl),
      hx j (Nat.lt_succ_self j)]
    cases b
    · rfl
    · show min (min (c i + j) M + 1) M = min (c i + (j + 1)) M
      omega

/-- Before a change the counter has reached an end of its range. -/
theorem saturated (h : UpDown M x c) (hx : Steady M x) (h0 : x 0 = true) {n : ℕ}
    (hn : x (n + 1) ≠ x n) : c (n + 1) = if x n then M else 0 := by
  by_cases hM : n + 1 < M
  · -- nothing has changed since the start
    have hall : ∀ l < n + 1, x (0 + l) = x n := fun l hl =>
      hx n hn (0 + l) (by omega) (by omega)
    have hone : x n = true := (hall 0 (Nat.succ_pos n)).symm.trans h0
    have hc := h.constant (n + 1) hall
    rw [Nat.zero_add, hone, if_pos rfl, h.start] at hc
    rw [hone, if_pos rfl, hc]
    omega
  · have hall : ∀ l < M, x (n + 1 - M + l) = x n := fun l hl =>
      hx n hn _ (by omega) (by omega)
    have hc := h.constant M hall
    rw [show n + 1 - M + M = n + 1 by omega] at hc
    have hle := h.le (n + 1 - M)
    rw [hc]
    cases x n
    · show c (n + 1 - M) - M = 0
      omega
    · show min (c (n + 1 - M) + M) M = M
      omega

/-- The filter delays a steady sequence. -/
theorem delay (h : UpDown M x c) (hx : Steady M x) (h0 : x 0 = true) (hk : M + 1 = 2 * k)
    (n : ℕ) : k ≤ c (n + k) ↔ x n = true := by
  by_cases hch : ∃ j, j + 1 < k ∧ x (n + j + 1) ≠ x (n + j)
  · -- from the first change, less than `k` samples are left
    obtain ⟨hj, hne⟩ := Nat.find_spec hch
    have hsame : ∀ l ≤ Nat.find hch, x (n + l) = x n := fun l hl => by
      induction l with
      | zero => rfl
      | succ l ih =>
        have hmin := Nat.find_min hch (Nat.lt_of_succ_le hl)
        have heq : x (n + l + 1) = x (n + l) := by
          by_contra hc
          exact hmin ⟨by omega, hc⟩
        rw [← Nat.add_assoc, heq]
        exact ih (Nat.le_of_succ_le hl)
    have hsat := h.saturated hx h0 hne
    rw [hsame _ le_rfl] at hsat
    have hnear := h.near (n + Nat.find hch + 1) (k - 1 - Nat.find hch)
    rw [show n + Nat.find hch + 1 + (k - 1 - Nat.find hch) = n + k by omega, hsat] at hnear
    cases hb : x n <;> simp only [hb, if_true, Bool.false_eq_true, if_false] at hnear <;>
      simp only [Bool.false_eq_true, iff_false, iff_true] <;> omega
  · have hsame : ∀ l < k, x (n + l) = x n := fun l hl => by
      induction l with
      | zero => rfl
      | succ l ih =>
        have heq : x (n + l + 1) = x (n + l) := by
          by_contra hc
          exact hch ⟨l, hl, hc⟩
        rw [← Nat.add_assoc, heq]
        exact ih (Nat.lt_of_succ_lt hl)
    have hc := h.constant k hsame
    have hle := h.le n
    rw [hc]
    cases x n
    · simp only [Bool.false_eq_true, if_false, iff_false]
      omega
    · simp only [if_true, iff_true]
      omega

/-- At first the filter shows the full counter it started with. -/
theorem initial (h : UpDown M x c) (hk : M + 1 = 2 * k) {n : ℕ} (hn : n < k) : k ≤ c n := by
  have hnear := (h.near 0 n).1
  rw [Nat.zero_add, h.start] at hnear
  omega

end UpDown

end HfRisc.Lib
