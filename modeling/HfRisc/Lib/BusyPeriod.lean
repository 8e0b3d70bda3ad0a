import Mathlib.Algebra.BigOperators.Intervals
import Mathlib.Algebra.BigOperators.Ring.Finset
import Mathlib.Algebra.Order.Floor.Div
import Mathlib.Order.Interval.Finset.Nat

/-!
# Busy periods

Work arrives in slots and is served one unit a slot (`Served`). Pending work goes back to
a slot without any: from there on every slot has been busy, so that what arrived is what
was served and what is pending (`Served.busy`). If a bound on the arrivals in any window
is at most the length `R` of the window for one `R`, pending work is younger than `R`
(`Served.recent`). Periodic arrivals are bounded by the number of periods a window
touches (`sum_periodic_le`).
-/

namespace HfRisc.Lib

/-- What is pending at the start of each of the first `N` slots: what was pending and what
arrived in the slot before, less one unit of service if there was any. -/
structure Served (arr pend : ℕ → ℕ) (N : ℕ) : Prop where
  init : pend 0 = 0
  step : ∀ t < N, pend (t + 1) = pend t + arr t - 1

namespace Served

variable {arr pend : ℕ → ℕ} {N : ℕ}

/-- The busy period of pending work. -/
theorem busy (h : Served arr pend N) {t : ℕ} (ht : t ≤ N) (hpos : 0 < pend t) :
    ∃ a < t, pend a = 0 ∧ (∀ s, a < s → s ≤ t → 0 < pend s) ∧
      ∀ s, a ≤ s → s ≤ t → pend s + (s - a) = ∑ k ∈ Finset.Ico a s, arr k := by
  induction t with
  | zero =>
    rw [h.init] at hpos
    exact absurd hpos (Nat.lt_irrefl 0)
  | succ t ih =>
    have hstep := h.step t ht
    rcases Nat.eq_zero_or_pos (pend t) with hzero | hpend
    · -- The busy period starts here.
      refine ⟨t, Nat.lt_succ_self t, hzero, fun s hs hs' => ?_, fun s hs hs' => ?_⟩
      · obtain rfl : s = t + 1 := by omega
        exact hpos
      · obtain rfl | rfl : s = t ∨ s = t + 1 := by omega
        · simp [hzero]
        · rw [Nat.Ico_succ_singleton, Finset.sum_singleton]
          omega
    · obtain ⟨a, hat, hzero, hbusy, hsum⟩ := ih (by omega) hpend
      refine ⟨a, by omega, hzero, fun s hs hs' => ?_, fun s hs hs' => ?_⟩
      · obtain rfl | hs'' : s = t + 1 ∨ s ≤ t := by omega
        · exact hpos
        · exact hbusy s hs hs''
      · obtain rfl | hs'' : s = t + 1 ∨ s ≤ t := by omega
        · have hlast := hsum t (by omega) (le_refl t)
          rw [Finset.sum_Ico_succ_top (by omega), ← hlast]
          omega
        · exact hsum s hs hs''

/-- Pending work is younger than a length whose demand it covers. -/
theorem recent (h : Served arr pend N) {demand : ℕ → ℕ}
    (hdemand : ∀ a L, ∑ k ∈ Finset.Ico a (a + L), arr k ≤ demand L) {R : ℕ} (hR : 0 < R)
    (hfits : demand R ≤ R) {t : ℕ} (ht : t ≤ N) (hpos : 0 < pend t) :
    ∃ a < t, pend a = 0 ∧ t < a + R := by
  obtain ⟨a, hat, hzero, hbusy, hsum⟩ := h.busy ht hpos
  refine ⟨a, hat, hzero, ?_⟩
  by_contra hlate
  have hserved := hsum (a + R) (by omega) (by omega)
  have hpend := hbusy (a + R) (by omega) (by omega)
  have hbound := hdemand a R
  omega

end Served

/-- A window as long as the period holds one multiple at most. -/
theorem sum_periodic_le_one {T L : ℕ} (C a : ℕ) (hL : L ≤ T) :
    ∑ k ∈ Finset.Ico a (a + L), (if T ∣ k then C else 0) ≤ C := by
  rw [← Finset.sum_filter, Finset.sum_const, smul_eq_mul]
  refine (Nat.mul_le_mul_right C ?_).trans_eq (Nat.one_mul C)
  refine Finset.card_le_one.mpr fun x hx y hy => ?_
  rw [Finset.mem_filter, Finset.mem_Ico] at hx hy
  obtain ⟨⟨hx₁, hx₂⟩, hx₃⟩ := hx
  obtain ⟨⟨hy₁, hy₂⟩, hy₃⟩ := hy
  -- Two multiples less than a period apart are one.
  rcases Nat.le_total x y with hxy | hxy
  · have hd := Nat.eq_zero_of_dvd_of_lt (Nat.dvd_sub hy₃ hx₃) (by omega)
    omega
  · have hd := Nat.eq_zero_of_dvd_of_lt (Nat.dvd_sub hx₃ hy₃) (by omega)
    omega

theorem sum_periodic_le_mul {T : ℕ} (C q : ℕ) {a L : ℕ} (hL : L ≤ T * q) :
    ∑ k ∈ Finset.Ico a (a + L), (if T ∣ k then C else 0) ≤ q * C := by
  induction q generalizing a L with
  | zero =>
    obtain rfl : L = 0 := by omega
    simp
  | succ q ih =>
    rw [Nat.mul_succ] at hL
    rw [Nat.succ_mul]
    rcases Nat.le_total L T with hle | hge
    · exact (sum_periodic_le_one C a hle).trans (Nat.le_add_left C (q * C))
    · have hrest := ih (a := a + T) (L := L - T) (by omega)
      rw [show a + T + (L - T) = a + L by omega] at hrest
      rw [← Finset.sum_Ico_consecutive _ (Nat.le_add_right a T) (by omega), Nat.add_comm]
      exact Nat.add_le_add hrest (sum_periodic_le_one C a (le_refl T))

/-- What arrives periodically in a window: at most once for each period the window
begins. -/
theorem sum_periodic_le {T : ℕ} (hT : 0 < T) (C a L : ℕ) :
    ∑ k ∈ Finset.Ico a (a + L), (if T ∣ k then C else 0) ≤ (L ⌈/⌉ T) * C :=
  sum_periodic_le_mul C _ (le_smul_ceilDiv hT)

end HfRisc.Lib
