import Mathlib.Order.Nat

/-!
# Prescaled counters with a compare value

A free-running clock drives a counter through a prescaler: the counter advances at
the multiples of `P`, modulo `M`, and starts again from zero when it meets the compare
value `c`. There are two ways to build it. Comparing at every clock resets the
counter right after it has arrived at `c`; comparing at the ticks only lets it stay
at `c` for a full tick. This file has the distance between two matches for both.
-/

namespace HfRisc.Lib

/-! ## Ticks -/

/-- The multiples of `P` among `T + 1, …, T + j`. -/
def ticks (P T j : ℕ) : ℕ := (T + j) / P - T / P

variable {P T j c M n : ℕ}

@[simp] theorem ticks_zero : ticks P T 0 = 0 := Nat.sub_self _

theorem ticks_add_div : T / P + ticks P T j = (T + j) / P :=
  Nat.add_sub_cancel' (Nat.div_le_div_right (Nat.le_add_right T j))

theorem ticks_succ : ticks P T (j + 1) = ticks P T j + if P ∣ T + j + 1 then 1 else 0 := by
  have h₀ := @ticks_add_div P T j
  have h₁ := @ticks_add_div P T (j + 1)
  have h₂ : (T + j + 1) / P = (T + j) / P + if P ∣ T + j + 1 then 1 else 0 := Nat.succ_div
  rw [← Nat.add_assoc, h₂] at h₁
  omega

theorem ticks_of_dvd (hP : 0 < P) (h : P ∣ T) : ticks P T j = j / P := by
  obtain ⟨k, rfl⟩ := h
  rw [ticks, Nat.mul_add_div hP, Nat.mul_div_cancel_left k hP, Nat.add_sub_cancel_left]

/-- The `k`-th tick comes `k * P - T % P` clocks after `T`. -/
theorem le_ticks_iff (hP : 0 < P) {k : ℕ} : k ≤ ticks P T j ↔ k * P ≤ T % P + j := by
  have hdiv := Nat.div_add_mod T P
  have hticks := @ticks_add_div P T j
  constructor
  · intro h
    have hle : (T / P + k) * P ≤ T + j :=
      (Nat.le_div_iff_mul_le hP).mp (by omega)
    rw [Nat.add_mul, Nat.mul_comm (T / P)] at hle
    omega
  · intro h
    have hle : T / P + k ≤ (T + j) / P := by
      rw [Nat.le_div_iff_mul_le hP, Nat.add_mul, Nat.mul_comm (T / P)]
      omega
    omega

/-- A counter that is advanced at the ticks holds their number. -/
theorem counter_eq_ticks {v : ℕ → ℕ} {N : ℕ} (h0 : v 0 = 0)
    (hv : ∀ i < N, v (i + 1) = (v i + if P ∣ T + i + 1 then 1 else 0) % M) :
    ∀ i ≤ N, v i = ticks P T i % M := by
  intro i hi
  induction i with
  | zero => rw [h0, ticks_zero, Nat.zero_mod]
  | succ i ih => rw [hv i hi, ih (Nat.le_of_succ_le hi), ticks_succ, Nat.mod_add_mod]

/-! ## Compared at every clock -/

/-- After a match at time `T`, the next match of a counter that is compared at every
clock is `n` clocks later. -/
structure LevelGap (P T M c n : ℕ) : Prop where
  pos : 0 < n
  next : ticks P T n % M = c
  between : ∀ j, 0 < j → j < n → ticks P T j % M ≠ c

/-- The first time with a property is the only one with the property and none before. -/
theorem first_unique {p : ℕ → Prop} {m : ℕ} (hn : 0 < n) (hpn : p n)
    (hbn : ∀ j, 0 < j → j < n → ¬ p j) (hm : 0 < m) (hpm : p m)
    (hbm : ∀ j, 0 < j → j < m → ¬ p j) : n = m := by
  rcases Nat.lt_trichotomy n m with h | h | h
  · exact absurd hpn (hbm n hn h)
  · exact h
  · exact absurd hpm (hbn m hm h)

namespace LevelGap

/-- The match comes at the `c`-th tick. -/
theorem add_mod (h : LevelGap P T M c n) (hP : 0 < P) (hc : 0 < c) (hM : c < M) :
    n + T % P = c * P := by
  have hmod : T % P < P := Nat.mod_lt T hP
  have hcP : P ≤ c * P := Nat.le_mul_of_pos_left P hc
  have hnext : ticks P T (c * P - T % P) = c := by
    refine Nat.le_antisymm (Nat.le_of_lt_succ (Nat.lt_of_not_le fun hle => ?_))
      ((le_ticks_iff hP).mpr (by omega))
    have := (le_ticks_iff hP).mp hle
    rw [Nat.succ_mul] at this
    omega
  have heq : n = c * P - T % P := by
    refine first_unique (p := fun j => ticks P T j % M = c) h.pos h.next h.between (by omega)
      (by rw [hnext, Nat.mod_eq_of_lt hM]) fun j _ hj heq => ?_
    -- before the `c`-th tick the counter is below `c`
    have hlt : ticks P T j < c := Nat.lt_of_not_le fun hle => by
      have := (le_ticks_iff hP).mp hle
      omega
    rw [Nat.mod_eq_of_lt (hlt.trans hM)] at heq
    exact hlt.ne heq
  omega

/-- With compare value zero the match is repeated at once, unless the clock of the
first match ticks: then the counter runs through all its values. -/
theorem zero (h : LevelGap P T M 0 n) (hP : 0 < P) (hM : 1 < M) :
    n = if P ∣ T + 1 then (M - 1) * P + 1 else 1 := by
  split
  · -- the next tick is due in the cycle after the match, so that the counter leaves zero
    rename_i hdvd
    have hmod : T % P = P - 1 := by
      obtain ⟨k, hk⟩ := hdvd
      have hk0 : 0 < k := Nat.pos_of_ne_zero fun h0 => by
        rw [h0] at hk
        exact Nat.succ_ne_zero T hk
      obtain ⟨k, rfl⟩ := Nat.exists_eq_add_of_lt hk0
      have hT : T = P * k + (P - 1) := by
        rw [Nat.zero_add, Nat.mul_succ] at hk
        omega
      rw [hT, Nat.mul_add_mod, Nat.mod_eq_of_lt (Nat.sub_lt hP Nat.one_pos)]
    have hle : ∀ k j, k ≤ ticks P T j ↔ k * P ≤ P - 1 + j := fun k j => by
      rw [le_ticks_iff hP, hmod]
    have hMP : M * P = (M - 1) * P + P := by
      rw [← Nat.succ_mul, Nat.succ_eq_add_one, Nat.sub_add_cancel hM.le]
    refine first_unique (p := fun j => ticks P T j % M = 0) h.pos h.next h.between (by omega) ?_
      fun j hj hjn heq => ?_
    · have hticks : ticks P T ((M - 1) * P + 1) = M := by
        refine Nat.le_antisymm (Nat.le_of_lt_succ (Nat.lt_of_not_le fun hgt => ?_))
          ((hle _ _).mpr (by omega))
        have := (hle _ _).mp hgt
        rw [Nat.succ_mul] at this
        omega
      show ticks P T ((M - 1) * P + 1) % M = 0
      rw [hticks, Nat.mod_self]
    · have hpos : 1 ≤ ticks P T j := (hle _ _).mpr (by omega)
      have hlt : ticks P T j < M := Nat.lt_of_not_le fun hge => by
        have := (hle _ _).mp hge
        omega
      rw [Nat.mod_eq_of_lt hlt] at heq
      omega
  · rename_i hdvd
    have hone : ticks P T 1 = 0 := by
      rw [ticks_succ, ticks_zero, if_neg hdvd]
    exact first_unique (p := fun j => ticks P T j % M = 0) h.pos h.next h.between Nat.one_pos
      (by rw [hone, Nat.zero_mod]) fun j hj hj1 => absurd hj1 (by omega)

end LevelGap

/-! ## Compared at the ticks -/

/-- After a match at a multiple `T` of `P`, the next match of a counter that is compared
at the ticks is `n` clocks later. -/
structure EdgeGap (P T M c n : ℕ) : Prop where
  tick : P ∣ T
  next : P ∣ T + (n + 1) ∧ ticks P T n % M = c
  between : ∀ j < n, ¬ (P ∣ T + (j + 1) ∧ ticks P T j % M = c)

/-- The match comes at tick `c + 1`. -/
theorem EdgeGap.eq (h : EdgeGap P T M c n) (hP : 0 < P) (hM : c < M) : n + 1 = (c + 1) * P := by
  have hnext : P ∣ n + 1 := (Nat.dvd_add_right h.tick).mp h.next.1
  obtain ⟨k, hk⟩ := hnext
  have hk0 : 0 < k := Nat.pos_of_ne_zero fun h0 => by
    rw [h0] at hk
    exact Nat.succ_ne_zero n hk
  obtain ⟨k, rfl⟩ := Nat.exists_eq_add_of_lt hk0
  rw [Nat.zero_add] at hk
  -- just before tick `i + 1` the counter holds `i`
  have hbefore : ∀ i, ticks P T (P * (i + 1) - 1) = i := fun i => by
    rw [ticks_of_dvd hP h.tick, Nat.mul_succ, Nat.add_sub_assoc hP, Nat.mul_add_div hP,
      Nat.div_eq_of_lt (Nat.sub_lt hP Nat.one_pos), Nat.add_zero]
  have hkM : k % M = c := by
    have := h.next.2
    rwa [show n = P * (k + 1) - 1 by omega, hbefore] at this
  rcases Nat.lt_or_ge c k with hck | hck
  · -- a match at tick `c + 1` lies between
    have hpos : 0 < P * (c + 1) := Nat.mul_pos hP (Nat.succ_pos c)
    have hlt : P * (c + 1) < P * (k + 1) := Nat.mul_lt_mul_of_pos_left (by omega) hP
    refine absurd ⟨?_, ?_⟩ (h.between (P * (c + 1) - 1) (by omega))
    · rw [Nat.sub_add_cancel hpos]
      exact Nat.dvd_add h.tick (Nat.dvd_mul_right P _)
    · rw [hbefore, Nat.mod_eq_of_lt hM]
  · have hkc : k = c := by
      rw [Nat.mod_eq_of_lt (hck.trans_lt hM)] at hkM
      exact hkM
    rw [hk, hkc, Nat.mul_comm]

/-- The two counters never match at the same distance: the one compared at every clock
counts with prescaler `P`, which is that of the other, `Q`, or none. -/
theorem LevelGap.ne_edge {Q U m : ℕ} (h : LevelGap P T M c n) (h' : EdgeGap Q U M c m)
    (hP : P = Q ∨ P = 1) (hQ : 0 < Q) (hQM : Q < M) (hc : c < M) : n ≠ m + 1 := by
  intro heq
  have hm := h'.eq hQ hc
  have hPQ : P ≤ Q := by
    rcases hP with h | h <;> omega
  have hP0 : 0 < P := by
    rcases hP with h | h <;> omega
  rcases Nat.eq_zero_or_pos c with rfl | hc0
  · have hn := h.zero hP0 (by omega)
    split at hn
    · -- `(M - 1) * P + 1` is more than `Q`
      rcases hP with rfl | rfl
      · have hle : P ≤ (M - 1) * P := Nat.le_mul_of_pos_left P (by omega)
        omega
      · omega
    · rename_i hdvd
      rcases hP with rfl | rfl
      · have h1 : P = 1 := by omega
        exact hdvd (by rw [h1]; exact Nat.one_dvd _)
      · exact hdvd (Nat.one_dvd _)
  · have hn := h.add_mod hP0 hc0 hc
    have hle : c * P ≤ c * Q := Nat.mul_le_mul_left c hPQ
    rw [Nat.succ_mul] at hm
    omega

end HfRisc.Lib
