import HfRisc.Rt.Switch
import Mathlib.Order.Interval.Finset.Nat
import Mathlib.Tactic.Linarith

/-!
# Budgets over a run

Tasks that start with nothing executed and a positive capacity never run past it. Between
two multiples of its period a task is not released, so that in each such window it has
executed what it had and its selections (`Fresh.executed_window`).
-/

namespace HfRisc.Rt

open Sched

variable {φ : Type} {s : Sched φ} {n : ℕ}

/-! ## What stays -/

/-- The fields of a task that no switch changes. -/
structure RtTask.Same (t u : RtTask φ) : Prop where
  id : t.id = u.id
  period : t.period = u.period
  capacity : t.capacity = u.capacity

theorem RtTask.Same.trans {t u v : RtTask φ} (h : t.Same u) (h' : u.Same v) : t.Same v :=
  ⟨h.id.trans h'.id, h.period.trans h'.period, h.capacity.trans h'.capacity⟩

theorem Sched.Switched.same {s' : Sched φ} (h : Switched s s') {j : ℕ} {t' : RtTask φ}
    (ht' : s'.tasks[j]? = some t') : ∃ t, s.tasks[j]? = some t ∧ t'.Same t := by
  rw [h.tasks] at ht'
  obtain ⟨t, ht, rfl⟩ := Option.map_eq_some_iff.mp ht'
  refine ⟨t, ht, ?_, ?_, ?_⟩
  · split
    · exact settle_id
    · exact settle_id
  · split
    · exact settle_period
    · exact settle_period
  · split
    · exact settle_capacity
    · exact settle_capacity

theorem Sched.Valid.same_run (h : s.Valid) (n : ℕ) {j : ℕ} {t' : RtTask φ}
    (ht' : (s.run n).tasks[j]? = some t') : ∃ t, s.tasks[j]? = some t ∧ t'.Same t := by
  induction n generalizing t' with
  | zero => exact ⟨t', ht', rfl, rfl, rfl⟩
  | succ n ih =>
    obtain ⟨u, hu, hsame⟩ := (contextSwitch_spec (h.run n)).same ht'
    obtain ⟨t, ht, hsame'⟩ := ih hu
    exact ⟨t, ht, hsame.trans hsame'⟩

/-- A task of the start is at its place in every state of the run. -/
theorem Sched.Valid.exists_run (h : s.Valid) (n : ℕ) {j : ℕ} {t : RtTask φ}
    (ht : s.tasks[j]? = some t) : ∃ t', (s.run n).tasks[j]? = some t' ∧ t'.Same t := by
  induction n with
  | zero => exact ⟨t, ht, rfl, rfl, rfl⟩
  | succ n ih =>
    obtain ⟨u, hu, hsame⟩ := ih
    have hsw := contextSwitch_spec (h.run n)
    have htask := hsw.tasks j
    rw [hu, Option.map_some] at htask
    obtain ⟨u', hu', hsame'⟩ := hsw.same htask
    obtain rfl : u = u' := Option.some.inj (hu.symm.trans hu')
    exact ⟨_, htask, hsame'.trans hsame⟩

/-- `rt_time` counts the switches. -/
theorem Sched.Valid.run_time (h : s.Valid) (htime : s.time = 0) (hn : n ≤ 2147483647) :
    (s.run n).time = n := by
  induction n with
  | zero => exact htime
  | succ n ih =>
    show (s.run n).contextSwitch.time = _
    rw [(contextSwitch_spec (h.run n)).time, ih (by omega), inc_of_lt (by omega)]
    rfl

/-! ## Within the capacity -/

/-- After `n` switches: within the capacity, with some of it left unless the task is done
or has just been selected. -/
structure Budget (s : Sched φ) (n : ℕ) (j : ℕ) (t : RtTask φ) : Prop where
  nonneg : 0 ≤ t.executed
  young : t.executed ≤ n
  le : t.executed ≤ t.capacity
  lt : t.state ≠ .done → s.running ≠ some j → t.executed < t.capacity

/-- A settled task has at most executed what it had, and an eligible one has budget left. -/
theorem Budget.settle {j : ℕ} {t : RtTask φ} (h : Budget s n j t) (hpos : 0 < t.capacity) :
    0 ≤ (s.settle j t).executed ∧ (s.settle j t).executed ≤ t.executed ∧
      ((s.settle j t).state ≠ .done → (s.settle j t).executed < t.capacity) := by
  rw [Sched.settle]
  rcases RtTask.release_cases (if s.running = some j ∧ t.executed = t.capacity then
    { t with state := .done } else t) s.time with ⟨hsame, -⟩ | ⟨-, -, hready⟩
  · rw [hsame]
    split
    · exact ⟨h.nonneg, le_refl _, fun hd => absurd rfl hd⟩
    · rename_i hnot
      refine ⟨h.nonneg, le_refl _, fun hd => ?_⟩
      by_cases hrun : s.running = some j
      · exact lt_of_le_of_ne h.le fun heq => hnot ⟨hrun, heq⟩
      · exact h.lt hd hrun
  · rw [hready]
    exact ⟨le_refl _, h.nonneg, fun _ => hpos⟩

theorem Budget.step {j : ℕ} {t t' : RtTask φ} (hv : s.Valid) (h : Budget s n j t)
    (hpos : 0 < t.capacity) (hn : n < 2147483647) (ht : s.tasks[j]? = some t)
    (ht' : s.contextSwitch.tasks[j]? = some t') : Budget s.contextSwitch (n + 1) j t' := by
  have hsw := contextSwitch_spec hv
  obtain ⟨hnonneg, hle, hleft⟩ := h.settle hpos
  rw [hsw.tasks, ht, Option.map_some, Option.some_inj] at ht'
  have hyoung := h.young
  have hcap := h.le
  by_cases hrun : s.contextSwitch.running = some j
  · rw [if_pos hrun] at ht'
    obtain ⟨u, hu, helig, -⟩ := hsw.picks.eligible j hrun
    obtain rfl : t = u := Option.some.inj (ht.symm.trans hu)
    have hlt := hleft helig.2
    have hexec : t'.executed = (s.settle j t).executed + 1 := by
      rw [← ht']
      exact inc_of_lt (by omega)
    have hcap' : t'.capacity = t.capacity := by
      rw [← ht']
      exact settle_capacity
    refine ⟨by omega, by push_cast; omega, by omega, fun _ hno => absurd hrun hno⟩
  · rw [if_neg hrun] at ht'
    subst ht'
    refine ⟨hnonneg, by push_cast; omega, by rw [settle_capacity]; omega, fun hd _ => ?_⟩
    rw [settle_capacity]
    exact hleft hd

/-- What a run starts from: nothing executed, idle selected. -/
structure Fresh (s : Sched φ) : Prop where
  valid : s.Valid
  time : s.time = 0
  idle : s.running = none
  executed : ∀ t ∈ s.tasks, t.executed = 0

theorem Fresh.budget (h : Fresh s) (hpos : ∀ t ∈ s.tasks, 0 < t.capacity) (hn : n ≤ 2147483647)
    {j : ℕ} {t : RtTask φ} (ht : (s.run n).tasks[j]? = some t) : Budget (s.run n) n j t := by
  induction n generalizing t with
  | zero =>
    have hmem := List.mem_of_getElem? ht
    have hzero := h.executed t hmem
    have hcap := hpos t hmem
    exact ⟨by omega, by push_cast; omega, by omega, fun _ _ => by omega⟩
  | succ n ih =>
    obtain ⟨u, hu, hsame⟩ := (contextSwitch_spec (h.valid.run n)).same ht
    obtain ⟨v, hv, hsame'⟩ := h.valid.same_run n hu
    have hcap : 0 < u.capacity := by
      rw [hsame'.capacity]
      exact hpos v (List.mem_of_getElem? hv)
    exact (ih (by omega) hu).step (h.valid.run n) hcap (by omega) hu ht

/-! ## Windows -/

/-- Position `j` is selected by switch number `n`. -/
def selects (s : Sched φ) (j n : ℕ) : Prop := (s.run (n + 1)).running = some j

instance (s : Sched φ) (j n : ℕ) : Decidable (selects s j n) :=
  inferInstanceAs (Decidable (_ = _))

/-- How often position `j` is selected by the switches from `a` up to `b`. -/
def selections (s : Sched φ) (j a b : ℕ) : ℕ := ((Finset.Ico a b).filter (selects s j)).card

theorem selections_self (s : Sched φ) (j a : ℕ) : selections s j a a = 0 := by
  simp [selections]

theorem selections_succ (s : Sched φ) (j : ℕ) {a b : ℕ} (h : a ≤ b) :
    selections s j a (b + 1) = selections s j a b + if selects s j b then 1 else 0 := by
  rw [selections, selections, Nat.Ico_succ_right_eq_insert_Ico h, Finset.filter_insert]
  split
  · rw [Finset.card_insert_of_notMem (by simp)]
  · rfl

/-- Off the multiples of its period, a task is not released. -/
theorem settle_executed {j : ℕ} {t : RtTask φ} (h : ¬ s.time.tmod t.period = 0) :
    (s.settle j t).executed = t.executed := by
  rw [Sched.settle]
  rcases RtTask.release_cases (if s.running = some j ∧ t.executed = t.capacity then
    { t with state := .done } else t) s.time with ⟨hsame, -⟩ | ⟨-, hmod, -⟩
  · rw [hsame]
    split <;> rfl
  · refine absurd ?_ h
    split at hmod <;> exact hmod

/-- No multiple of a period lies strictly between two consecutive ones. -/
theorem not_tmod_of_between {k b T : ℕ} (hlo : k * T < b) (hhi : b < (k + 1) * T) :
    ¬ (b : ℤ).tmod (T : ℤ) = 0 := by
  intro h
  obtain ⟨q, rfl⟩ := Int.natCast_dvd_natCast.mp (Int.dvd_of_tmod_eq_zero h)
  rw [Nat.mul_comm T q] at hlo hhi
  have hkq := Nat.lt_of_mul_lt_mul_right hlo
  have hqk := Nat.lt_of_mul_lt_mul_right hhi
  omega

/-- A switch counts the tick of the task it selects. -/
theorem Fresh.executed_succ (h : Fresh s) (hpos : ∀ t ∈ s.tasks, 0 < t.capacity)
    (hn : n < 2147483647) {j : ℕ} {u v : RtTask φ} (hu : (s.run n).tasks[j]? = some u)
    (hv : (s.run (n + 1)).tasks[j]? = some v) :
    v.executed = ((s.run n).settle j u).executed + if selects s j n then 1 else 0 := by
  have htask := (contextSwitch_spec (h.valid.run n)).tasks j
  rw [hu, Option.map_some] at htask
  obtain rfl := Option.some.inj (hv.symm.trans htask)
  have hbud := h.budget hpos hn.le hu
  obtain ⟨t, ht, hsame⟩ := h.valid.same_run n hu
  obtain ⟨-, hle, -⟩ := hbud.settle (by
    rw [hsame.capacity]
    exact hpos t (List.mem_of_getElem? ht))
  have hyoung := hbud.young
  by_cases hsel : selects s j n
  · have hsel' : (s.run n).contextSwitch.running = some j := hsel
    rw [if_pos hsel, if_pos hsel']
    exact inc_of_lt (by omega)
  · have hsel' : ¬ (s.run n).contextSwitch.running = some j := hsel
    rw [if_neg hsel, if_neg hsel', add_zero]

/-- Up to the next multiple of its period, a task has executed what it had after the release
and its selections since. -/
theorem Fresh.executed_window (h : Fresh s) (hpos : ∀ t ∈ s.tasks, 0 < t.capacity)
    {j k T : ℕ} {u v : RtTask φ} (hu : (s.run (k * T)).tasks[j]? = some u) (hT : u.period = T)
    {b : ℕ} (hab : k * T < b) (hb : b ≤ (k + 1) * T) (hn : b ≤ 2147483647)
    (hv : (s.run b).tasks[j]? = some v) :
    v.executed = ((s.run (k * T)).settle j u).executed + selections s j (k * T) b := by
  induction b, hab using Nat.le_induction generalizing v with
  | base =>
    rw [h.executed_succ hpos (by omega) hu hv, selections_succ s j (le_refl _), selections_self]
    split <;> rfl
  | succ b hab ih =>
    obtain ⟨t, ht, hsame⟩ := h.valid.same_run (k * T) hu
    obtain ⟨w, hw, hsame'⟩ := h.valid.exists_run b ht
    rw [h.executed_succ hpos (by omega) hw hv, selections_succ s j (by omega)]
    -- Only the first switch of the window may release the task.
    rw [settle_executed, ih (by omega) (by omega) hw, add_assoc]
    · split <;> rfl
    · rw [h.valid.run_time h.time (by omega), hsame'.period, ← hsame.period, hT]
      exact not_tmod_of_between (k := k) (by omega) (by omega)

/-- How often position `j` is selected in the window `[k * T, (k + 1) * T)` by the first
`N` switches. -/
def ticks (s : Sched φ) (j : ℕ) (k T : ℤ) (N : ℕ) : ℕ :=
  ((Finset.range N).filter fun n => selects s j n ∧ k * T ≤ n ∧ n < (k + 1) * T).card

/-- Within one window of its period a task is selected for at most its capacity. -/
theorem Fresh.ticks_le (h : Fresh s) (hpos : ∀ t ∈ s.tasks, 0 < t.capacity)
    (hfits : ∀ t ∈ s.tasks, t.capacity ≤ t.period) {j : ℕ} {t : RtTask φ}
    (ht : s.tasks[j]? = some t) (k : ℤ) {N : ℕ} (hN : N ≤ 2147483647) :
    (ticks s j k t.period N : ℤ) ≤ t.capacity := by
  have hmem := List.mem_of_getElem? ht
  have hcap := hpos t hmem
  obtain ⟨T, hT⟩ := Int.eq_ofNat_of_zero_le (hcap.le.trans (hfits t hmem))
  by_cases hbegins : 0 ≤ k ∧ k * t.period ≤ N
  · obtain ⟨hk, hkN⟩ := hbegins
    obtain ⟨k, rfl⟩ := Int.eq_ofNat_of_zero_le hk
    rw [hT] at hkN ⊢
    have hkN' : k * T ≤ N := by exact_mod_cast hkN
    set b := min N ((k + 1) * T) with hb
    have hab : k * T ≤ b := le_min hkN' (Nat.mul_le_mul_right T (Nat.le_succ k))
    have hsub : ticks s j k T N ≤ selections s j (k * T) b := by
      refine Finset.card_le_card fun n hn => ?_
      rw [Finset.mem_filter, Finset.mem_range] at hn
      obtain ⟨hnN, hsel, hlo, hhi⟩ := hn
      rw [Finset.mem_filter, Finset.mem_Ico]
      exact ⟨⟨by exact_mod_cast hlo, lt_min hnN (by exact_mod_cast hhi)⟩, hsel⟩
    have hsub' : (ticks s j k T N : ℤ) ≤ selections s j (k * T) b := by exact_mod_cast hsub
    refine hsub'.trans ?_
    rcases Nat.eq_or_lt_of_le hab with heq | hlt
    · rw [← heq, selections_self]
      exact hcap.le
    · obtain ⟨u, hu, hsame⟩ := h.valid.exists_run (k * T) ht
      obtain ⟨v, hv, hsame'⟩ := h.valid.exists_run b ht
      have hbN : b ≤ 2147483647 := (min_le_left _ _).trans hN
      have hexec := h.executed_window hpos hu (by rw [hsame.period, hT]) hlt (min_le_right _ _)
        hbN hv
      obtain ⟨hnonneg, -, -⟩ := (h.budget hpos (by omega) hu).settle (by rwa [hsame.capacity])
      have hle := (h.budget hpos hbN hv).le
      rw [hsame'.capacity] at hle
      omega
  · -- The window begins after the run, or ends before it.
    have hnone : ticks s j k t.period N = 0 := by
      refine Finset.card_eq_zero.mpr (Finset.filter_eq_empty_iff.mpr fun n hn hin => hbegins ?_)
      obtain ⟨-, hlo, hhi⟩ := hin
      rw [Finset.mem_range] at hn
      rw [hT] at hlo hhi ⊢
      refine ⟨?_, by omega⟩
      by_contra hneg
      have hle : (k + 1) * (T : ℤ) ≤ 0 := mul_nonpos_of_nonpos_of_nonneg (by omega) (by omega)
      omega
    rw [hnone]
    exact hcap.le

end HfRisc.Rt
