import HfRisc.Lib.BusyPeriod
import HfRisc.Rt.Budget

/-!
# The scheduler as a server

For the tasks up to a period, what their budgets still hold is work: it arrives when a
task starts or is released, and each tick serves one unit of it, whichever of them is
selected (`Prepared.served`).
-/

namespace HfRisc.Rt

open Sched

variable {φ : Type} {s : Sched φ} {n : ℕ}

/-- Tasks to be scheduled rate monotonically: ready, with positive capacities, and with
positive periods below that of the idle task. -/
structure Prepared (s : Sched φ) : Prop where
  fresh : Fresh s
  ready : ∀ t ∈ s.tasks, t.state = .ready
  capacity : ∀ t ∈ s.tasks, 0 < t.capacity
  positive : ∀ t ∈ s.tasks, 0 < t.period
  short : ∀ t ∈ s.tasks, t.period < 65535

/-- The task at position `j` after `n` switches. -/
def taskAt (s : Sched φ) (n j : ℕ) : RtTask φ := (s.run n).tasks.getD j s.idle

theorem Sched.Valid.taskAt (h : s.Valid) (n : ℕ) (j : Fin s.tasks.length) :
    (s.run n).tasks[(j : ℕ)]? = some (taskAt s n j) ∧ (taskAt s n j).Same s.tasks[j] := by
  obtain ⟨t, ht, hsame⟩ := h.exists_run n (List.getElem?_eq_getElem j.isLt)
  have heq : Rt.taskAt s n j = t := by
    rw [Rt.taskAt, List.getD, ht, Option.getD_some]
  rw [heq]
  exact ⟨ht, hsame⟩

/-- No task blocks in a run. -/
theorem Prepared.not_blocked (h : Prepared s) (n : ℕ) :
    ∀ t ∈ (s.run n).tasks, t.state ≠ .blocked := by
  induction n with
  | zero =>
    intro t ht
    rw [h.ready t ht]
    exact nofun
  | succ n ih =>
    intro t' ht'
    obtain ⟨j, hj⟩ := List.mem_iff_getElem?.mp ht'
    have htask := (contextSwitch_spec (h.fresh.valid.run n)).tasks j
    obtain ⟨t, ht, heq⟩ := Option.map_eq_some_iff.mp (htask.symm.trans hj)
    have hb := ih t (List.mem_of_getElem? ht)
    rw [← heq]
    split
    · exact nofun
    · exact settle_not_blocked hb

/-! ## Work -/

/-- What the budget of a task holds after `n` switches, once it has been handed out. -/
def pending (s : Sched φ) (j : Fin s.tasks.length) (n : ℕ) : ℕ :=
  if n = 0 then 0 else ((taskAt s n j).capacity - (taskAt s n j).executed).toNat

/-- The budget handed out at tick `n`: at the start, and by a release. -/
def arrival (s : Sched φ) (j : Fin s.tasks.length) (n : ℕ) : ℕ :=
  if n = 0 ∨ pending s j n = 0 ∧ s.tasks[j].period.toNat ∣ n then s.tasks[j].capacity.toNat else 0

theorem arrival_le (s : Sched φ) (j : Fin s.tasks.length) (n : ℕ) :
    arrival s j n ≤ if s.tasks[j].period.toNat ∣ n then s.tasks[j].capacity.toNat else 0 := by
  rw [arrival]
  split
  · rename_i h
    have hdvd : s.tasks[j].period.toNat ∣ n := by
      rcases h with rfl | ⟨-, hdvd⟩
      · exact dvd_zero _
      · exact hdvd
    rw [if_pos hdvd]
  · exact Nat.zero_le _

/-- A task with budget left keeps what it has executed. -/
theorem Budget.settle_lt {j : ℕ} {t : RtTask φ} (hv : s.Valid) (ht : s.tasks[j]? = some t)
    (hlt : t.executed < t.capacity) : (s.settle j t).executed = t.executed := by
  have hnot : t.state ≠ .done := fun hd =>
    absurd (hv.done t (List.mem_of_getElem? ht) hd) hlt.ne
  rw [Sched.settle, if_neg fun hfull => hlt.ne hfull.2, RtTask.release_of_not_done hnot]

/-- A task without is released at the multiples of its period. -/
theorem Budget.settle_full {j : ℕ} {t : RtTask φ} (h : Budget s n j t)
    (hfull : t.executed = t.capacity) :
    (s.settle j t).executed = if s.time.tmod t.period = 0 then 0 else t.capacity := by
  have hdone : (if s.running = some j ∧ t.executed = t.capacity then
      { t with state := .done } else t).state = .done := by
    split
    · rfl
    · rename_i hnot
      by_contra hd
      exact absurd hfull (h.lt hd fun hrun => hnot ⟨hrun, hfull⟩).ne
  rw [Sched.settle, RtTask.release]
  simp only [hdone, true_and]
  have hperiod : (if s.running = some j ∧ t.executed = t.capacity then
      { t with state := .done } else t).period = t.period := by
    split <;> rfl
  rw [hperiod]
  split
  · rfl
  · split
    · exact hfull
    · exact hfull

/-- After the releases of tick `n`, what is left of the capacity is what was pending and
what arrived. -/
theorem Prepared.left (h : Prepared s) (hn : n ≤ 2147483647) (j : Fin s.tasks.length) :
    ((s.run n).settle j (taskAt s n j)).executed =
      s.tasks[j].capacity - (pending s j n + arrival s j n : ℕ) := by
  have hmem : s.tasks[j] ∈ s.tasks := List.getElem_mem j.isLt
  have hcap := h.capacity _ hmem
  have hperiod := h.positive _ hmem
  obtain ⟨ht, hsame⟩ := h.fresh.valid.taskAt n j
  have hbud := h.fresh.budget h.capacity hn ht
  have hnonneg := hbud.nonneg
  have hle := hbud.le
  rcases Nat.eq_zero_or_pos n with rfl | hpos
  · have hzero : (taskAt s 0 j).executed = 0 := h.fresh.executed _ (List.mem_of_getElem? ht)
    have hsettle := Budget.settle_lt h.fresh.valid ht (by rw [hzero, hsame.capacity]; exact hcap)
    show (s.settle j (taskAt s 0 j)).executed = _
    rw [hsettle, hzero, pending, arrival, if_pos rfl, if_pos (Or.inl rfl)]
    omega
  · have hpend : pending s j n = ((taskAt s n j).capacity - (taskAt s n j).executed).toNat :=
      if_neg hpos.ne'
    rw [hsame.capacity] at hpend hle
    rcases hle.lt_or_eq with hlt | heq
    · rw [Budget.settle_lt (h.fresh.valid.run n) ht (by rw [hsame.capacity]; exact hlt), arrival,
        if_neg (by omega)]
      omega
    · have hdvd : (n : ℤ).tmod s.tasks[j].period = 0 ↔ s.tasks[j].period.toNat ∣ n := by
        rw [← Int.dvd_iff_tmod_eq_zero, ← Int.natCast_dvd_natCast, Int.toNat_of_nonneg hperiod.le]
      rw [hbud.settle_full (by rw [hsame.capacity]; exact heq),
        h.fresh.valid.run_time h.fresh.time hn, hsame.period, hsame.capacity, arrival]
      by_cases hd : s.tasks[j].period.toNat ∣ n
      · rw [if_pos (hdvd.mpr hd), if_pos (.inr ⟨by omega, hd⟩)]
        omega
      · rw [if_neg fun hmod => hd (hdvd.mp hmod), if_neg (by omega)]
        omega

/-- A tick serves one unit of the task it selects. -/
theorem Prepared.pending_succ (h : Prepared s) (hn : n < 2147483647) (j : Fin s.tasks.length) :
    pending s j (n + 1) + (if selects s j n then 1 else 0) = pending s j n + arrival s j n := by
  obtain ⟨ht, -⟩ := h.fresh.valid.taskAt n j
  obtain ⟨ht', hsame'⟩ := h.fresh.valid.taskAt (n + 1) j
  have hexec := h.fresh.executed_succ h.capacity hn ht ht'
  have hle := (h.fresh.budget h.capacity hn ht').le
  rw [h.left hn.le j] at hexec
  rw [hsame'.capacity] at hle
  have hpend : pending s j (n + 1) =
      ((taskAt s (n + 1) j).capacity - (taskAt s (n + 1) j).executed).toNat :=
    if_neg (Nat.succ_ne_zero n)
  rw [hsame'.capacity] at hpend
  by_cases hsel : selects s j n
  · rw [if_pos hsel] at hexec ⊢
    omega
  · rw [if_neg hsel] at hexec ⊢
    omega

/-! ## The tasks up to a period -/

/-- The tasks whose period is not above that of `i`. -/
def upTo (s : Sched φ) (i : Fin s.tasks.length) : Finset (Fin s.tasks.length) :=
  {j | s.tasks[j].period ≤ s.tasks[i].period}

/-- If one of them has work, one of them is selected. -/
theorem Prepared.busy (h : Prepared s) (hn : n < 2147483647) {i j : Fin s.tasks.length}
    (hj : j ∈ upTo s i) (hwork : 0 < pending s j n + arrival s j n) :
    ∃ k ∈ upTo s i, selects s k n := by
  obtain ⟨ht, hsame⟩ := h.fresh.valid.taskAt n j
  have hv := h.fresh.valid.run n
  have hleft := h.left hn.le j
  have helig : ((s.run n).settle j (taskAt s n j)).Eligible := by
    rcases settle_cases hv ht with he | hb | ⟨-, hfull⟩
    · exact he
    · exact absurd hb (settle_not_blocked (h.not_blocked n _ (List.mem_of_getElem? ht)))
    · rw [hfull, hsame.capacity] at hleft
      omega
  have hleast := (contextSwitch_spec hv).picks.least j _ ht helig
  rw [hsame.period] at hleast
  rw [upTo, Finset.mem_filter] at hj
  cases hrun : (s.run n).contextSwitch.running with
  | none =>
    rw [hrun] at hleast
    exact absurd (h.short _ (List.getElem_mem j.isLt)) (not_lt.mpr hleast)
  | some k =>
    rw [hrun] at hleast
    obtain ⟨u, hu, hle⟩ := hleast
    obtain ⟨v, hv', hsame'⟩ := h.fresh.valid.same_run n hu
    obtain ⟨hlt, rfl⟩ := List.getElem?_eq_some_iff.mp hv'
    refine ⟨⟨k, hlt⟩, ?_, hrun⟩
    rw [upTo, Finset.mem_filter]
    refine ⟨Finset.mem_univ _, ?_⟩
    show s.tasks[k].period ≤ _
    rw [← hsame'.period]
    exact hle.trans hj.2

/-- One task at most is selected. -/
theorem sum_selects {i k : Fin s.tasks.length} (hk : k ∈ upTo s i) (hsel : selects s k n) :
    ∑ j ∈ upTo s i, (if selects s j n then 1 else 0) = 1 := by
  rw [Finset.sum_eq_single_of_mem k hk, if_pos hsel]
  intro j _ hne
  rw [if_neg]
  intro hsel'
  have hrun : (s.run (n + 1)).running = some (k : ℕ) := hsel
  exact hne (Fin.ext (Option.some.inj (hsel'.symm.trans hrun)))

/-- The work of the tasks up to a period is served one unit a tick. -/
theorem Prepared.served (h : Prepared s) (i : Fin s.tasks.length) :
    Lib.Served (fun n => ∑ j ∈ upTo s i, arrival s j n) (fun n => ∑ j ∈ upTo s i, pending s j n)
      2147483647 where
  init := Finset.sum_eq_zero fun j _ => if_pos rfl
  step := by
    intro n hn
    have hsum := Finset.sum_congr rfl fun j (_ : j ∈ upTo s i) => h.pending_succ hn j
    rw [Finset.sum_add_distrib, Finset.sum_add_distrib] at hsum
    by_cases hwork : ∃ j ∈ upTo s i, 0 < pending s j n + arrival s j n
    · obtain ⟨j, hj, hpos⟩ := hwork
      obtain ⟨k, hk, hsel⟩ := h.busy hn hj hpos
      rw [sum_selects hk hsel] at hsum
      show ∑ j ∈ upTo s i, pending s j (n + 1) = _
      omega
    · have hnone : ∑ j ∈ upTo s i, pending s j n + ∑ j ∈ upTo s i, arrival s j n = 0 := by
        rw [← Finset.sum_add_distrib]
        refine Finset.sum_eq_zero fun j hj => ?_
        by_contra hne
        exact hwork ⟨j, hj, Nat.pos_of_ne_zero hne⟩
      show ∑ j ∈ upTo s i, pending s j (n + 1) = _
      omega

end HfRisc.Rt
