import HfRisc.Results.RtSelection
import HfRisc.Results.RtWrap

/-!
# Work conservation

A scheduler conserves work if it selects idle only when every task is blocked or has used its
whole capacity in its current period (`WorkConserving`). `rt_context_switch` (rt.c 52-100) fails
to in three ways. Idle competes with its own period of 65535, so that a task with that period or
a longer one never wins against it. A negative capacity, which `rt_add_task` lets through, is
never used up. And the loop releases a task at a multiple of its period only if it is DONE: one
that comes to it with a part of its capacity used goes on with the rest, and is done with less
than its capacity in the period that has begun (`rt_work_conserving`).
-/

namespace HfRisc.Results

open HfRisc.Rt HfRisc.Rt.Sched

variable {φ : Type} {s : Sched φ}

/-! ## Periods -/

/-- The call that began the current period of a task: the last one, up to call `n`, that found
`rt_time` at a multiple of it. -/
def begun (s : Sched φ) (period : ℤ) (n : ℕ) : ℕ :=
  Nat.findGreatest (fun m => (s.run m).time.tmod period = 0) n

theorem begun_le (s : Sched φ) (period : ℤ) (n : ℕ) : begun s period n ≤ n :=
  Nat.findGreatest_le n

theorem begun_multiple (htime : s.time = 0) (period : ℤ) (n : ℕ) :
    (s.run (begun s period n)).time.tmod period = 0 := by
  refine Nat.findGreatest_spec (P := fun m => (s.run m).time.tmod period = 0) (Nat.zero_le n) ?_
  show s.time.tmod period = 0
  rw [htime, Int.zero_tmod]

theorem not_multiple {period : ℤ} {n m : ℕ} (hlo : begun s period n < m) (hhi : m ≤ n) :
    ¬ (s.run m).time.tmod period = 0 :=
  Nat.findGreatest_is_greatest hlo hhi

/-- Where the clock wraps around, a multiple of the period comes before two periods are over. -/
theorem exists_multiple {p : ℤ} (hpos : 0 < p) (hlt : p < 65535) (m : ℕ) (hm : p ∣ wrap32 m) :
    ∃ i : ℕ, 0 < i ∧ i ≤ 131070 ∧ p ∣ wrap32 (m + i : ℕ) := by
  have hint : IsInt (wrap32 m) := by
    rw [IsInt, wrap32]
    omega
  obtain ⟨hlo, hhi⟩ := hint
  by_cases hnext : wrap32 m + p ≤ 2147483647
  · refine ⟨p.toNat, by omega, by omega, ?_⟩
    have heq : wrap32 (m + p.toNat : ℕ) = wrap32 m + p := by
      push_cast
      rw [Int.toNat_of_nonneg hpos.le]
      rw [wrap32] at hnext hlo ⊢
      rw [wrap32]
      omega
    rw [heq]
    exact Int.dvd_add hm (Int.dvd_refl p)
  · -- the first multiple from -2^31 on
    have hdiv := Int.mul_ediv_add_emod 2147483648 p
    have hmod := Int.emod_lt_of_pos 2147483648 hpos
    have hmod' := Int.emod_nonneg 2147483648 hpos.ne'
    set y := p * (2147483648 / p) with hy
    refine ⟨(4294967296 - y - wrap32 m).toNat, by omega, by omega, ?_⟩
    have heq : wrap32 (m + (4294967296 - y - wrap32 m).toNat : ℕ) = -y := by
      push_cast
      rw [Int.toNat_of_nonneg (by omega)]
      rw [wrap32] at hnext hlo ⊢
      rw [wrap32]
      omega
    rw [heq, Int.dvd_neg]
    exact Int.dvd_mul_right p _

/-- A period begins at most 131070 calls ago. -/
theorem lt_begun_add (h : s.Valid) (htime : s.time = 0) {p : ℤ} (hpos : 0 < p) (hlt : p < 65535)
    (n : ℕ) : n < begun s p n + 131070 := by
  by_contra hge
  have hm := begun_multiple htime p n
  rw [← Int.dvd_iff_tmod_eq_zero, run_wrap h htime] at hm
  obtain ⟨i, hi, hle, hdvd⟩ := exists_multiple hpos hlt _ hm
  have hnot : ¬ (s.run (begun s p n + i)).time.tmod p = 0 :=
    not_multiple (n := n) (by omega) (by omega)
  rw [← Int.dvd_iff_tmod_eq_zero, run_wrap h htime] at hnot
  exact hnot hdvd

/-! ## Ticks in a period -/

/-- `++`, `k` times. -/
def incs (x : ℤ) : ℕ → ℤ
  | 0 => x
  | k + 1 => inc (incs x k)

theorem incs_le (x : ℤ) (k : ℕ) : incs x k ≤ x + k := by
  induction k with
  | zero => exact (add_zero x).ge
  | succ k ih =>
    have hstep : inc (incs x k) ≤ incs x k + 1 := by
      rw [inc]
      split <;> omega
    rw [incs]
    push_cast
    omega

/-- Up to 2^31 steps lead from a positive number to a positive one only without overflow. -/
theorem incs_eq {x : ℤ} {k : ℕ} (hx : 0 < x) (hk : k ≤ 2147483648) (h : 0 < incs x k) :
    incs x k = x + k := by
  by_cases hint : x ≤ 2147483647
  · have hwrap : ∀ k, incs x k = wrap32 (x + k : ℤ) := by
      intro k
      induction k with
      | zero =>
        rw [Nat.cast_zero, add_zero, wrap32_of_isInt ⟨by omega, hint⟩]
        rfl
      | succ k ih =>
        rw [incs, ih, inc_wrap32, add_assoc]
        rfl
    rw [hwrap, wrap32] at h ⊢
    omega
  · have hfar : ∀ k : ℕ, incs x k = x + k := by
      intro k
      induction k with
      | zero => exact (add_zero x).symm
      | succ k ih =>
        rw [incs, ih, inc, if_neg (by omega)]
        push_cast
        omega
    exact hfar k

/-- Between the multiples of its period a task has executed what it had when the period began
and its selections since. -/
theorem executed_since (h : s.Valid) {j m : ℕ} {u : RtTask φ} (hu : (s.run m).tasks[j]? = some u)
    {n : ℕ} (hmn : m ≤ n)
    (hnot : ∀ i, m < i → i ≤ n → ¬ (s.run i).time.tmod u.period = 0) {v : RtTask φ}
    (hv : (s.run n).tasks[j]? = some v) :
    ((s.run n).settle j v).executed =
      incs ((s.run m).settle j u).executed (selections s j m n) := by
  induction n, hmn using Nat.le_induction generalizing v with
  | base =>
    obtain rfl : u = v := Option.some.inj (hu.symm.trans hv)
    rw [selections_self]
    rfl
  | succ n hmn ih =>
    have hsw := contextSwitch_spec (h.run n)
    obtain ⟨w, hw, hsame⟩ := hsw.same hv
    have hprev := ih (fun i hi hin => hnot i hi (by omega)) hw
    have hperiod : v.period = u.period := by
      obtain ⟨t, ht, hsame₁⟩ := h.same_run m hu
      obtain ⟨t', ht', hsame₂⟩ := h.same_run (n + 1) hv
      obtain rfl : t = t' := Option.some.inj (ht.symm.trans ht')
      exact hsame₂.period.trans hsame₁.period.symm
    rw [settle_executed (by rw [hperiod]; exact hnot (n + 1) (by omega) (le_refl _)),
      selections_succ s j hmn]
    have htask := hsw.tasks j
    change (s.run n).contextSwitch.tasks[j]? = some v at hv
    rw [hv, hw, Option.map_some, Option.some_inj] at htask
    by_cases hsel : selects s j n
    · have hsel' : (s.run n).contextSwitch.running = some j := hsel
      rw [htask, if_pos hsel', if_pos hsel, incs, ← hprev]
      rfl
    · have hsel' : ¬ (s.run n).contextSwitch.running = some j := hsel
      rw [htask, if_neg hsel', if_neg hsel, add_zero, hprev]

theorem selections_le (s : Sched φ) (j m n : ℕ) : selections s j m n ≤ n - m := by
  rw [selections, ← Nat.card_Ico m n]
  exact Finset.card_filter_le _ _

/-! ## Who is blocked, and who never wins -/

/-- A task is blocked as long as it was when the run began. -/
theorem blocked_run (h : s.Valid) {j n : ℕ} {t t' : RtTask φ} (ht : s.tasks[j]? = some t)
    (ht' : (s.run n).tasks[j]? = some t') : t'.state = .blocked ↔ t.state = .blocked := by
  induction n generalizing t' with
  | zero =>
    obtain rfl : t = t' := Option.some.inj (ht.symm.trans ht')
    rfl
  | succ n ih =>
    have hv := h.run n
    have hsw := contextSwitch_spec hv
    obtain ⟨u, hu, -⟩ := hsw.same ht'
    rw [← ih hu]
    have htask := hsw.tasks j
    change (s.run n).contextSwitch.tasks[j]? = some t' at ht'
    rw [ht', hu, Option.map_some, Option.some_inj] at htask
    constructor
    · intro hb
      by_contra hnot
      rw [htask] at hb
      split_ifs at hb
      · cases hb
      · exact settle_not_blocked hnot hb
    · intro hb
      -- A blocked task neither runs nor is selected.
      have hrunning : (s.run n).running ≠ some j := by
        intro hrun
        obtain ⟨v, hv', hstate, -⟩ := hv.running j hrun
        obtain rfl : u = v := Option.some.inj (hu.symm.trans hv')
        rw [hb] at hstate
        cases hstate
      have hsettle : (s.run n).settle j u = u := by
        rw [settle, if_neg fun hfull => hrunning hfull.1,
          RtTask.release_of_not_done (by rw [hb]; decide)]
      have hselected : (s.run n).contextSwitch.running ≠ some j := by
        intro hrun
        obtain ⟨v, hv', helig, -⟩ := hsw.picks.eligible j hrun
        obtain rfl : u = v := Option.some.inj (hu.symm.trans hv')
        rw [hsettle] at helig
        exact helig.1 hb
      rw [htask, if_neg hselected, hsettle]
      exact hb

/-- A task whose period is not below that of idle is never selected. -/
theorem selections_of_long (h : s.Valid) {j : ℕ} {t : RtTask φ} (ht : s.tasks[j]? = some t)
    (hlong : 65535 ≤ t.period) (m n : ℕ) : selections s j m n = 0 := by
  refine Finset.card_eq_zero.mpr (Finset.filter_eq_empty_iff.mpr fun i _ hsel => ?_)
  obtain ⟨u, hu, -, hlt⟩ := (h.run (i + 1)).running j hsel
  obtain ⟨t', ht', hsame⟩ := h.same_run (i + 1) hu
  obtain rfl : t = t' := Option.some.inj (ht.symm.trans ht')
  rw [hsame.period] at hlt
  exact absurd hlong (not_le.mpr hlt)

/-! ## Idle -/

/-- The calls since the current period of the task began, up to call `n`, have selected it for its
whole capacity. A capacity below zero is never used up. -/
def UsedUp (s : Sched φ) (n j : ℕ) (t : RtTask φ) : Prop :=
  0 < t.capacity ∧ t.capacity ≤ selections s j (begun s t.period n) n

instance (s : Sched φ) (n j : ℕ) (t : RtTask φ) : Decidable (UsedUp s n j t) :=
  inferInstanceAs (Decidable (_ ∧ _))

/-- If call `n` selects idle, every task is blocked or has used its whole capacity in its current
period. -/
def WorkConserving (s : Sched φ) (n : ℕ) : Prop :=
  (s.run (n + 1)).running = none →
    ∀ (j : ℕ) (t : RtTask φ), (s.run (n + 1)).tasks[j]? = some t →
      t.state = .blocked ∨ UsedUp s n j t

/-- The call finds the task done, or about to be, or with nothing executed: at a multiple of its
period the task has its whole capacity afterwards. -/
def Renewed (s : Sched φ) (j : ℕ) (t : RtTask φ) : Prop := DoneAt s j t ∨ t.executed ≤ 0

instance (s : Sched φ) (j : ℕ) (t : RtTask φ) : Decidable (Renewed s j t) :=
  inferInstanceAs (Decidable ((_ ∨ _ ∧ _) ∨ _))

theorem settle_executed_nonpos {j : ℕ} {t : RtTask φ} (hmul : s.time.tmod t.period = 0) :
    (s.settle j t).executed ≤ 0 ↔ Renewed s j t := by
  rw [settle, RtTask.release, Renewed, DoneAt]
  by_cases hfull : s.running = some j ∧ t.executed = t.capacity
  · rw [if_pos hfull, if_pos ⟨rfl, hmul⟩]
    exact iff_of_true (le_refl _) (.inl (.inr hfull))
  · rw [if_neg hfull]
    by_cases hdone : t.state = .done
    · rw [if_pos ⟨hdone, hmul⟩]
      exact iff_of_true (le_refl _) (.inl (.inl hdone))
    · rw [if_neg fun h => hdone h.1]
      tauto

/-- A task that is not blocked when idle is selected has used its capacity in its current period
if and only if it could win against idle, its capacity is positive, and it was renewed when its
period began. -/
theorem usedUp_iff (h : s.Valid) (htime : s.time = 0) {n j : ℕ} {t : RtTask φ}
    (ht : s.tasks[j]? = some t) (hfits : t.capacity ≤ t.period) (hready : t.state ≠ .blocked)
    (hidle : (s.run (n + 1)).running = none) :
    UsedUp s n j t ↔ t.period < 65535 ∧ 0 < t.capacity ∧
      ∀ u, (s.run (begun s t.period n)).tasks[j]? = some u →
        Renewed (s.run (begun s t.period n)) j u := by
  obtain ⟨u, hu, hsame⟩ := h.exists_run (begun s t.period n) ht
  obtain ⟨v, hv, hsame'⟩ := h.exists_run n ht
  have hmul : (s.run (begun s t.period n)).time.tmod u.period = 0 := by
    rw [hsame.period]
    exact begun_multiple htime t.period n
  have hexec := executed_since h hu (begun_le s t.period n) (fun i hi hin => by
    rw [hsame.period]
    exact not_multiple hi hin) hv
  -- Idle wins only if the task has used what was left of its capacity.
  have hleft : t.period < 65535 → ((s.run n).settle j v).executed = t.capacity := by
    intro hlt
    rcases settle_cases (h.run n) hv with helig | hblocked | ⟨-, hfull⟩
    · have hleast := (contextSwitch_spec (h.run n)).picks.least j v hv helig
      change (s.run n).contextSwitch.running = none at hidle
      rw [hidle] at hleast
      rw [hsame'.period] at hleast
      exact absurd hlt (not_lt.mpr hleast)
    · refine absurd hblocked (settle_not_blocked fun hb => hready ?_)
      exact (blocked_run h ht hv).mp hb
    · exact hfull.trans hsame'.capacity
  constructor
  · rintro ⟨hpos, hused⟩
    have hlt : t.period < 65535 := by
      by_contra hlong
      rw [selections_of_long h ht (not_lt.mp hlong)] at hused
      exact absurd hpos (not_lt.mpr hused)
    refine ⟨hlt, hpos, fun w hw => ?_⟩
    obtain rfl : u = w := Option.some.inj (hu.symm.trans hw)
    rw [← settle_executed_nonpos hmul]
    by_contra hnot
    have hwindow := lt_begun_add h htime (hpos.trans_le hfits) hlt n
    have hcount := selections_le s j (begun s t.period n) n
    rw [hleft hlt] at hexec
    have hsum := incs_eq (k := selections s j (begun s t.period n) n) (not_le.mp hnot) (by omega)
      (by rw [← hexec]; exact hpos)
    omega
  · rintro ⟨hlt, hpos, hrenewed⟩
    have hzero := (settle_executed_nonpos hmul).mpr (hrenewed u hu)
    have hle := incs_le ((s.run (begun s t.period n)).settle j u).executed
      (selections s j (begun s t.period n) n)
    rw [← hexec, hleft hlt] at hle
    exact ⟨hpos, by omega⟩

/-- A call that selects idle finds every task blocked or with its capacity used in its current
period, if and only if each task was registered as blocked, or has a positive capacity and a
period below that of idle and was renewed when its current period began. -/
theorem rt_work_conserving {tasks : List (RtTask φ)} (h : ∀ t ∈ tasks, t.Accepted) (f : φ)
    (deadline executed : ℤ) (n : ℕ)
    (hidle : ((start tasks f deadline executed).run (n + 1)).running = none) :
    WorkConserving (start tasks f deadline executed) n ↔
      ∀ (j : ℕ) (t : RtTask φ), tasks[j]? = some t → t.state = .blocked ∨
        t.period < 65535 ∧ 0 < t.capacity ∧
          ∀ u, ((start tasks f deadline executed).run
              (begun (start tasks f deadline executed) t.period n)).tasks[j]? = some u →
            Renewed ((start tasks f deadline executed).run
              (begun (start tasks f deadline executed) t.period n)) j u := by
  have hv := valid_start h f deadline executed
  set s := start tasks f deadline executed with hs
  have htask : ∀ {j : ℕ} {t t' : RtTask φ}, tasks[j]? = some t →
      (s.run (n + 1)).tasks[j]? = some t' → t.state ≠ .blocked →
      (UsedUp s n j t' ↔ t.period < 65535 ∧ 0 < t.capacity ∧
        ∀ u, (s.run (begun s t.period n)).tasks[j]? = some u →
          Renewed (s.run (begun s t.period n)) j u) := by
    intro j t t' ht ht' hready
    obtain ⟨w, hw, hsame⟩ := hv.same_run (n + 1) ht'
    obtain rfl : t = w := Option.some.inj (ht.symm.trans hw)
    rw [UsedUp, hsame.capacity, hsame.period]
    exact usedUp_iff hv rfl ht (h t (List.mem_of_getElem? ht)).fits hready hidle
  constructor
  · intro hall j t ht
    obtain ⟨t', ht', -⟩ := hv.exists_run (n + 1) ht
    by_cases hb : t.state = .blocked
    · exact .inl hb
    · rcases hall hidle j t' ht' with hb' | hused
      · exact absurd ((blocked_run hv ht ht').mp hb') hb
      · exact .inr ((htask ht ht' hb).mp hused)
  · intro hall _ j t' ht'
    obtain ⟨t, ht, -⟩ := hv.same_run (n + 1) ht'
    by_cases hb : t.state = .blocked
    · exact .inl ((blocked_run hv ht ht').mpr hb)
    · exact .inr ((htask ht ht' hb).mpr ((hall j t ht).resolve_left hb))

/-- With periods 5 and 10, idle is selected at tick 7: the first task has had its 2 ticks since
tick 5, and the second one its 3 since tick 0. -/
theorem rt_work_conserving_two :
    ((start twoTasks.tasks () 0 0).run 8).running = none ∧
      WorkConserving (start twoTasks.tasks () 0 0) 7 := by
  refine ⟨by decide +kernel, ?_⟩
  refine (rt_work_conserving (fun _ => registered_twoTasks.accepted _) () 0 0 7
    (by decide +kernel)).mpr fun j t ht => .inr ?_
  match j, ht with
  | 0, ht =>
    obtain rfl := Option.some.inj ht
    refine ⟨by decide, by decide, fun u hu => ?_⟩
    obtain rfl := Option.some.inj ((List.getElem?_eq_getElem (by decide +kernel)).symm.trans hu)
    decide +kernel
  | 1, ht =>
    obtain rfl := Option.some.inj ht
    refine ⟨by decide, by decide, fun u hu => ?_⟩
    obtain rfl := Option.some.inj ((List.getElem?_eq_getElem (by decide +kernel)).symm.trans hu)
    decide +kernel

/-- Two tasks, of periods 4 and 6, with capacities 2 and 3. -/
def fourSix : Registry Unit :=
  (addTask (addTask create () 4 2 0 "1" .ready 0 false).1 () 6 3 0 "2" .ready 0 false).1

theorem registered_fourSix : Registered fourSix :=
  (Registered.init.add () 4 2 0 "1" .ready 0 false).add () 6 3 0 "2" .ready 0 false

/-- A registry with one task, of capacity 1. -/
def longTask (period : ℤ) : Registry Unit :=
  (addTask create () period 1 0 "1" .ready 0 false).1

theorem registered_longTask (period : ℤ) : Registered (longTask period) :=
  Registered.init.add () period 1 0 "1" .ready 0 false

theorem not_workConserving {j n : ℕ} {t : RtTask φ} (hidle : (s.run (n + 1)).running = none)
    (ht : (s.run (n + 1)).tasks[j]? = some t) (hready : t.state ≠ .blocked)
    (hleft : ¬ UsedUp s n j t) : ¬ WorkConserving s n :=
  fun h => (h hidle j t ht).elim hready hleft

/-- Idle is selected at tick 7 while the second of two tasks has had one of its 3 ticks since
tick 6, where it was not released; and it is selected before a ready task of period 65535 that
has had none. -/
theorem rt_work_conserving_carried :
    (∀ t ∈ fourSix.tasks, t.Accepted) ∧ ¬ WorkConserving (start fourSix.tasks () 0 0) 7 ∧
      (∀ t ∈ (longTask 65535).tasks, t.Accepted) ∧
      ¬ WorkConserving (start (longTask 65535).tasks () 0 0) 0 :=
  ⟨registered_fourSix.accepted,
    not_workConserving (by decide +kernel) (List.getElem?_eq_getElem (i := 1) (by decide +kernel))
      (by decide +kernel) (by decide +kernel),
    (registered_longTask 65535).accepted,
    not_workConserving (by decide +kernel) (List.getElem?_eq_getElem (i := 0) (by decide +kernel))
      (by decide +kernel) (by decide +kernel)⟩

end HfRisc.Results
