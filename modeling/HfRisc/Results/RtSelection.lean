import HfRisc.Rt.Budget
import HfRisc.Rt.Workload
import Mathlib.Algebra.Order.BigOperators.Group.Finset
import Mathlib.Order.Bounds.Basic

/-!
# Which task `rt_context_switch` selects

A selected task has the smallest period among those with budget left, over every run and
for all that `rt_add_task` lets through (`rt_priority`). What is not so for all of it:
`rt_add_task` (rt.c 158-182) tests the capacity for zero only, and a negative one is never
reached by `executed`, so that the task is not stopped.

Tasks with distinct periods whose response times under rate-monotonic priorities are
within their periods are selected for exactly their capacity in every window of their
period (`rt_schedulable`). The response time bounds the age of pending work of the tasks up
to a period (`Lib.Served.recent`), so that a task has none left when its period ends.
-/

namespace HfRisc.Results

open HfRisc.Rt HfRisc.Rt.Sched

variable {φ : Type} {r : Registry φ}

/-! ## Priority and budget -/

/-- If a task is selected, those with a smaller period are blocked or have used their
capacity. -/
def Priority (s : Sched φ) : Prop :=
  ∀ (k : ℕ) (u : RtTask φ), s.running = some k → s.tasks[k]? = some u →
    ∀ t ∈ s.tasks, t.state ≠ .blocked → t.period < u.period → t.executed = t.capacity

theorem priority_contextSwitch {s : Sched φ} (h : s.Valid) : Priority s.contextSwitch := by
  intro k u hk hu t' ht' hb hlt
  have hsw := contextSwitch_spec h
  obtain ⟨j, hj⟩ := List.mem_iff_getElem?.mp ht'
  obtain ⟨t, ht, hsame⟩ := hsw.same hj
  obtain ⟨v, hv, hsame'⟩ := hsw.same hu
  have hne : s.contextSwitch.running ≠ some j := by
    intro hrun
    obtain rfl : k = j := Option.some.inj (hk.symm.trans hrun)
    obtain rfl : u = t' := Option.some.inj (hu.symm.trans hj)
    exact lt_irrefl _ hlt
  have htask := hsw.tasks j
  rw [hj, ht, Option.map_some, if_neg hne, Option.some_inj] at htask
  rcases settle_cases h ht with helig | hblocked | ⟨-, hfull⟩
  · -- An eligible task with a smaller period would have been selected.
    have hleast := hsw.picks.least j t ht helig
    rw [hk] at hleast
    obtain ⟨w, hw, hle⟩ := hleast
    obtain rfl : v = w := Option.some.inj (hv.symm.trans hw)
    rw [← hsame.period, ← hsame'.period] at hle
    exact absurd hlt (not_lt.mpr hle)
  · exact absurd (htask ▸ hblocked) hb
  · rw [htask, hfull, settle_capacity]

/-- The start of a run with nothing executed. -/
theorem fresh_start (h : Registered r) (hzero : ∀ t ∈ r.tasks, t.executed = 0) (f : φ)
    (deadline executed : ℤ) : Fresh (start r.tasks f deadline executed) where
  valid := valid_start h.accepted f deadline executed
  time := rfl
  idle := rfl
  executed := hzero

/-- After every switch the selection is rate monotonic, and no task is ever selected for
more than its capacity in one window of its period: this holds if and only if
`rt_add_task` was given positive capacities. -/
theorem rt_priority (h : Registered r) (hzero : ∀ t ∈ r.tasks, t.executed = 0) (f : φ)
    (deadline executed : ℤ) :
    ((∀ n < 2147483647, Priority ((start r.tasks f deadline executed).run (n + 1))) ∧
      ∀ (j : ℕ) (t : RtTask φ), r.tasks[j]? = some t → ∀ (k : ℤ) (N : ℕ), N ≤ 2147483647 →
        (ticks (start r.tasks f deadline executed) j k t.period N : ℤ) ≤ t.capacity) ↔
      ∀ t ∈ r.tasks, 0 < t.capacity := by
  have hfresh := fresh_start h hzero f deadline executed
  constructor
  · rintro ⟨-, hbudget⟩ t ht
    obtain ⟨j, hj⟩ := List.mem_iff_getElem?.mp ht
    -- Before the run nothing is selected, which is within the capacity if it is not negative.
    have hnonneg : (0 : ℤ) ≤ t.capacity := hbudget j t hj 0 0 (by omega)
    exact lt_of_le_of_ne hnonneg (Ne.symm (h.accepted _ ht).capacity)
  · intro hpos
    refine ⟨fun n _ => priority_contextSwitch (hfresh.valid.run n), fun j t ht k N hN => ?_⟩
    exact hfresh.ticks_le hpos (fun u hu => (h.accepted _ hu).fits) ht k hN

/-- A registry with one task, of period 5. -/
def oneTask (capacity : ℤ) : Registry Unit :=
  (addTask create () 5 capacity 0 "1" .ready 0 false).1

theorem registered_oneTask (capacity : ℤ) : Registered (oneTask capacity) :=
  Registered.init.add () 5 capacity 0 "1" .ready 0 false

theorem rt_priority_one :
    (∀ t ∈ (oneTask 2).tasks, t.executed = 0) ∧
      ((∀ n < 2147483647, Priority ((start (oneTask 2).tasks () 0 0).run (n + 1))) ∧
        ∀ (j : ℕ) (t : RtTask Unit), (oneTask 2).tasks[j]? = some t → ∀ (k : ℤ) (N : ℕ),
          N ≤ 2147483647 →
            (ticks (start (oneTask 2).tasks () 0 0) j k t.period N : ℤ) ≤ t.capacity) :=
  ⟨by decide, (rt_priority (registered_oneTask 2) (by decide) () 0 0).mpr (by decide)⟩

/-- With capacity -1 the task runs for the five ticks of its first window. -/
theorem rt_priority_negative :
    Registered (oneTask (-1)) ∧ (∀ t ∈ (oneTask (-1)).tasks, t.executed = 0) ∧
      ∃ t, (oneTask (-1)).tasks[0]? = some t ∧ t.period = 5 ∧ t.capacity = -1 ∧
        ticks (start (oneTask (-1)).tasks () 0 0) 0 0 5 5 = 5 ∧
        ¬ (ticks (start (oneTask (-1)).tasks () 0 0) 0 0 5 5 : ℤ) ≤ t.capacity :=
  ⟨registered_oneTask (-1), by decide, _, rfl, rfl, rfl, by decide +kernel, by decide +kernel⟩

/-! ## Schedulable tasks get their capacity -/

variable {s : Sched φ}

/-- The right side of the response-time equation of task `i`: its capacity, and what the
tasks with smaller periods are given in `R` ticks. -/
def response (tasks : List (RtTask φ)) (i : Fin tasks.length) (R : ℕ) : ℕ :=
  tasks[i].capacity.toNat +
    ∑ j : Fin tasks.length with tasks[j].period < tasks[i].period,
      (R ⌈/⌉ tasks[j].period.toNat) * tasks[j].capacity.toNat

/-- What arrives in `L` ticks for the tasks up to the period of `i`. -/
theorem sum_arrival_le (h : Prepared s) (i : Fin s.tasks.length) (a L : ℕ) :
    ∑ n ∈ Finset.Ico a (a + L), ∑ j ∈ upTo s i, arrival s j n ≤
      ∑ j ∈ upTo s i, (L ⌈/⌉ (s.tasks.get j).period.toNat) * (s.tasks.get j).capacity.toNat := by
  rw [Finset.sum_comm]
  refine Finset.sum_le_sum fun j _ => ?_
  have hperiod := h.positive _ (List.getElem_mem j.isLt)
  have hpos : 0 < s.tasks[j].period.toNat := by
    show 0 < s.tasks[(j : ℕ)].period.toNat
    omega
  exact (Finset.sum_le_sum fun n _ => arrival_le s j n).trans (Lib.sum_periodic_le hpos _ a L)

/-- With distinct periods, a response time within the period covers all of it. -/
theorem sum_response (hdistinct : (s.tasks.map (·.period)).Nodup)
    (i : Fin s.tasks.length) {R : ℕ} (hR : 0 < R) (hle : R ≤ s.tasks[i].period.toNat) :
    ∑ j ∈ upTo s i, (R ⌈/⌉ s.tasks[j].period.toNat) * s.tasks[j].capacity.toNat =
      response s.tasks i R := by
  have hsplit : upTo s i =
      insert i (Finset.univ.filter fun j => s.tasks[j].period < s.tasks[i].period) := by
    ext j
    rw [upTo, Finset.mem_filter, Finset.mem_insert, Finset.mem_filter, le_iff_lt_or_eq]
    constructor
    · rintro ⟨-, hlt | heq⟩
      · exact .inr ⟨Finset.mem_univ j, hlt⟩
      · have hj : (j : ℕ) < (s.tasks.map (·.period)).length := by simp
        have hi : (i : ℕ) < (s.tasks.map (·.period)).length := by simp
        have hperiods : (s.tasks.map (·.period))[(j : ℕ)] = (s.tasks.map (·.period))[(i : ℕ)] := by
          rw [List.getElem_map, List.getElem_map]
          exact heq
        exact .inl (Fin.ext (hdistinct.getElem_inj_iff.mp hperiods))
    · rintro (rfl | ⟨-, hlt⟩)
      · exact ⟨Finset.mem_univ j, .inr rfl⟩
      · exact ⟨Finset.mem_univ j, .inl hlt⟩
  have hone : R ⌈/⌉ s.tasks[i].period.toNat = 1 := by
    rw [Nat.ceilDiv_eq_add_pred_div]
    exact Nat.div_eq_of_lt_le (by omega) (by omega)
  rw [hsplit, Finset.sum_insert (by simp), hone, Nat.one_mul, response]

/-- At the end of each of its periods a task has no budget left. -/
theorem pending_period (h : Prepared s) (hdistinct : (s.tasks.map (·.period)).Nodup)
    (i : Fin s.tasks.length) {R : ℕ} (hR : response s.tasks i R = R)
    (hle : R ≤ s.tasks[i].period.toNat) (k : ℕ)
    (hk : (k + 1) * s.tasks[i].period.toNat ≤ 2147483647) :
    pending s i ((k + 1) * s.tasks[i].period.toNat) = 0 := by
  have hcap := h.capacity _ (List.getElem_mem i.isLt)
  set T := s.tasks[i].period.toNat with hT
  have hmem : i ∈ upTo s i := by simp [upTo]
  have hpos : 0 < R := by
    rw [← hR, response]
    show 0 < s.tasks[(i : ℕ)].capacity.toNat + _
    omega
  have hmul : (k + 1) * T = k * T + T := Nat.succ_mul k T
  by_contra hne
  have hwork : 0 < ∑ j ∈ upTo s i, pending s j ((k + 1) * T) :=
    Finset.sum_pos_iff.mpr ⟨i, hmem, Nat.pos_of_ne_zero hne⟩
  obtain ⟨a, hat, hzero, hlate⟩ := (h.served i).recent (sum_arrival_le h i) hpos
    ((sum_response hdistinct i hpos hle).trans hR).le hk hwork
  have hnone : pending s i a = 0 := Finset.sum_eq_zero_iff.mp hzero i hmem
  -- Nothing is handed out again before the period ends.
  have hstays : ∀ n, a ≤ n → n ≤ (k + 1) * T → pending s i n = 0 := by
    intro n han
    induction n, han using Nat.le_induction with
    | base => exact fun _ => hnone
    | succ n han ih =>
      intro hn
      have hprev := ih (by omega)
      have harr : arrival s i n = 0 := by
        rw [arrival, if_neg]
        rintro (rfl | ⟨-, hdvd⟩)
        · omega
        · obtain ⟨q, rfl⟩ := hdvd
          rw [← hT, Nat.mul_comm T q] at han hn
          have hkq : k * T < q * T := by omega
          have hqk : q * T < (k + 1) * T := by omega
          have hkq' := Nat.lt_of_mul_lt_mul_right hkq
          have hqk' := Nat.lt_of_mul_lt_mul_right hqk
          omega
      have hserve := h.pending_succ (n := n) (by omega) i
      omega
  exact hne (hstays _ hat.le (le_refl _))

/-- A task whose response time is within its period gets its capacity in each window. -/
theorem selections_period (h : Prepared s) (hdistinct : (s.tasks.map (·.period)).Nodup)
    (i : Fin s.tasks.length) {R T : ℕ} (hR : response s.tasks i R = R) (hle : R ≤ T)
    (hT : s.tasks[i].period = T) (k : ℕ) (hk : (k + 1) * T ≤ 2147483647) :
    (selections s i (k * T) ((k + 1) * T) : ℤ) = s.tasks[i].capacity := by
  have hmem : s.tasks[i] ∈ s.tasks := List.getElem_mem i.isLt
  have hpos := h.positive _ hmem
  have hcap := h.capacity _ hmem
  have hT' : s.tasks[i].period.toNat = T := by rw [hT, Int.toNat_natCast]
  have hmul : (k + 1) * T = k * T + T := Nat.succ_mul k T
  have hends : ∀ m ≤ k, pending s i ((m + 1) * T) = 0 := by
    intro m hm
    have hmk : (m + 1) * T ≤ 2147483647 := (Nat.mul_le_mul_right T (by omega)).trans hk
    rw [← hT'] at hmk hle ⊢
    exact pending_period h hdistinct i hR hle m hmk
  -- The window begins with the whole budget, and ends with none of it.
  have hbegin : pending s i (k * T) + arrival s i (k * T) = s.tasks[i].capacity.toNat := by
    have hnone : pending s i (k * T) = 0 := by
      cases k with
      | zero => rw [Nat.zero_mul, pending, if_pos rfl]
      | succ k => exact hends k (Nat.le_succ k)
    rw [hnone, Nat.zero_add, arrival, if_pos]
    exact .inr ⟨hnone, hT' ▸ Dvd.intro_left k rfl⟩
  have hend := hends k (le_refl k)
  obtain ⟨hu, hsame⟩ := h.fresh.valid.taskAt (k * T) i
  obtain ⟨hv, hsame'⟩ := h.fresh.valid.taskAt ((k + 1) * T) i
  have hexec := h.fresh.executed_window h.capacity hu (hsame.period.trans hT) (by omega)
    (le_refl _) hk hv
  rw [h.left (by omega) i, hbegin] at hexec
  rw [pending, if_neg (by omega), hsame'.capacity] at hend
  have hlast := (h.fresh.budget h.capacity hk hv).le
  rw [hsame'.capacity] at hlast
  omega

/-- Schedulable tasks are selected for exactly their capacity in every window of their
period. -/
theorem rt_schedulable {r : Registry φ} (h : Registered r)
    (hready : ∀ t ∈ r.tasks, t.state = .ready) (hdistinct : (r.tasks.map (·.period)).Nodup)
    (hperiod : ∀ t ∈ r.tasks, 0 < t.period ∧ t.period < 65535)
    (hcapacity : ∀ t ∈ r.tasks, 0 < t.capacity) (hzero : ∀ t ∈ r.tasks, t.executed = 0)
    (hresponse : ∀ i : Fin r.tasks.length,
      ∃ R, IsLeast {R | response r.tasks i R = R} R ∧ R ≤ r.tasks[i].period)
    (f : φ) (deadline executed : ℤ) (i : Fin r.tasks.length) (k : ℕ)
    (hk : (k + 1) * r.tasks[i].period ≤ 2147483647) :
    (selections (start r.tasks f deadline executed) i (k * r.tasks[i].period.toNat)
      ((k + 1) * r.tasks[i].period.toNat) : ℤ) = r.tasks[i].capacity := by
  have hprep : Prepared (start r.tasks f deadline executed) :=
    ⟨fresh_start h hzero f deadline executed, hready, hcapacity,
      fun t ht => (hperiod t ht).1, fun t ht => (hperiod t ht).2⟩
  obtain ⟨T, hT⟩ := Int.eq_ofNat_of_zero_le (hperiod _ (List.getElem_mem i.isLt)).1.le
  obtain ⟨R, ⟨hR, -⟩, hle⟩ := hresponse i
  change r.tasks[i].period = T at hT
  rw [hT] at hk hle
  rw [hT, Int.toNat_natCast]
  exact selections_period hprep hdistinct i hR (by exact_mod_cast hle) hT k (by exact_mod_cast hk)

/-- Two tasks, of periods 5 and 10. -/
def twoTasks : Registry Unit :=
  (addTask (addTask create () 5 2 0 "1" .ready 0 false).1 () 10 3 0 "2" .ready 0 false).1

theorem registered_twoTasks : Registered twoTasks :=
  (Registered.init.add () 5 2 0 "1" .ready 0 false).add () 10 3 0 "2" .ready 0 false

theorem isLeast_response {tasks : List (RtTask φ)} {i : Fin tasks.length} {R : ℕ}
    (hR : response tasks i R = R) (hsmaller : ∀ r < R, response tasks i r ≠ r) :
    IsLeast {R | response tasks i R = R} R :=
  ⟨hR, fun r hr => not_lt.mp fun hlt => hsmaller r hlt hr⟩

theorem rt_schedulable_two :
    (selections (start twoTasks.tasks () 0 0) 1 10 20 : ℤ) = 3 :=
  rt_schedulable registered_twoTasks (by decide) (by decide) (by decide) (by decide) (by decide)
    (Fin.forall_fin_two.mpr ⟨⟨2, isLeast_response (by decide) (by decide), by decide⟩,
      ⟨5, isLeast_response (by decide) (by decide), by decide⟩⟩)
    () 0 0 ⟨1, by decide⟩ 1 (by decide)

end HfRisc.Results
