import HfRisc.Results.RtStale

/-!
# Releases and the clock

`rt_time` wraps around after 2^32 ticks, and a task is released where its period divides
what `rt_time` holds. So the releases are periodic for ever if and only if the period
divides 2^32, or no task of that period is ever done because it never comes before idle
(`rt_release`).
-/

namespace HfRisc.Results

open HfRisc.Rt HfRisc.Rt.Sched

variable {φ : Type} {s : Sched φ} {k : ℕ} {t : RtTask φ}

/-- The `int` that is left of a number. -/
def wrap32 (x : ℤ) : ℤ := (x + 2147483648) % 4294967296 - 2147483648

theorem wrap32_of_isInt {x : ℤ} (h : IsInt x) : wrap32 x = x := by
  obtain ⟨hlo, hhi⟩ := h
  rw [wrap32]
  omega

theorem inc_wrap32 (x : ℤ) : inc (wrap32 x) = wrap32 (x + 1) := by
  rw [inc, wrap32, wrap32]
  split <;> omega

/-- The clock after `n` switches. -/
theorem run_wrap (h : s.Valid) (htime : s.time = 0) (n : ℕ) : (s.run n).time = wrap32 n := by
  induction n with
  | zero => exact htime
  | succ n ih =>
    show (s.run n).contextSwitch.time = _
    rw [(contextSwitch_spec (h.run n)).time, ih, inc_wrap32]
    rfl

/-- A divisor of 2^32 does not see the wrap. -/
theorem dvd_wrap32 {p : ℤ} (hp : p ∣ 4294967296) (x : ℤ) : p ∣ wrap32 x ↔ p ∣ x := by
  have hmul : p ∣ 4294967296 * ((x + 2147483648) / 4294967296) := Dvd.dvd.mul_right hp _
  have heq : x = wrap32 x + 4294967296 * ((x + 2147483648) / 4294967296) := by
    rw [wrap32]
    omega
  constructor
  · intro h
    rw [heq]
    exact Int.dvd_add h hmul
  · intro h
    have hsub := Int.dvd_sub h hmul
    rwa [show x - 4294967296 * ((x + 2147483648) / 4294967296) = wrap32 x by omega] at hsub

/-! ## Releases -/

/-- The task is done when the loop looks at it. -/
def DoneAt (s : Sched φ) (j : ℕ) (t : RtTask φ) : Prop :=
  t.state = .done ∨ s.running = some j ∧ t.executed = t.capacity

/-- In every run, a done task with this period is released exactly at the ticks that are
multiples of it. -/
def Periodic (φ : Type) (p : ℤ) : Prop :=
  ∀ r : Registry φ, Registered r → ∀ (f : φ) (deadline executed : ℤ) (n j : ℕ) (t : RtTask φ),
    ((start r.tasks f deadline executed).run n).tasks[j]? = some t → t.period = p →
      DoneAt ((start r.tasks f deadline executed).run n) j t →
        ((((start r.tasks f deadline executed).run n).settle j t).state = .ready ↔ p ∣ (n : ℤ))

/-- A done task is released if its period divides the clock. -/
theorem settle_ready {j : ℕ} (h : DoneAt s j t) :
    (s.settle j t).state = .ready ↔ t.period ∣ s.time := by
  have hdone : ∀ u : RtTask φ, u.state = .done →
      ((u.release s.time).state = .ready ↔ u.period ∣ s.time) := by
    intro u hu
    rw [Int.dvd_iff_tmod_eq_zero, RtTask.release]
    by_cases hzero : s.time.tmod u.period = 0
    · rw [if_pos ⟨hu, hzero⟩]
      exact iff_of_true rfl hzero
    · rw [if_neg fun h => hzero h.2, hu]
      exact iff_of_false (by simp) hzero
  rw [settle]
  split
  · exact hdone _ rfl
  · rename_i hnot
    exact hdone t (h.resolve_right hnot)

/-- Only a task that comes before idle is ever done. -/
theorem period_lt (h : s.Valid) (hdone : ∀ t ∈ s.tasks, t.state ≠ .done) (n : ℕ) :
    ∀ t ∈ (s.run n).tasks, t.state = .done → t.period < 65535 := by
  induction n with
  | zero => exact fun t ht hd => absurd hd (hdone t ht)
  | succ n ih =>
    have hv := h.run n
    intro t' ht' hd
    obtain ⟨j, hj⟩ := List.mem_iff_getElem?.mp ht'
    have htask := (contextSwitch_spec hv).tasks j
    change (s.run n).contextSwitch.tasks[j]? = some t' at hj
    rw [hj] at htask
    obtain ⟨t, ht, heq⟩ := Option.map_eq_some_iff.mp htask.symm
    split at heq
    · rw [← heq] at hd
      cases hd
    · rw [← heq, settle_period]
      rw [← heq, settle] at hd
      by_cases hfull : (s.run n).running = some j ∧ t.executed = t.capacity
      · obtain ⟨u, hu, -, hlt⟩ := hv.running j hfull.1
        obtain rfl : t = u := Option.some.inj (ht.symm.trans hu)
        exact hlt
      · rw [if_neg hfull] at hd
        rcases t.release_cases (s.run n).time with ⟨hsame, -⟩ | ⟨hdone', -, -⟩
        · rw [hsame] at hd
          exact ih t (List.mem_of_getElem? ht) hd
        · exact ih t (List.mem_of_getElem? ht) hdone'

/-- A task whose memory held its capacity runs for 2^32 ticks before it is done. -/
theorem long_run (h : s.Valid) (hrun : s.running = none) (hts : Waiting s.tasks)
    (hfirst : First s.tasks k t 65535) (hint : IsInt t.capacity) (hexec : t.executed = t.capacity)
    {n : ℕ} (hn : n < 4294967296) :
    Alone s.tasks k t (s.run (n + 1)) ∧ ∃ u, (s.run (n + 1)).tasks[k]? = some u ∧
      u.capacity = t.capacity ∧ u.executed = wrap32 (t.capacity + (n + 1 : ℕ)) := by
  induction n with
  | zero =>
    obtain ⟨hnext, htask, hothers⟩ := first_switch h hrun hts hfirst
    refine ⟨⟨hnext, ⟨_, htask, rfl⟩, hothers⟩, _, htask, rfl, ?_⟩
    show inc t.executed = _
    have hinc := inc_wrap32 t.capacity
    rw [wrap32_of_isInt hint] at hinc
    rw [hexec, hinc]
    rfl
  | succ n ih =>
    obtain ⟨halone, u, hu, hcapacity, hexecuted⟩ := ih (Nat.lt_of_succ_lt hn)
    have hv := h.run (n + 1)
    have hne : u.executed ≠ u.capacity := by
      obtain ⟨hlo, hhi⟩ := hint
      rw [hexecuted, hcapacity, wrap32]
      omega
    have hnext := halone.go hv hts hfirst hu hne
    obtain ⟨v, hv', hstate, -⟩ := hv.running k halone.running
    obtain rfl : u = v := Option.some.inj (hu.symm.trans hv')
    have hsettle : (s.run (n + 1)).settle k u = u := by
      rw [settle, if_neg fun hfull => hne hfull.2,
        RtTask.release_of_not_done (by rw [hstate]; simp)]
    refine ⟨halone.next hv hts hnext, u.tick, ?_, hcapacity, ?_⟩
    · show (s.run (n + 1)).contextSwitch.tasks[k]? = _
      rw [(contextSwitch_spec hv).tasks, hu, Option.map_some, if_pos hnext, hsettle]
    · show inc u.executed = _
      rw [hexecuted, inc_wrap32]
      congr 1
      push_cast
      omega

/-- In 2^32 ticks the clock is back at 0, where the task is done and released. -/
theorem released_at_wrap (h : s.Valid) (hrun : s.running = none) (htime : s.time = 0)
    (hts : Waiting s.tasks) (hfirst : First s.tasks k t 65535) (hint : IsInt t.capacity)
    (hexec : t.executed = t.capacity) :
    ∃ u, (s.run 4294967296).tasks[k]? = some u ∧ u.period = t.period ∧
      DoneAt (s.run 4294967296) k u ∧ ((s.run 4294967296).settle k u).state = .ready := by
  obtain ⟨halone, u, hu, hcapacity, hexecuted⟩ := long_run h hrun hts hfirst hint hexec
    (by decide : 4294967295 < 4294967296)
  obtain ⟨v, hv, hperiod⟩ := halone.task
  obtain rfl : u = v := Option.some.inj (hu.symm.trans hv)
  have hfull : u.executed = u.capacity := by
    obtain ⟨hlo, hhi⟩ := hint
    have hcast : ((4294967295 + 1 : ℕ) : ℤ) = 4294967296 := rfl
    rw [hexecuted, hcapacity, hcast, wrap32]
    omega
  have hdone : DoneAt (s.run 4294967296) k u := .inr ⟨halone.running, hfull⟩
  refine ⟨u, hu, hperiod, hdone, (settle_ready hdone).mpr ?_⟩
  have hzero : wrap32 (4294967296 : ℕ) = 0 := rfl
  rw [run_wrap h htime, hzero]
  exact Int.dvd_zero _

/-- A registry with one task, whose memory held its capacity. -/
def fullTask (f : φ) (period capacity : ℤ) : Registry φ :=
  (addTask create f period capacity 0 "1" .ready capacity false).1

theorem fullTask_tasks (f : φ) {period capacity : ℤ} (hp : period ≠ 0) (hc : capacity ≠ 0)
    (hfits : capacity ≤ period) :
    (fullTask f period capacity).tasks =
      [⟨f, 0, "1", period, capacity, 0, .ready, capacity⟩] := by
  rw [fullTask, addTask, if_neg (fun h => h.1 rfl), if_neg (not_or.mpr ⟨hp, hc⟩),
    if_neg (not_lt.mpr hfits)]
  rfl

/-- A run in which a done task is released at tick 2^32. -/
theorem exists_release (f : φ) {p : ℤ} (hp : p ≠ 0) (hint : IsInt p) (hlt : p < 65535) :
    ∃ r : Registry φ, Registered r ∧ ∃ u,
      ((start r.tasks f 0 0).run 4294967296).tasks[0]? = some u ∧ u.period = p ∧
      DoneAt ((start r.tasks f 0 0).run 4294967296) 0 u ∧
      (((start r.tasks f 0 0).run 4294967296).settle 0 u).state = .ready := by
  obtain ⟨hlo, hhi⟩ := hint
  obtain ⟨c, hc, hfits, hcint⟩ : ∃ c : ℤ, c ≠ 0 ∧ c ≤ p ∧ IsInt c := by
    by_cases hpos : 0 < p
    · exact ⟨1, by decide, hpos, by decide, by decide⟩
    · exact ⟨p, hp, le_refl p, hlo, hhi⟩
  have hreg : Registered (fullTask f p c) := Registered.init.add f p c 0 "1" .ready c false
  have htasks := fullTask_tasks f hp hc hfits
  refine ⟨fullTask f p c, hreg, ?_⟩
  refine released_at_wrap (t := ⟨f, 0, "1", p, c, 0, .ready, c⟩)
    (valid_start hreg.accepted f 0 0) rfl rfl (fun t ht => (hreg.accepted _ ht).state) ?_ hcint rfl
  show First (fullTask f p c).tasks 0 _ 65535
  rw [htasks]
  refine ⟨rfl, ⟨by simp, by simp⟩, hlt, fun j u hj _ => ?_,
    fun j u hj => absurd hj (Nat.not_lt_zero j)⟩
  rw [← List.mem_singleton.mp (List.mem_of_getElem? hj)]

/-- For a period that `rt_add_task` accepts, done tasks are released exactly at its multiples
for ever, if and only if it divides 2^32 or is not below that of idle. -/
theorem rt_release (f : φ) {p : ℤ} (hp : p ≠ 0) (hint : IsInt p) :
    Periodic φ p ↔ p ∣ 4294967296 ∨ 65535 ≤ p := by
  constructor
  · intro hall
    by_contra hnot
    rw [not_or, not_le] at hnot
    obtain ⟨r, hreg, u, hu, hperiod, hdone, hready⟩ := exists_release f hp hint hnot.2
    exact hnot.1 ((hall r hreg f 0 0 _ 0 u hu hperiod hdone).mp hready)
  · intro hcond r hreg g deadline executed n j t ht hperiod hdone
    have hv := valid_start hreg.accepted g deadline executed
    rw [settle_ready hdone, run_wrap hv rfl, hperiod]
    rcases hcond with hdvd | hge
    · exact dvd_wrap32 hdvd n
    · -- No such task is ever done.
      have hnone : ∀ t ∈ (start r.tasks g deadline executed).tasks, t.state ≠ .done := by
        intro t ht hd
        rcases (hreg.accepted _ ht).state with hs | hs <;> rw [hs] at hd <;> cases hd
      rcases hdone with hd | ⟨hrun, -⟩
      · have hlt := period_lt hv hnone n t (List.mem_of_getElem? ht) hd
        omega
      · obtain ⟨u, hu, -, hlt⟩ := (hv.run n).running j hrun
        obtain rfl : t = u := Option.some.inj (ht.symm.trans hu)
        omega

/-- Tasks of period 4 are released at the multiples of 4 for ever. -/
theorem rt_release_four : Periodic Unit 4 :=
  (rt_release () (by decide) ⟨by decide, by decide⟩).mpr (.inl ⟨1073741824, by decide⟩)

/-- A task of period 5 is released at tick 2^32, which is no multiple of 5. -/
theorem rt_release_wrap : ¬ Periodic Unit 5 := by
  intro hall
  obtain ⟨r, hreg, u, hu, hperiod, hdone, hready⟩ :=
    exists_release () (by decide : (5 : ℤ) ≠ 0) ⟨by decide, by decide⟩ (by decide)
  exact absurd ((hall r hreg () 0 0 _ 0 u hu hperiod hdone).mp hready) (by decide)

end HfRisc.Results