import HfRisc.Rt.Scheduler

/-!
# One context switch

What `rt_context_switch` does to each task, and which task it selects: first the task
that has used its capacity is done and done tasks are released at multiples of their
period (`Sched.settle`), then a task with the smallest period is selected among the
running one and those that are neither blocked nor done (`Picks`).
-/

namespace HfRisc.Rt

variable {φ : Type}

/-! ## The loop -/

namespace RtTask

variable (t : RtTask φ)

/-- Neither blocked nor done. -/
def Eligible : Prop := t.state ≠ .blocked ∧ t.state ≠ .done

/-- A done task is made ready at the multiples of its period. -/
def release (time : Int) : RtTask φ :=
  if t.state = .done ∧ time.tmod t.period = 0 then { t with executed := 0, state := .ready } else t

/-- The selected task runs for one more tick. -/
def tick : RtTask φ := { t with state := .running, executed := inc t.executed }

variable {t} {time : Int}

@[simp] theorem release_period : (t.release time).period = t.period := by
  rw [release]
  split <;> rfl

@[simp] theorem release_capacity : (t.release time).capacity = t.capacity := by
  rw [release]
  split <;> rfl

@[simp] theorem release_id : (t.release time).id = t.id := by
  rw [release]
  split <;> rfl

/-- A release makes the task ready with nothing executed, or changes nothing. -/
theorem release_cases (t : RtTask φ) (time : Int) :
    t.release time = t ∧ ¬ (t.state = .done ∧ time.tmod t.period = 0) ∨
      t.state = .done ∧ time.tmod t.period = 0 ∧
        t.release time = { t with executed := 0, state := .ready } := by
  rw [release]
  split
  · rename_i h
    exact .inr ⟨h.1, h.2, rfl⟩
  · rename_i h
    exact .inl ⟨rfl, h⟩

theorem release_of_not_done (h : t.state ≠ .done) : t.release time = t :=
  if_neg fun hd => h hd.1

end RtTask

instance (t : RtTask φ) : Decidable t.Eligible := inferInstanceAs (Decidable (_ ∧ _))

/-- One pass of the loop: the task is released, and taken if it is eligible and its period
is smaller. -/
theorem scan_cons (time : Int) (t : RtTask φ) (ts : List (RtTask φ)) (k : ℕ)
    (r : Option ℕ × Int) :
    scan time (t :: ts) k r =
      let rest := scan time ts (k + 1)
        (if (t.release time).Eligible ∧ t.period < r.2 then (some k, t.period) else r)
      (t.release time :: rest.1, rest.2) := by
  rw [scan]
  split
  · rename_i hb
    have hsame : t.release time = t := RtTask.release_of_not_done (by rw [hb]; decide)
    rw [hsame, if_neg fun h => h.1.1 hb]
  · rename_i hb
    split
    · rename_i hd
      have hsame : t.release time = t := if_neg fun h => hd.2 h.2
      rw [hsame, if_neg fun h => h.1.2 hd.1]
    · rename_i hd
      have hsame : (if t.state = .done then { t with executed := 0, state := .ready } else t) =
          t.release time := by
        rw [RtTask.release]
        split
        · rename_i hdone
          rw [if_pos ⟨hdone, by_contra fun hne => hd ⟨hdone, hne⟩⟩]
        · rename_i hdone
          rw [if_neg fun h => hdone h.1]
      have helig : (t.release time).Eligible := by
        rw [← hsame]
        split
        · exact ⟨nofun, nofun⟩
        · rename_i hdone
          exact ⟨hb, hdone⟩
      simp only [hsame, RtTask.release_period, helig, true_and]

theorem scan_fst (time : Int) (ts : List (RtTask φ)) (k : ℕ) (r : Option ℕ × Int) :
    (scan time ts k r).1 = ts.map (·.release time) := by
  induction ts generalizing k r with
  | nil => rfl
  | cons t ts ih => rw [scan_cons, List.map_cons, ← ih]

/-- `r'` is the best among `r` and the eligible tasks of `ts`, at positions from `k` on. -/
structure Best (ts : List (RtTask φ)) (k : ℕ) (r r' : Option ℕ × Int) : Prop where
  le : r'.2 ≤ r.2
  least : ∀ (j : ℕ) (t : RtTask φ), ts[j]? = some t → t.Eligible → r'.2 ≤ t.period
  from_list : r' = r ∨ ∃ (j : ℕ) (t : RtTask φ), ts[j]? = some t ∧ t.Eligible ∧
    t.period < r.2 ∧ r' = (some (k + j), t.period)

/-- A task that is passed over. -/
theorem Best.skip {t : RtTask φ} {ts : List (RtTask φ)} {k : ℕ} {r r' : Option ℕ × Int}
    (h : Best ts (k + 1) r r') (ht : ¬ t.Eligible) : Best (t :: ts) k r r' where
  le := h.le
  least := by
    intro j u hj hu
    cases j with
    | zero =>
      cases hj
      exact absurd hu ht
    | succ j => exact h.least j u hj hu
  from_list := by
    rcases h.from_list with heq | ⟨j, u, hj, hu, hlt, heq⟩
    · exact .inl heq
    · exact .inr ⟨j + 1, u, hj, hu, hlt, by rw [heq, Nat.add_assoc, Nat.add_comm 1]⟩

/-- An eligible task, taken if its period is smaller. -/
theorem Best.visit {t : RtTask φ} {ts : List (RtTask φ)} {k : ℕ} {r r' : Option ℕ × Int}
    (h : Best ts (k + 1) (if t.period < r.2 then (some k, t.period) else r) r')
    (ht : t.Eligible) : Best (t :: ts) k r r' := by
  have hle := h.le
  refine ⟨?_, fun j u hj hu => ?_, ?_⟩
  · split at hle
    · rename_i hlt
      exact hle.trans (le_of_lt hlt)
    · exact hle
  · cases j with
    | zero =>
      cases hj
      split at hle
      · exact hle
      · rename_i hge
        exact hle.trans (not_lt.mp hge)
    | succ j => exact h.least j u hj hu
  · rcases h.from_list with heq | ⟨j, u, hj, hu, hlt, heq⟩
    · split at heq
      · rename_i hlt
        exact .inr ⟨0, t, rfl, ht, hlt, heq⟩
      · exact .inl heq
    · refine .inr ⟨j + 1, u, hj, hu, ?_, by rw [heq, Nat.add_assoc, Nat.add_comm 1]⟩
      split at hlt
      · rename_i hlt'
        exact lt_trans hlt hlt'
      · exact hlt

theorem scan_snd (time : Int) (ts : List (RtTask φ)) (k : ℕ) (r : Option ℕ × Int) :
    Best (ts.map (·.release time)) k r (scan time ts k r).2 := by
  induction ts generalizing k r with
  | nil => exact ⟨le_refl _, fun j t hj => by simp at hj, .inl rfl⟩
  | cons t ts ih =>
    have hrest := ih (k + 1)
      (if (t.release time).Eligible ∧ t.period < r.2 then (some k, t.period) else r)
    rw [scan_cons, List.map_cons]
    by_cases ht : (t.release time).Eligible
    · refine Best.visit ?_ ht
      simp only [ht, true_and, RtTask.release_period] at hrest ⊢
      exact hrest
    · refine Best.skip ?_ ht
      simp only [ht, false_and, if_false] at hrest ⊢
      exact hrest

/-! ## The whole switch -/

namespace Sched

variable (s : Sched φ)

/-- The task at position `k` when the selection looks at it: done if it was running and
has used its capacity, and released if its period begins. -/
def settle (k : ℕ) (t : RtTask φ) : RtTask φ :=
  (if s.running = some k ∧ t.executed = t.capacity then { t with state := .done } else t).release
    s.time

variable {s} {k : ℕ} {t : RtTask φ}

@[simp] theorem settle_period : (s.settle k t).period = t.period := by
  rw [settle, RtTask.release_period]
  split <;> rfl

@[simp] theorem settle_capacity : (s.settle k t).capacity = t.capacity := by
  rw [settle, RtTask.release_capacity]
  split <;> rfl

@[simp] theorem settle_id : (s.settle k t).id = t.id := by
  rw [settle, RtTask.release_id]
  split <;> rfl

/-- What holds between two switches. -/
structure Valid (s : Sched φ) : Prop where
  running : ∀ k, s.running = some k → ∃ t, s.tasks[k]? = some t ∧ t.state = .running ∧
    t.period < 65535
  noSys : ∀ t ∈ s.tasks, t.state ≠ .sys
  done : ∀ t ∈ s.tasks, t.state = .done → t.executed = t.capacity
  idle : s.idle.period = 65535

/-- The selected task: idle, or an eligible one with the smallest period. -/
structure Picks (s : Sched φ) (p : Option ℕ) : Prop where
  least : ∀ (j : ℕ) (t : RtTask φ), s.tasks[j]? = some t → (s.settle j t).Eligible →
    match p with
    | none => 65535 ≤ t.period
    | some k => ∃ u, s.tasks[k]? = some u ∧ u.period ≤ t.period
  eligible : ∀ k, p = some k → ∃ t, s.tasks[k]? = some t ∧ (s.settle k t).Eligible ∧
    t.period < 65535

theorem current_of_some (h : s.running = some k) (ht : s.tasks[k]? = some t) :
    s.current = t := by
  simp [current, h, List.getD, ht]

/-- With idle running nothing completes. -/
theorem complete_of_none (h : s.running = none) :
    s.complete.tasks = s.tasks ∧ s.complete.running = none ∧ s.complete.time = s.time ∧
      s.complete.idle.period = s.idle.period := by
  rw [complete]
  split
  · split
    · rw [assign, h]
      exact ⟨rfl, rfl, rfl, rfl⟩
    · exact ⟨rfl, h, rfl, rfl⟩
  · exact ⟨rfl, h, rfl, rfl⟩

/-- The running task completes if it has used its capacity. -/
theorem complete_of_some (h : s.running = some k) (ht : s.tasks[k]? = some t)
    (hstate : t.state ≠ .sys) :
    s.complete = if t.executed = t.capacity then
      { s with tasks := s.tasks.modify k fun t => { t with state := .done }, running := none }
    else s := by
  rw [complete, current_of_some h ht, if_pos hstate, assign, h]

/-- Before the loop: the tasks, and the running one with its period. -/
theorem complete_spec (h : s.Valid) :
    (∀ j : ℕ, s.complete.tasks[j]? = s.tasks[j]?.map fun t =>
      if s.running = some j ∧ t.executed = t.capacity then { t with state := .done } else t) ∧
    s.complete.time = s.time ∧ s.complete.idle.period = 65535 ∧
    (s.complete.running = none ∧ s.complete.current.period = 65535 ∨
      ∃ (k : ℕ) (t : RtTask φ), s.complete.running = some k ∧ s.running = some k ∧
        s.tasks[k]? = some t ∧ t.state = .running ∧ t.executed ≠ t.capacity ∧
        s.complete.current.period = t.period ∧ t.period < 65535) := by
  cases hr : s.running with
  | none =>
    obtain ⟨htasks, hrun, htime, hidle⟩ := complete_of_none hr
    refine ⟨fun j => ?_, htime, hidle.trans h.idle, .inl ⟨hrun, ?_⟩⟩
    · simp [htasks]
    · rw [current, hrun]
      exact hidle.trans h.idle
  | some k =>
    obtain ⟨t, ht, hstate, hperiod⟩ := h.running k hr
    have hcomplete := complete_of_some hr ht (by rw [hstate]; decide)
    by_cases hfull : t.executed = t.capacity
    · rw [if_pos hfull] at hcomplete
      rw [hcomplete]
      refine ⟨fun j => ?_, rfl, h.idle, .inl ⟨rfl, h.idle⟩⟩
      rw [List.getElem?_modify]
      by_cases hj : k = j
      · subst hj
        simp [ht, hfull]
      · simp [hj]
    · rw [if_neg hfull] at hcomplete
      rw [hcomplete]
      refine ⟨fun j => ?_, rfl, h.idle, .inr ⟨k, t, hr, rfl, ht, hstate, hfull, ?_, hperiod⟩⟩
      · by_cases hj : k = j
        · subst hj
          simp [ht, hfull]
        · simp [hj]
      · rw [current_of_some hr ht]

/-- What the loop leaves, and the task it selects. -/
structure Looped (s : Sched φ) (tasks : List (RtTask φ)) (p : Option ℕ) : Prop where
  tasks : ∀ j : ℕ, tasks[j]? = s.tasks[j]?.map (s.settle j)
  picks : Picks s p

theorem looped (h : s.Valid) :
    Looped s (scan s.complete.time s.complete.tasks 0
        (s.complete.running, s.complete.current.period)).1
      (scan s.complete.time s.complete.tasks 0
        (s.complete.running, s.complete.current.period)).2.1 := by
  obtain ⟨htasks, htime, -, hrun⟩ := complete_spec h
  set r := (scan s.complete.time s.complete.tasks 0
    (s.complete.running, s.complete.current.period)).2 with hr
  have hsettled : ∀ j : ℕ, (s.complete.tasks.map (·.release s.complete.time))[j]? =
      s.tasks[j]?.map (s.settle j) := by
    intro j
    rw [List.getElem?_map, htasks, htime, Option.map_map]
    rfl
  have hbest := scan_snd s.complete.time s.complete.tasks 0
    (s.complete.running, s.complete.current.period)
  rw [← hr] at hbest
  have hlist : ∀ (j : ℕ) (u : RtTask φ),
      (s.complete.tasks.map (·.release s.complete.time))[j]? = some u →
      ∃ t, s.tasks[j]? = some t ∧ s.settle j t = u := by
    intro j u hj
    rw [hsettled] at hj
    exact Option.map_eq_some_iff.mp hj
  have hmax : s.complete.current.period ≤ 65535 := by
    rcases hrun with ⟨-, hp⟩ | ⟨k, t, -, -, -, -, -, hp, hlt⟩
    · exact hp.le
    · rw [hp]
      exact hlt.le
  refine ⟨fun j => by rw [scan_fst, hsettled], fun j t hj ht => ?_, fun k hk => ?_⟩
  · -- The period of the selected task is at most any eligible one.
    have hle : r.2 ≤ t.period := by
      have hle := hbest.least j (s.settle j t) (by rw [hsettled, hj]; rfl) ht
      rwa [settle_period] at hle
    rcases hbest.from_list with heq | ⟨i, u, hi, hu, -, heq⟩
    · rw [heq] at hle ⊢
      rcases hrun with ⟨hnone, hp⟩ | ⟨k, v, hsome, -, hv, -, -, hp, -⟩
      · rw [hnone]
        exact hp ▸ hle
      · rw [hsome]
        exact ⟨v, hv, hp ▸ hle⟩
    · rw [heq] at hle ⊢
      obtain ⟨v, hv, rfl⟩ := hlist i u hi
      rw [settle_period] at hle
      exact ⟨v, by rw [Nat.zero_add]; exact hv, hle⟩
  · -- What is selected ran before, or was found by the scan.
    rcases hbest.from_list with heq | ⟨i, u, hi, hu, hlt, heq⟩
    · rw [heq] at hk
      rcases hrun with ⟨hnone, -⟩ | ⟨k', v, hsome, -, hv, hstate, hne, -, hperiod⟩
      · rw [hnone] at hk
        cases hk
      · obtain rfl : k' = k := Option.some.inj (hsome.symm.trans hk)
        refine ⟨v, hv, ?_, hperiod⟩
        rw [settle, if_neg fun hfull => hne hfull.2,
          RtTask.release_of_not_done (by rw [hstate]; decide)]
        exact ⟨by rw [hstate]; decide, by rw [hstate]; decide⟩
    · rw [heq] at hk
      obtain ⟨v, hv, rfl⟩ := hlist i u hi
      obtain rfl : i = k := by
        have hik := Option.some.inj hk
        omega
      rw [settle_period] at hlt
      exact ⟨v, hv, hu, lt_of_lt_of_le hlt hmax⟩

/-- A switch, task by task. -/
structure Switched (s s' : Sched φ) : Prop where
  time : s'.time = inc s.time
  picks : Picks s s'.running
  tasks : ∀ j : ℕ, s'.tasks[j]? = s.tasks[j]?.map fun t =>
    if s'.running = some j then (s.settle j t).tick else s.settle j t
  idle : s'.idle.period = 65535

theorem contextSwitch_spec (h : s.Valid) : Switched s s.contextSwitch := by
  have hloop := looped h
  obtain ⟨-, htime, hidle, -⟩ := complete_spec h
  rw [contextSwitch]
  generalize (scan s.complete.time s.complete.tasks 0
    (s.complete.running, s.complete.current.period)) = r at hloop ⊢
  obtain ⟨ts, p, x⟩ := r
  cases p with
  | none =>
    refine ⟨congrArg inc htime, hloop.picks, fun j => ?_, hidle⟩
    show ts[j]? = _
    rw [hloop.tasks]
    rfl
  | some k =>
    refine ⟨congrArg inc htime, hloop.picks, fun j => ?_, hidle⟩
    show (ts.modify k (·.tick))[j]? = s.tasks[j]?.map fun t =>
      if some k = some j then (s.settle j t).tick else s.settle j t
    rw [List.getElem?_modify, hloop.tasks]
    by_cases hj : k = j
    · subst hj
      cases s.tasks[k]? <;> simp
    · cases s.tasks[j]? <;> simp [hj]

/-- No assignment changes the number of the idle task. -/
theorem complete_idle_id (s : Sched φ) : s.complete.idle.id = s.idle.id := by
  rw [complete]
  split
  · split
    · rw [assign]
      cases s.running <;> rfl
    · rfl
  · rfl

theorem contextSwitch_idle_id (s : Sched φ) : s.contextSwitch.idle.id = s.idle.id := by
  rw [contextSwitch, ← complete_idle_id s]
  generalize (scan s.complete.time s.complete.tasks 0
    (s.complete.running, s.complete.current.period)) = r
  obtain ⟨ts, p, x⟩ := r
  cases p <;> rfl

/-- `rt_running_id` is the number of the selected task. -/
theorem contextSwitch_runningId (h : s.Valid) :
    (s.contextSwitch.running = none → s.contextSwitch.runningId = s.idle.id) ∧
      ∀ (j : ℕ) (t : RtTask φ), s.contextSwitch.running = some j → s.tasks[j]? = some t →
        s.contextSwitch.runningId = t.id := by
  have hloop := looped h
  have hidle := complete_idle_id s
  rw [contextSwitch]
  generalize (scan s.complete.time s.complete.tasks 0
    (s.complete.running, s.complete.current.period)) = r at hloop ⊢
  obtain ⟨ts, p, x⟩ := r
  cases p with
  | none => exact ⟨fun _ => hidle, nofun⟩
  | some k =>
    refine ⟨nofun, fun j t hj ht => ?_⟩
    obtain rfl : k = j := Option.some.inj hj
    have htask := hloop.tasks k
    rw [ht, Option.map_some] at htask
    show (ts.getD k s.complete.idle).id = t.id
    rw [List.getD, htask, Option.getD_some, settle_id]

/-! ## What every switch preserves -/

/-- A settled task is eligible, or blocked, or done with its capacity used. -/
theorem settle_cases (h : s.Valid) (ht : s.tasks[k]? = some t) :
    (s.settle k t).Eligible ∨ (s.settle k t).state = .blocked ∨
      (s.settle k t).state = .done ∧ (s.settle k t).executed = t.capacity := by
  have hmem := List.mem_of_getElem? ht
  rw [settle]
  set u := if s.running = some k ∧ t.executed = t.capacity then { t with state := .done } else t
    with hu
  have hdone : u.state = .done → u.executed = t.capacity := by
    rw [hu]
    split
    · rename_i hfull
      exact fun _ => hfull.2
    · exact h.done t hmem
  rcases u.release_cases s.time with ⟨hsame, -⟩ | ⟨-, -, hready⟩
  · rw [hsame]
    by_cases hb : u.state = .blocked
    · exact .inr (.inl hb)
    by_cases hd : u.state = .done
    · exact .inr (.inr ⟨hd, hdone hd⟩)
    · exact .inl ⟨hb, hd⟩
  · rw [hready]
    exact .inl ⟨nofun, nofun⟩

/-- A task settles in the state it had, done, or ready. -/
theorem settle_state (s : Sched φ) (k : ℕ) (t : RtTask φ) :
    (s.settle k t).state = t.state ∨ (s.settle k t).state = .done ∨
      (s.settle k t).state = .ready := by
  rw [settle]
  rcases RtTask.release_cases (if s.running = some k ∧ t.executed = t.capacity then
    { t with state := .done } else t) s.time with ⟨hsame, -⟩ | ⟨-, -, hready⟩
  · rw [hsame]
    split
    · exact .inr (.inl rfl)
    · exact .inl rfl
  · rw [hready]
    exact .inr (.inr rfl)

theorem settle_noSys (h : t.state ≠ .sys) : (s.settle k t).state ≠ .sys := by
  rcases settle_state s k t with hs | hs | hs <;> rw [hs]
  · exact h
  · exact nofun
  · exact nofun

theorem settle_not_blocked (h : t.state ≠ .blocked) : (s.settle k t).state ≠ .blocked := by
  rcases settle_state s k t with hs | hs | hs <;> rw [hs]
  · exact h
  · exact nofun
  · exact nofun

theorem Valid.contextSwitch (h : s.Valid) : s.contextSwitch.Valid := by
  obtain ⟨-, hpicks, htasks, hidle⟩ := contextSwitch_spec h
  have hback : ∀ t' ∈ s.contextSwitch.tasks, ∃ (j : ℕ) (t : RtTask φ), s.tasks[j]? = some t ∧
      t' = if s.contextSwitch.running = some j then (s.settle j t).tick else s.settle j t := by
    intro t' ht'
    obtain ⟨j, hj⟩ := List.mem_iff_getElem?.mp ht'
    rw [htasks] at hj
    obtain ⟨t, ht, heq⟩ := Option.map_eq_some_iff.mp hj
    exact ⟨j, t, ht, heq.symm⟩
  refine ⟨fun k hk => ?_, fun t' ht' => ?_, fun t' ht' hd => ?_, hidle⟩
  · obtain ⟨t, ht, -, hlt⟩ := hpicks.eligible k hk
    refine ⟨(s.settle k t).tick, ?_, rfl, ?_⟩
    · rw [htasks, ht, Option.map_some, if_pos hk]
    · show (s.settle k t).period < _
      rw [settle_period]
      exact hlt
  · obtain ⟨j, t, ht, rfl⟩ := hback t' ht'
    split
    · exact nofun
    · exact settle_noSys (h.noSys t (List.mem_of_getElem? ht))
  · obtain ⟨j, t, ht, rfl⟩ := hback t' ht'
    split at hd
    · cases hd
    · rename_i hnot
      rw [if_neg hnot]
      rcases settle_cases h ht with he | hb | ⟨-, hfull⟩
      · exact absurd hd he.2
      · rw [hb] at hd
        cases hd
      · rw [hfull, settle_capacity]

end Sched

/-- A start from accepted tasks. -/
theorem valid_start {tasks : List (RtTask φ)} (h : ∀ t ∈ tasks, t.Accepted) (f : φ)
    (deadline executed : Int) : (start tasks f deadline executed).Valid where
  running k hk := by cases hk
  noSys t ht := by
    rcases (h t ht).state with hs | hs <;> rw [hs] <;> exact nofun
  done t ht hd := by
    rcases (h t ht).state with hs | hs <;> rw [hs] at hd <;> cases hd
  idle := rfl

theorem Sched.Valid.run {s : Sched φ} (h : s.Valid) (n : ℕ) : (s.run n).Valid := by
  induction n with
  | zero => exact h
  | succ n ih => exact ih.contextSwitch

end HfRisc.Rt
