import HfRisc.Results.RtSelection
import HfRisc.Rt.First

/-!
# The running task

`rt_context_switch` makes the selected task RUNNING, but it changes the state of the task
before it only if that one has used its capacity. So exactly one task is RUNNING after every
switch if and only if no running task, and no running idle task, is ever preempted
(`rt_only_running`).
-/

namespace HfRisc.Results

open HfRisc.Rt HfRisc.Rt.Sched

variable {φ : Type} {s : Sched φ}

/-- No task other than the one `rt_running_task` points to is RUNNING. -/
structure NoOther (s : Sched φ) : Prop where
  tasks : ∀ (j : ℕ) (t : RtTask φ), s.tasks[j]? = some t → t.state = .running →
    s.running = some j
  idle : s.idle.state = .running → s.running = none

/-- Exactly the task that `rt_running_task` points to is RUNNING. -/
structure OnlyRunning (s : Sched φ) : Prop extends NoOther s where
  current : s.current.state = .running

/-- Before a switch: the task that runs has used its capacity, or no task that is ready or to
be released has a smaller period. -/
def Unpreempted (s : Sched φ) : Prop :=
  s.current.state ≠ .running ∨ s.current.executed = s.current.capacity ∨
    ∀ t ∈ s.tasks, t.state ≠ .blocked → (t.state = .done → s.time.tmod t.period = 0) →
      s.current.period ≤ t.period

/-! ## One switch -/

/-- What a switch does to the idle task. -/
theorem contextSwitch_idle (s : Sched φ) :
    s.contextSwitch.idle.state =
      if s.contextSwitch.running = none then .running
      else if s.running = none ∧ s.idle.state ≠ .sys ∧ s.idle.executed = s.idle.capacity then .done
      else s.idle.state := by
  have hcomplete : s.complete.idle.state =
      if s.running = none ∧ s.idle.state ≠ .sys ∧ s.idle.executed = s.idle.capacity then .done
      else s.idle.state := by
    rw [complete, current]
    cases hrun : s.running with
    | none =>
      by_cases hsys : s.idle.state ≠ .sys
      · by_cases hfull : s.idle.executed = s.idle.capacity <;> simp [hsys, hfull, assign, hrun]
      · simp [hsys]
    | some k =>
      dsimp only
      split
      · split
        · simp [assign, hrun]
        · simp
      · simp
  rw [contextSwitch_running, ← hcomplete, contextSwitch]
  generalize (scan s.complete.time s.complete.tasks 0
    (s.complete.running, s.complete.current.period)) = r
  obtain ⟨ts, p, x⟩ := r
  cases p <;> rfl

/-- The selected task is RUNNING. -/
theorem contextSwitch_current (h : s.Valid) : s.contextSwitch.current.state = .running := by
  cases hrun : s.contextSwitch.running with
  | none =>
    have hidle := contextSwitch_idle s
    rw [if_pos hrun] at hidle
    rw [current, hrun]
    exact hidle
  | some k =>
    obtain ⟨t, ht, hstate, -⟩ := h.contextSwitch.running k hrun
    rw [current_of_some hrun ht]
    exact hstate

/-- A task that is not selected stays RUNNING only if it was running and has not used its
capacity. -/
theorem settle_running (hno : NoOther s) {j : ℕ} {t : RtTask φ} (ht : s.tasks[j]? = some t) :
    (s.settle j t).state = .running ↔
      s.running = some j ∧ t.state = .running ∧ t.executed ≠ t.capacity := by
  constructor
  · intro hstate
    rw [settle] at hstate
    rcases RtTask.release_cases (if s.running = some j ∧ t.executed = t.capacity then
      { t with state := .done } else t) s.time with ⟨hsame, -⟩ | ⟨-, -, hready⟩
    · rw [hsame] at hstate
      split at hstate
      · cases hstate
      · rename_i hnot
        have hrun := hno.tasks j t ht hstate
        exact ⟨hrun, hstate, fun hfull => hnot ⟨hrun, hfull⟩⟩
    · rw [hready] at hstate
      cases hstate
  · rintro ⟨-, hstate, hne⟩
    rw [settle, if_neg fun hfull => hne hfull.2,
      RtTask.release_of_not_done (by rw [hstate]; simp)]
    exact hstate

theorem current_none (hrun : s.running = none) : s.current = s.idle := by
  rw [current, hrun]

/-- After a switch exactly one task is RUNNING if and only if the one before is selected again,
was not RUNNING, or has used its capacity. -/
theorem onlyRunning_contextSwitch (h : s.Valid) (hno : NoOther s) :
    OnlyRunning s.contextSwitch ↔ s.contextSwitch.running = s.running ∨
      s.current.state ≠ .running ∨ s.current.executed = s.current.capacity := by
  have hsw := contextSwitch_spec h
  have hidle := contextSwitch_idle s
  constructor
  · intro honly
    by_contra hall
    rw [not_or, not_or, not_not] at hall
    obtain ⟨hne, hstate, hroom⟩ := hall
    cases hrun : s.running with
    | none =>
      rw [current_none hrun] at hstate hroom
      rw [hrun] at hne
      rw [if_neg hne, if_neg fun hfull => hroom hfull.2.2, hstate] at hidle
      exact hne (honly.idle hidle)
    | some k =>
      -- the task that ran stays RUNNING beside the one that is selected
      obtain ⟨t, ht, hstate', -⟩ := h.running k hrun
      rw [current_of_some hrun ht] at hroom
      rw [hrun] at hne
      have htask := hsw.tasks k
      rw [ht, Option.map_some, if_neg hne] at htask
      exact hne (honly.tasks k _ htask ((settle_running hno ht).mpr ⟨hrun, hstate', hroom⟩))
  · intro hkeep
    refine ⟨⟨fun j t' hj hstate => ?_, fun hstate => ?_⟩, contextSwitch_current h⟩
    · -- another task can only have stayed RUNNING, and then it is the one that ran
      by_contra hne
      have htask := hsw.tasks j
      rw [hj] at htask
      obtain ⟨t, ht, heq⟩ := Option.map_eq_some_iff.mp htask.symm
      rw [if_neg hne] at heq
      rw [← heq] at hstate
      obtain ⟨hrun, hstate', hroom⟩ := (settle_running hno ht).mp hstate
      rw [hrun, current_of_some hrun ht] at hkeep
      rcases hkeep with hsame | hnot | hfull
      · exact hne hsame
      · exact hnot hstate'
      · exact hroom hfull
    · by_contra hne
      rw [if_neg hne] at hidle
      rw [hidle] at hstate
      split at hstate
      · cases hstate
      · rename_i hnot
        have hrun := hno.idle hstate
        rw [hrun, current_none hrun] at hkeep
        rcases hkeep with hsame | hnot' | hfull
        · exact hne hsame
        · exact hnot' hstate
        · exact hnot ⟨hrun, by rw [hstate]; simp, hfull⟩

theorem release_eligible {t : RtTask φ} {time : ℤ} : (t.release time).Eligible ↔
    t.state ≠ .blocked ∧ (t.state = .done → time.tmod t.period = 0) := by
  rcases t.release_cases time with ⟨hsame, hnot⟩ | ⟨hdone, htime, hready⟩
  · rw [hsame]
    exact ⟨fun h => ⟨h.1, fun hd => absurd hd h.2⟩, fun h => ⟨h.1, fun hd => hnot ⟨hd, h.2 hd⟩⟩⟩
  · rw [hready]
    exact iff_of_true ⟨by simp, by simp⟩ ⟨by rw [hdone]; simp, fun _ => htime⟩

/-- Before it has used its capacity, the running task goes on if and only if no task that is
ready or to be released has a smaller period. -/
theorem running_iff (h : s.Valid) (hroom : s.current.executed ≠ s.current.capacity) :
    s.contextSwitch.running = s.running ↔
      ∀ t ∈ s.tasks, t.state ≠ .blocked → (t.state = .done → s.time.tmod t.period = 0) →
        s.current.period ≤ t.period := by
  have hcomplete : s.complete = s := by
    rw [complete, if_neg hroom, ite_self]
  have hsettle : ∀ (j : ℕ) (t : RtTask φ), s.tasks[j]? = some t →
      s.settle j t = t.release s.time := by
    intro j t ht
    rw [settle, if_neg]
    rintro ⟨hrun, hfull⟩
    rw [current_of_some hrun ht] at hroom
    exact hroom hfull
  constructor
  · intro hsame t ht hblocked hdone
    obtain ⟨j, hj⟩ := List.mem_iff_getElem?.mp ht
    have hleast := (contextSwitch_spec h).picks.least j t hj
      (by rw [hsettle j t hj]; exact release_eligible.mpr ⟨hblocked, hdone⟩)
    rw [hsame] at hleast
    cases hrun : s.running with
    | none =>
      rw [hrun] at hleast
      rw [current_none hrun, h.idle]
      exact hleast
    | some k =>
      rw [hrun] at hleast
      obtain ⟨u, hu, hle⟩ := hleast
      rw [current_of_some hrun hu]
      exact hle
  · intro hall
    rw [contextSwitch_keep, hcomplete]
    intro j u hj hu
    rw [settled_get h] at hj
    obtain ⟨t, ht, rfl⟩ := Option.map_eq_some_iff.mp hj
    rw [hsettle j t ht] at hu
    obtain ⟨hblocked, hdone⟩ := release_eligible.mp hu
    rw [hcomplete, settle_period]
    exact hall t (List.mem_of_getElem? ht) hblocked hdone

theorem onlyRunning_iff (h : s.Valid) (hno : NoOther s) :
    OnlyRunning s.contextSwitch ↔ Unpreempted s := by
  rw [onlyRunning_contextSwitch h hno, Unpreempted]
  by_cases hfull : s.current.executed = s.current.capacity
  · exact iff_of_true (.inr (.inr hfull)) (.inr (.inl hfull))
  · rw [running_iff h hfull]
    tauto

/-! ## Runs -/

variable {tasks : List (RtTask φ)}

theorem noOther_start (h : ∀ t ∈ tasks, t.Accepted) (f : φ) (deadline executed : ℤ) :
    NoOther (start tasks f deadline executed) where
  tasks j t hj hstate := by
    rcases (h t (List.mem_of_getElem? hj)).state with hs | hs <;> rw [hs] at hstate <;>
      cases hstate
  idle hstate := by cases hstate

/-- After every switch exactly one task is RUNNING, if and only if the task before is never
preempted while it is RUNNING. -/
theorem rt_only_running (h : ∀ t ∈ tasks, t.Accepted) (f : φ) (deadline executed : ℤ) :
    (∀ n, OnlyRunning ((start tasks f deadline executed).run (n + 1))) ↔
      ∀ n, Unpreempted ((start tasks f deadline executed).run n) := by
  have hv := valid_start h f deadline executed
  have hno := noOther_start h f deadline executed
  generalize start tasks f deadline executed = s at hv hno
  constructor
  · intro honly n
    refine (onlyRunning_iff (hv.run n) ?_).mp (honly n)
    cases n with
    | zero => exact hno
    | succ n => exact (honly n).toNoOther
  · intro hall n
    have hno' : ∀ n, NoOther (s.run n) := by
      intro n
      induction n with
      | zero => exact hno
      | succ n ih => exact ((onlyRunning_iff (hv.run n) ih).mpr (hall n)).toNoOther
    exact (onlyRunning_iff (hv.run n) (hno' n)).mpr (hall n)

/-- A task of period 1 and capacity 1. -/
def everyTick : List (RtTask Unit) := [⟨(), 0, "1", 1, 1, 0, .ready, 0⟩]

theorem accepted_everyTick : ∀ t ∈ everyTick, t.Accepted := by
  intro t ht
  rw [List.mem_singleton.mp ht]
  exact ⟨.inl rfl, by decide, by decide, by decide⟩

/-- The task after a tick. -/
def afterTick : RtTask Unit := ⟨(), 0, "1", 1, 1, 0, .running, 1⟩

/-- It has used its capacity, is released, and is selected once more. -/
theorem afterTick_switch {s : Sched Unit} (hidle : s.idle.period = 65535)
    (hrun : s.running = some 0) (htasks : s.tasks = [afterTick]) :
    s.contextSwitch.running = some 0 ∧ s.contextSwitch.tasks = [afterTick] := by
  obtain ⟨ts, idle, running, runningId, time⟩ := s
  simp only at hidle hrun htasks
  subst hrun htasks
  simp [contextSwitch, complete, current, assign, scan, dispatch, afterTick, inc, hidle]

theorem everyTick_run (n : ℕ) :
    ((start everyTick () 0 0).run (n + 1)).running = some 0 ∧
      ((start everyTick () 0 0).run (n + 1)).tasks = [afterTick] := by
  have hv := valid_start accepted_everyTick () 0 0
  induction n with
  | zero => exact ⟨rfl, rfl⟩
  | succ n ih => exact afterTick_switch (hv.run (n + 1)).idle ih.1 ih.2

theorem rt_only_running_every :
    ((start everyTick () 0 0).run 1).running = some 0 ∧
      ∀ n, OnlyRunning ((start everyTick () 0 0).run (n + 1)) := by
  refine ⟨by decide, (rt_only_running accepted_everyTick () 0 0).mpr fun n => ?_⟩
  cases n with
  | zero => exact .inl (by decide)
  | succ n =>
    obtain ⟨hrun, htasks⟩ := everyTick_run n
    refine .inr (.inl ?_)
    rw [current_of_some hrun (by rw [htasks]; rfl)]
    rfl

/-- A task of period 5 and capacity 2 is released at tick 5, and then both it and the idle task
are RUNNING. -/
theorem rt_two_running :
    ((start (oneTask 2).tasks () 0 0).run 6).running = some 0 ∧
      ((start (oneTask 2).tasks () 0 0).run 6).idle.state = .running ∧
      ¬ ∀ n, OnlyRunning ((start (oneTask 2).tasks () 0 0).run (n + 1)) := by
  refine ⟨by decide, by decide, fun hall => ?_⟩
  have hnone := (hall 5).idle (by decide)
  exact absurd hnone (by decide)

end HfRisc.Results
