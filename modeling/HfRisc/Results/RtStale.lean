import HfRisc.Rt.First
import HfRisc.Rt.Registry
import Mathlib.Algebra.Group.Int.Units
import Mathlib.Algebra.GroupWithZero.Divisibility

/-!
# The schedule and what memory held before

`rt_add_task` does not initialise `executed`, which `rt_context_switch` compares with the
capacity. So which task runs depends on what the memory of the tasks held before, unless
there is nothing to choose: no ready task comes before idle, or the one with the smallest
period is released at every tick (`rt_stale`).
-/

namespace HfRisc.Results

open HfRisc.Rt HfRisc.Rt.Sched

variable {φ : Type}

/-! ## Two runs of the same calls -/

/-- An `int`. -/
def IsInt (x : ℤ) : Prop := -2147483648 ≤ x ∧ x ≤ 2147483647

/-- Calls of `rt_add_task`, with whether `list_append` fails in each, and with what the
memory of each task held before. -/
def calls (qs : List (Request φ × Bool)) (e : ℕ → ℤ) : List (Op φ) :=
  qs.mapIdx fun i q => .add q.1 (e i) q.2

/-- The requests that are accepted. -/
def accepted (qs : List (Request φ × Bool)) : List (Request φ) :=
  (qs.filter fun q => decide (q.1.Valid ∧ q.2 = false)).map Prod.fst

/-- The same task is selected at every tick, whatever the memory of the tasks and of the idle
task held before. -/
def SameSelection (qs : List (Request φ × Bool)) (f : φ) : Prop :=
  ∀ (e e' : ℕ → ℤ) (d d' x x' : ℤ), (∀ i, IsInt (e i)) → (∀ i, IsInt (e' i)) → ∀ n,
    ((start (build (calls qs e)).tasks f d x).run (n + 1)).running =
      ((start (build (calls qs e')).tasks f d' x').run (n + 1)).running

/-- A ready request with the smallest period, if it comes before idle, has period 1 or -1. -/
def Steady (qs : List (Request φ × Bool)) : Prop :=
  ∀ q ∈ accepted qs, q.state = .ready → q.period < 65535 →
    (∀ u ∈ accepted qs, u.state = .ready → q.period ≤ u.period) → q.period = 1 ∨ q.period = -1

/-- What the two runs have in common of a task. -/
def shape (t : RtTask φ) : State × ℤ × ℤ := (t.state, t.period, t.capacity)

theorem build_calls (qs : List (Request φ × Bool)) (e : ℕ → ℤ) :
    (build (calls qs e)).tasks.map shape =
        (accepted qs).map (fun q => (q.state, q.period, q.capacity)) ∧
      (∀ t ∈ (build (calls qs e)).tasks, ∃ i, t.executed = e i) ∧
      Registered (build (calls qs e)) := by
  induction qs using List.reverseRecOn with
  | nil => exact ⟨rfl, by simp [calls, build, create], Registered.init⟩
  | append_singleton qs q ih =>
    obtain ⟨hshape, hexec, hreg⟩ := ih
    have hcalls : calls (qs ++ [q]) e = calls qs e ++ [.add q.1 (e qs.length) q.2] := by
      rw [calls, List.mapIdx_concat]
      rfl
    have hreg' : Registered (build (calls (qs ++ [q]) e)) := by
      rw [hcalls, build_append]
      exact hreg.add _ _ _ _ _ _ _ _
    have haccepted : accepted (qs ++ [q]) =
        accepted qs ++ if q.1.Valid ∧ q.2 = false then [q.1] else [] := by
      by_cases hok : q.1.Valid ∧ q.2 = false <;> simp [accepted, List.filter_append, hok]
    rw [haccepted]
    rw [hcalls, build_append, Registry.exec, Registry.add_eq] at hreg' ⊢
    by_cases hok : q.1.Valid ∧ q.2 = false
    · rw [if_pos hok] at hreg' ⊢
      rw [if_pos hok]
      refine ⟨?_, fun t ht => ?_, hreg'⟩
      · show ((build (calls qs e)).tasks ++ [_]).map shape = _
        rw [List.map_append, List.map_append, hshape]
        rfl
      · rcases List.mem_append.mp ht with ht | ht
        · exact hexec t ht
        · rw [List.mem_singleton.mp ht]
          exact ⟨_, rfl⟩
    · rw [if_neg hok] at hreg' ⊢
      rw [if_neg hok, List.append_nil]
      exact ⟨hshape, hexec, hreg'⟩

/-! ## Nothing to choose -/

variable {s : Sched φ} {ts : List (RtTask φ)} {k : ℕ} {t : RtTask φ}

/-- Tasks as `rt_add_task` leaves them. -/
def Waiting (ts : List (RtTask φ)) : Prop := ∀ t ∈ ts, t.state = .ready ∨ t.state = .blocked

theorem settle_of_waiting {j : ℕ} (hrun : s.running ≠ some j)
    (h : t.state = .ready ∨ t.state = .blocked) : s.settle j t = t := by
  rw [settle, if_neg fun hfull => hrun hfull.1, RtTask.release_of_not_done]
  rcases h with h | h <;> rw [h] <;> decide

/-- A ready task is eligible, and a blocked one is not. -/
theorem eligible_of_waiting (h : t.state = .ready ∨ t.state = .blocked) :
    t.Eligible ↔ t.state = .ready := by
  rcases h with h | h <;> simp [RtTask.Eligible, h]

/-- With idle running, the loop begins with its period. -/
theorem complete_idle (h : s.Valid) (hrun : s.running = none) :
    s.complete.running = none ∧ s.complete.current.period = 65535 := by
  obtain ⟨-, -, -, hidle | ⟨k, t, -, hsome, -⟩⟩ := complete_spec h
  · exact hidle
  · rw [hrun] at hsome
    cases hsome

/-- While idle runs, tasks that wait are looked at as they are. -/
theorem settled_of_idle (h : s.Valid) (hrun : s.running = none) (hts : Waiting s.tasks) :
    s.settled = s.tasks := by
  refine List.ext_getElem? fun j => ?_
  rw [settled_get h]
  cases hj : s.tasks[j]? with
  | none => rfl
  | some t =>
    rw [Option.map_some, settle_of_waiting (by rw [hrun]; simp) (hts t (List.mem_of_getElem? hj))]

/-- The idle task goes on if no ready task comes before it. -/
theorem idle_forever (h : s.Valid) (hrun : s.running = none) (hts : Waiting s.tasks)
    (hnone : ∀ t ∈ s.tasks, t.state = .ready → 65535 ≤ t.period) (n : ℕ) :
    (s.run n).running = none ∧ (s.run n).tasks = s.tasks := by
  induction n with
  | zero => exact ⟨hrun, rfl⟩
  | succ n ih =>
    obtain ⟨hn, htasks⟩ := ih
    have hv := h.run n
    obtain ⟨hcomplete, hperiod⟩ := complete_idle hv hn
    have hsettled : (s.run n).settled = s.tasks := by
      rw [settled_of_idle hv hn (htasks ▸ hts), htasks]
    have hnext : (s.run n).contextSwitch.running = none := by
      rw [contextSwitch_keep, hcomplete]
      intro j u hj hu
      rw [hsettled] at hj
      have hmem := List.mem_of_getElem? hj
      rw [hperiod]
      exact hnone u hmem ((eligible_of_waiting (hts u hmem)).mp hu)
    refine ⟨hnext, List.ext_getElem? fun j => ?_⟩
    show (s.run n).contextSwitch.tasks[j]? = _
    rw [(contextSwitch_spec hv).tasks, hnext, ← hsettled, settled_get hv]
    rfl

/-- The first switch selects the first ready task with the smallest period, and changes no
other. -/
theorem first_switch (h : s.Valid) (hrun : s.running = none) (hts : Waiting s.tasks)
    (hfirst : First s.tasks k t 65535) :
    s.contextSwitch.running = some k ∧ s.contextSwitch.tasks[k]? = some t.tick ∧
      ∀ j, j ≠ k → s.contextSwitch.tasks[j]? = s.tasks[j]? := by
  have hsettled := settled_of_idle h hrun hts
  obtain ⟨-, hperiod⟩ := complete_idle h hrun
  have hnext : s.contextSwitch.running = some k :=
    contextSwitch_first (t := t) (by rw [hsettled, hperiod]; exact hfirst)
  have htasks : ∀ j, s.contextSwitch.tasks[j]? =
      s.tasks[j]?.map fun u => if some k = some j then u.tick else u := by
    intro j
    rw [(contextSwitch_spec h).tasks, hnext]
    have hj := settled_get h j
    rw [hsettled] at hj
    cases hget : s.tasks[j]? with
    | none => rfl
    | some u =>
      rw [hget, Option.map_some, Option.some_inj] at hj
      rw [Option.map_some, Option.map_some, ← hj]
  refine ⟨hnext, ?_, fun j hj => ?_⟩
  · rw [htasks, hfirst.get, Option.map_some, if_pos rfl]
  · rw [htasks]
    cases s.tasks[j]? with
    | none => rfl
    | some u => rw [Option.map_some, if_neg fun heq => hj (Option.some.inj heq).symm]

/-- The task at `k` is selected, and all others wait as at the start. -/
structure Alone (ts : List (RtTask φ)) (k : ℕ) (t : RtTask φ) (s : Sched φ) : Prop where
  running : s.running = some k
  task : ∃ u, s.tasks[k]? = some u ∧ u.period = t.period
  others : ∀ j, j ≠ k → s.tasks[j]? = ts[j]?

/-- What the loop looks at besides the running task waits as at the start. -/
theorem Alone.settled (h : s.Valid) (ha : Alone ts k t s) (hts : Waiting ts) {j : ℕ} (hj : j ≠ k) :
    s.settled[j]? = ts[j]? := by
  rw [settled_get h, ha.others j hj]
  cases hget : ts[j]? with
  | none => rfl
  | some v =>
    rw [Option.map_some, settle_of_waiting _ (hts v (List.mem_of_getElem? hget))]
    rw [ha.running]
    exact fun heq => hj (Option.some.inj heq).symm

theorem Alone.least (h : s.Valid) (ha : Alone ts k t s) (hts : Waiting ts)
    (hfirst : First ts k t 65535) {j : ℕ} {v : RtTask φ} (hj : s.settled[j]? = some v)
    (hv : v.Eligible) : t.period ≤ v.period := by
  by_cases hjk : j = k
  · obtain ⟨u, hu, hperiod⟩ := ha.task
    rw [hjk, settled_get h, hu, Option.map_some, Option.some_inj] at hj
    rw [← hj, settle_period, hperiod]
  · rw [ha.settled h hts hjk] at hj
    exact hfirst.least j v hj hv

/-- A task that has not used its capacity goes on. -/
theorem Alone.go (h : s.Valid) (ha : Alone ts k t s) (hts : Waiting ts)
    (hfirst : First ts k t 65535) {u : RtTask φ} (hu : s.tasks[k]? = some u)
    (hne : u.executed ≠ u.capacity) : s.contextSwitch.running = some k := by
  obtain ⟨u', hu', hperiod⟩ := ha.task
  obtain rfl : u = u' := Option.some.inj (hu.symm.trans hu')
  obtain ⟨v, hv, hstate, -⟩ := h.running k ha.running
  obtain rfl : u = v := Option.some.inj (hu.symm.trans hv)
  have hcomplete := complete_of_some ha.running hu (by rw [hstate]; decide)
  rw [if_neg hne] at hcomplete
  rw [contextSwitch_keep, hcomplete]
  · exact ha.running
  · rw [hcomplete, current_of_some ha.running hu, hperiod]
    exact fun j v hj hv => ha.least h hts hfirst hj hv

/-- One that has used it stops, if its period does not begin. -/
theorem stop (h : s.Valid) (hrun : s.running = some k) {u : RtTask φ} (hu : s.tasks[k]? = some u)
    (hfull : u.executed = u.capacity) (htime : s.time.tmod u.period ≠ 0) :
    s.contextSwitch.running ≠ some k := by
  intro hnext
  obtain ⟨v, hv, helig, -⟩ := (contextSwitch_spec h).picks.eligible k hnext
  obtain rfl : u = v := Option.some.inj (hu.symm.trans hv)
  rw [settle, if_pos ⟨hrun, hfull⟩, RtTask.release, if_neg fun hd => htime hd.2] at helig
  exact helig.2 rfl

/-- The others wait as long as the task is selected. -/
theorem Alone.next (h : s.Valid) (ha : Alone ts k t s) (hts : Waiting ts)
    (hnext : s.contextSwitch.running = some k) : Alone ts k t s.contextSwitch := by
  obtain ⟨u, hu, hperiod⟩ := ha.task
  refine ⟨hnext, ⟨(s.settle k u).tick, ?_, ?_⟩, fun j hj => ?_⟩
  · rw [(contextSwitch_spec h).tasks, hu, Option.map_some, if_pos hnext]
  · show (s.settle k u).period = _
    rw [settle_period, hperiod]
  · rw [(contextSwitch_spec h).tasks, hnext, ← ha.settled h hts hj, settled_get h]
    cases s.tasks[j]? with
    | none => rfl
    | some v =>
      rw [Option.map_some, if_neg fun heq => hj (Option.some.inj heq).symm]
      rfl

/-- A task that is released at every tick goes on for ever. -/
theorem Alone.step (h : s.Valid) (ha : Alone ts k t s) (hts : Waiting ts)
    (hfirst : First ts k t 65535) (hone : t.period = 1 ∨ t.period = -1) :
    Alone ts k t s.contextSwitch := by
  obtain ⟨u, hu, hperiod⟩ := ha.task
  have htime : s.time.tmod u.period = 0 := by
    rw [hperiod]
    rcases hone with hone | hone
    · rw [hone, Int.tmod_one]
    · rw [hone, Int.tmod_neg, Int.tmod_one]
  have hnext : s.contextSwitch.running = some k := by
    by_cases hfull : u.executed = u.capacity
    · -- The task is made ready in the tick in which it is done.
      have hsettle : s.settle k u = { u with state := .ready, executed := 0 } := by
        rw [settle, if_pos ⟨ha.running, hfull⟩, RtTask.release, if_pos ⟨rfl, htime⟩]
      have hself : s.settled[k]? = some (s.settle k u) := by
        rw [settled_get h, hu]
        rfl
      have hidle : s.complete.current.period = 65535 := by
        obtain ⟨-, -, -, hidle | ⟨k', v, -, hrun, hv, -, hne, -⟩⟩ := complete_spec h
        · exact hidle.2
        · obtain rfl : k = k' := Option.some.inj (ha.running.symm.trans hrun)
          obtain rfl : u = v := Option.some.inj (hu.symm.trans hv)
          exact absurd hfull hne
      refine contextSwitch_first (t := s.settle k u) ⟨hself, ?_, ?_, ?_, ?_⟩
      · rw [hsettle]
        exact ⟨by simp, by simp⟩
      · rw [settle_period, hperiod, hidle]
        exact hfirst.below
      · rw [settle_period, hperiod]
        exact fun j v hj hv => ha.least h hts hfirst hj hv
      · intro j v hlt hj hv
        rw [settle_period, hperiod]
        rw [ha.settled h hts (Nat.ne_of_lt hlt)] at hj
        exact hfirst.first j v hlt hj hv
    · exact ha.go h hts hfirst hu hfull
  exact ha.next h hts hnext

theorem first_alone (h : s.Valid) (hrun : s.running = none) (hts : Waiting s.tasks)
    (hfirst : First s.tasks k t 65535) : Alone s.tasks k t s.contextSwitch := by
  obtain ⟨hnext, htask, hothers⟩ := first_switch h hrun hts hfirst
  exact ⟨hnext, ⟨_, htask, rfl⟩, hothers⟩

theorem alone_forever (h : s.Valid) (hrun : s.running = none) (hts : Waiting s.tasks)
    (hfirst : First s.tasks k t 65535) (hone : t.period = 1 ∨ t.period = -1) (n : ℕ) :
    Alone s.tasks k t (s.run (n + 1)) := by
  induction n with
  | zero => exact first_alone h hrun hts hfirst
  | succ n ih => exact ih.step (h.run (n + 1)) hts hfirst hone

/-! ## The schedule -/

/-- What comes first does not depend on what is executed. -/
theorem first_of_shape {ts' : List (RtTask φ)} {bound : ℤ} (h : First ts k t bound)
    (hshape : ts.map shape = ts'.map shape) :
    ∃ t', First ts' k t' bound ∧ t'.period = t.period ∧ t'.capacity = t.capacity := by
  have hback : ∀ (j : ℕ) (u' : RtTask φ), ts'[j]? = some u' →
      ∃ u, ts[j]? = some u ∧ shape u = shape u' := by
    intro j u' hj
    have hget : (ts.map shape)[j]? = some (shape u') := by
      rw [hshape, List.getElem?_map, hj]
      rfl
    rw [List.getElem?_map] at hget
    exact Option.map_eq_some_iff.mp hget
  have hsame : ∀ {u u' : RtTask φ}, shape u = shape u' →
      u.state = u'.state ∧ u.period = u'.period ∧ u.capacity = u'.capacity := by
    intro u u' heq
    obtain ⟨h₁, h₂⟩ := Prod.mk.inj heq
    exact ⟨h₁, Prod.mk.inj h₂⟩
  have hget : (ts'.map shape)[k]? = some (shape t) := by
    rw [← hshape, List.getElem?_map, h.get]
    rfl
  rw [List.getElem?_map] at hget
  obtain ⟨t', ht', heq⟩ := Option.map_eq_some_iff.mp hget
  obtain ⟨hstate, hperiod, hcapacity⟩ := hsame heq
  have helig : ∀ {u u' : RtTask φ}, u.state = u'.state → u'.Eligible → u.Eligible :=
    fun heq hu => ⟨heq ▸ hu.1, heq ▸ hu.2⟩
  refine ⟨t', ⟨ht', helig hstate h.eligible, hperiod ▸ h.below, fun j u' hj hu' => ?_,
    fun j u' hlt hj hu' => ?_⟩, hperiod, hcapacity⟩
  · obtain ⟨u, hu, heq'⟩ := hback j u' hj
    obtain ⟨hstate', hperiod', -⟩ := hsame heq'
    rw [hperiod, ← hperiod']
    exact h.least j u hu (helig hstate' hu')
  · obtain ⟨u, hu, heq'⟩ := hback j u' hj
    obtain ⟨hstate', hperiod', -⟩ := hsame heq'
    rw [hperiod, ← hperiod']
    exact h.first j u hlt hu (helig hstate' hu')

/-- The tasks of the two runs. -/
theorem start_calls (qs : List (Request φ × Bool)) (e : ℕ → ℤ) (f : φ) (d x : ℤ) :
    (start (build (calls qs e)).tasks f d x).Valid ∧
      Waiting (build (calls qs e)).tasks ∧
      (∀ q ∈ accepted qs, ∃ t ∈ (build (calls qs e)).tasks,
        t.state = q.state ∧ t.period = q.period ∧ t.capacity = q.capacity) ∧
      ∀ t ∈ (build (calls qs e)).tasks, ∃ q ∈ accepted qs,
        t.state = q.state ∧ t.period = q.period ∧ t.capacity = q.capacity := by
  obtain ⟨hshape, -, hreg⟩ := build_calls qs e
  refine ⟨valid_start hreg.accepted f d x, fun t ht => (hreg.accepted _ ht).state, fun q hq => ?_,
    fun t ht => ?_⟩
  · have hmem := List.mem_map_of_mem (f := fun q : Request φ => (q.state, q.period, q.capacity)) hq
    rw [← hshape] at hmem
    obtain ⟨t, ht, heq⟩ := List.mem_map.mp hmem
    obtain ⟨h₁, h₂⟩ := Prod.mk.inj heq
    exact ⟨t, ht, h₁, Prod.mk.inj h₂⟩
  · have hmem := List.mem_map_of_mem (f := shape) ht
    rw [hshape] at hmem
    obtain ⟨q, hq, heq⟩ := List.mem_map.mp hmem
    obtain ⟨h₁, h₂⟩ := Prod.mk.inj heq
    exact ⟨q, hq, h₁.symm, (Prod.mk.inj h₂).1.symm, (Prod.mk.inj h₂).2.symm⟩

/-- Two runs of the same calls have the same shape. -/
theorem same_shape (qs : List (Request φ × Bool)) (e e' : ℕ → ℤ) :
    (build (calls qs e)).tasks.map shape = (build (calls qs e')).tasks.map shape :=
  (build_calls qs e).1.trans (build_calls qs e').1.symm

theorem sameSelection_of_steady {qs : List (Request φ × Bool)} (h : Steady qs) (f : φ) :
    SameSelection qs f := by
  intro e e' d d' x x' _ _ n
  obtain ⟨hv, hts, hof, hto⟩ := start_calls qs e f d x
  obtain ⟨hv', hts', -, hto'⟩ := start_calls qs e' f d' x'
  by_cases hex : ∃ q ∈ accepted qs, q.state = .ready ∧ q.period < 65535
  · obtain ⟨q, hq, hready, hlt⟩ := hex
    obtain ⟨u, hu, hstate, hperiod, -⟩ := hof q hq
    obtain ⟨j, hj⟩ := List.mem_iff_getElem?.mp hu
    obtain ⟨k, t, hfirst⟩ := exists_first hj
      ((eligible_of_waiting (hts u hu)).mpr (hstate.trans hready)) (hperiod.trans_lt hlt)
    obtain ⟨t', hfirst', hperiod', -⟩ := first_of_shape hfirst (same_shape qs e e')
    have hone : t.period = 1 ∨ t.period = -1 := by
      have ht := List.mem_of_getElem? hfirst.get
      obtain ⟨q', hq', hstate', hperiod'', -⟩ := hto t ht
      have hready' := (eligible_of_waiting (hts t ht)).mp hfirst.eligible
      rw [hperiod'']
      refine h q' hq' (hstate' ▸ hready') (hperiod'' ▸ hfirst.below) fun w hw hwr => ?_
      obtain ⟨v, hv, hvs, hvp, -⟩ := hof w hw
      obtain ⟨i, hi⟩ := List.mem_iff_getElem?.mp hv
      rw [← hperiod'', ← hvp]
      exact hfirst.least i v hi ((eligible_of_waiting (hts v hv)).mpr (hvs.trans hwr))
    rw [(alone_forever hv rfl hts hfirst hone n).running,
      (alone_forever hv' rfl hts' hfirst' (by rw [hperiod']; exact hone) n).running]
  · have hnone : ∀ {e : ℕ → ℤ}, (∀ t ∈ (build (calls qs e)).tasks, ∃ q ∈ accepted qs,
        t.state = q.state ∧ t.period = q.period ∧ t.capacity = q.capacity) →
        ∀ t ∈ (build (calls qs e)).tasks, t.state = .ready → 65535 ≤ t.period := by
      intro e hto t ht hready
      obtain ⟨q, hq, hstate, hperiod, -⟩ := hto t ht
      exact not_lt.mp fun hlt => hex ⟨q, hq, hstate ▸ hready, hperiod ▸ hlt⟩
    rw [(idle_forever hv rfl hts (hnone hto) (n + 1)).1,
      (idle_forever hv' rfl hts' (hnone hto') (n + 1)).1]

/-- Every `int` comes after another one, and is not its own successor. -/
theorem exists_inc {c : ℤ} (hc : IsInt c) : (∃ x, IsInt x ∧ inc x = c) ∧ inc c ≠ c := by
  obtain ⟨hlo, hhi⟩ := hc
  refine ⟨?_, ?_⟩
  · by_cases hmin : c = -2147483648
    · exact ⟨2147483647, ⟨by decide, by decide⟩, hmin ▸ rfl⟩
    · refine ⟨c - 1, ⟨by omega, by omega⟩, ?_⟩
      rw [inc_of_lt (by omega)]
      omega
  · rw [inc]
    split <;> omega

/-- At the second tick the first task stops if its memory held one less than its capacity. -/
theorem second_stop (h : s.Valid) (hrun : s.running = none) (htime : s.time = 0)
    (hts : Waiting s.tasks) (hfirst : First s.tasks k t 65535) (hfull : inc t.executed = t.capacity)
    (hone : ¬ t.period ∣ 1) : (s.run 2).running ≠ some k := by
  obtain ⟨hnext, htask, -⟩ := first_switch h hrun hts hfirst
  refine stop h.contextSwitch hnext htask hfull ?_
  have hclock : s.contextSwitch.time = 1 := by
    rw [(contextSwitch_spec h).time, htime]
    rfl
  show ¬ s.contextSwitch.time.tmod t.period = 0
  rw [hclock]
  exact fun hzero => hone (Int.dvd_of_tmod_eq_zero hzero)

theorem second_go (h : s.Valid) (hrun : s.running = none) (hts : Waiting s.tasks)
    (hfirst : First s.tasks k t 65535) (hne : inc t.executed ≠ t.capacity) :
    (s.run 2).running = some k := by
  obtain ⟨-, htask, -⟩ := first_switch h hrun hts hfirst
  exact (first_alone h hrun hts hfirst).go h.contextSwitch hts hfirst htask hne

/-- The selection does not depend on what the memory of the tasks held before if and only if
there is nothing to choose. -/
theorem rt_stale {qs : List (Request φ × Bool)} (hint : ∀ q ∈ qs, IsInt q.1.capacity) (f : φ) :
    SameSelection qs f ↔ Steady qs := by
  refine ⟨fun hsame q hq hready hlt hleast => ?_, fun h => sameSelection_of_steady h f⟩
  obtain ⟨-, hts, hof, hto⟩ := start_calls qs (fun _ => 0) f 0 0
  obtain ⟨u, hu, hstate, hperiod, -⟩ := hof q hq
  obtain ⟨j, hj⟩ := List.mem_iff_getElem?.mp hu
  have helig := (eligible_of_waiting (hts u hu)).mpr (hstate.trans hready)
  obtain ⟨k, t, hfirst⟩ := exists_first hj helig (hperiod.trans_lt hlt)
  have ht := List.mem_of_getElem? hfirst.get
  obtain ⟨q', hq', hstate', hperiod', hcapacity'⟩ := hto t ht
  have htq : t.period = q.period := by
    refine le_antisymm (hperiod ▸ hfirst.least j u hj helig) ?_
    rw [hperiod']
    exact hleast q' hq' (hstate' ▸ (eligible_of_waiting (hts t ht)).mp hfirst.eligible)
  have hcap : IsInt t.capacity := by
    obtain ⟨p, hp, rfl⟩ := List.mem_map.mp hq'
    rw [hcapacity']
    exact hint p (List.mem_filter.mp hp).1
  obtain ⟨⟨x, hx, hinc⟩, hnot⟩ := exists_inc hcap
  by_contra hone
  have hdvd : ¬ t.period ∣ 1 := by
    rw [htq]
    exact fun hd => hone (Int.isUnit_iff.mp (isUnit_iff_dvd_one.mpr hd))
  -- One run in which the first task is done after its first tick, and one in which it is not.
  have hrun : ∀ y : ℤ, ∃ t' : RtTask φ, First (build (calls qs fun _ => y)).tasks k t' 65535 ∧
      t'.period = t.period ∧ t'.capacity = t.capacity ∧ t'.executed = y := by
    intro y
    obtain ⟨t', hfirst', hp, hc⟩ := first_of_shape hfirst (same_shape qs _ fun _ => y)
    obtain ⟨i, hi⟩ := (build_calls qs fun _ => y).2.1 t' (List.mem_of_getElem? hfirst'.get)
    exact ⟨t', hfirst', hp, hc, hi⟩
  obtain ⟨t₁, hfirst₁, hp₁, hc₁, he₁⟩ := hrun x
  obtain ⟨t₂, hfirst₂, hp₂, hc₂, he₂⟩ := hrun t.capacity
  obtain ⟨hv₁, hts₁, -⟩ := start_calls qs (fun _ => x) f 0 0
  obtain ⟨hv₂, hts₂, -⟩ := start_calls qs (fun _ => t.capacity) f 0 0
  have hstop := second_stop hv₁ rfl rfl hts₁ hfirst₁ (by rw [he₁, hc₁, hinc])
    (by rw [hp₁]; exact hdvd)
  have hgo := second_go hv₂ rfl hts₂ hfirst₂ (by rw [he₂, hc₂]; exact hnot)
  exact hstop ((hsame _ _ 0 0 0 0 (fun _ => hx) (fun _ => hcap) 1).trans hgo)

/-- A task of period 1 and capacity 1, and one of period 5 and capacity 2. -/
def oneAndFive : List (Request Unit × Bool) :=
  [(⟨(), 1, 1, 0, "1", .ready⟩, false), (⟨(), 5, 2, 0, "2", .ready⟩, false)]

/-- The first comes before the other at every tick. -/
theorem rt_stale_steady : Steady oneAndFive ∧ SameSelection oneAndFive () := by
  have hint : ∀ q ∈ oneAndFive, IsInt q.1.capacity := by
    intro q hq
    rcases List.mem_pair.mp hq with rfl | rfl <;> exact ⟨by decide, by decide⟩
  have hsteady : Steady oneAndFive := by
    intro q hq _ _ hleast
    have haccepted : accepted oneAndFive =
        [⟨(), 1, 1, 0, "1", .ready⟩, ⟨(), 5, 2, 0, "2", .ready⟩] := rfl
    rw [haccepted] at hq hleast
    have hle : q.period ≤ 1 := hleast _ List.mem_cons_self rfl
    rcases List.mem_pair.mp hq with rfl | rfl
    · exact .inl rfl
    · exact absurd hle (by decide)
  exact ⟨hsteady, (rt_stale hint ()).mpr hsteady⟩

/-- A task of period 5 and capacity 2. -/
def fiveTwo : List (Request Unit × Bool) := [(⟨(), 5, 2, 0, "1", .ready⟩, false)]

/-- At the second tick it is selected if its memory held 0, and not if it held 1. -/
theorem rt_stale_differ :
    ((start (build (calls fiveTwo fun _ => 0)).tasks () 0 0).run 2).running = some 0 ∧
      ((start (build (calls fiveTwo fun _ => 1)).tasks () 0 0).run 2).running = none ∧
      ¬ SameSelection fiveTwo () := by
  refine ⟨by decide, by decide, fun hsame => ?_⟩
  have heq := hsame (fun _ => 0) (fun _ => 1) 0 0 0 0 (fun _ => ⟨by decide, by decide⟩)
    (fun _ => ⟨by decide, by decide⟩) 1
  exact absurd heq (by decide)

end HfRisc.Results