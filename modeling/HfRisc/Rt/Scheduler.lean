import Mathlib.Data.Int.Order.Basic
import Mathlib.Data.List.Basic
import Mathlib.Order.Basic

/-!
# The rate-monotonic scheduler (`rt.c`)

Tasks are registered with `rt_add_task`, started by `rt_start`, and selected by
`rt_context_switch` at every tick. `rt_running_task` is a pointer to the idle task
or to an element of the list; here it is the position of that element, if any.
The fields that `malloc` leaves uninitialised are parameters.
-/

namespace HfRisc.Rt

/-- `enum_state`. -/
inductive State
  | ready
  | running
  | blocked
  | done
  | sys
deriving DecidableEq, Repr

/-- `rt_task`, with functions from `φ`. -/
@[ext] structure RtTask (φ : Type) where
  function : φ
  id : Int
  name : String
  period : Int
  capacity : Int
  deadline : Int
  state : State
  executed : Int

variable {φ : Type}

/-- `++` on an `int`. -/
def inc (x : Int) : Int := if x = 2147483647 then -2147483648 else x + 1

theorem inc_of_lt {x : Int} (h : x < 2147483647) : inc x = x + 1 :=
  if_neg (ne_of_lt h)

/-! ## Registration -/

/-- What `rt_create` and `rt_add_task` work on: the list of tasks, and
`rt_running_id`, which counts them. -/
structure Registry (φ : Type) where
  tasks : List (RtTask φ)
  runningId : Int

/-- `rt_create`. -/
def create : Registry φ := ⟨[], 0⟩

/-- `rt_add_task`. `executed` is what the new task's memory holds in that field, and
`fails` whether `list_append` finds no memory. -/
def addTask (r : Registry φ) (function : φ) (period capacity deadline : Int) (name : String)
    (state : State) (executed : Int) (fails : Bool) : Registry φ × Int :=
  if state ≠ .ready ∧ state ≠ .blocked then (r, 0)
  else if period = 0 ∨ capacity = 0 then (r, 0)
  else if period < capacity then (r, 0)
  else if fails then (r, 0)
  else
    ({ tasks := r.tasks ++
        [{ function, id := r.runningId, name, period, capacity, deadline, state, executed }]
       runningId := r.runningId + 1 }, 1)

/-- The registries a program can build. -/
inductive Registered : Registry φ → Prop
  | init : Registered create
  | add {r : Registry φ} (h : Registered r) (function : φ) (period capacity deadline : Int)
      (name : String) (state : State) (executed : Int) (fails : Bool) :
      Registered (addTask r function period capacity deadline name state executed fails).1

/-- What `rt_add_task` lets through. -/
structure RtTask.Accepted (t : RtTask φ) : Prop where
  state : t.state = .ready ∨ t.state = .blocked
  period : t.period ≠ 0
  capacity : t.capacity ≠ 0
  fits : t.capacity ≤ t.period

/-- `rt_add_task` leaves the registry alone, or appends an accepted task whose number is the
count of those before it. -/
theorem addTask_cases (r : Registry φ) (function : φ) (period capacity deadline : Int)
    (name : String) (state : State) (executed : Int) (fails : Bool) :
    (addTask r function period capacity deadline name state executed fails).1 = r ∨
      ∃ t : RtTask φ, t.Accepted ∧ t.id = r.runningId ∧
        (addTask r function period capacity deadline name state executed fails).1 =
          ⟨r.tasks ++ [t], r.runningId + 1⟩ := by
  rw [addTask]
  split
  · exact .inl rfl
  rename_i hstate
  split
  · exact .inl rfl
  rename_i hzero
  split
  · exact .inl rfl
  rename_i hfits
  split
  · exact .inl rfl
  · rw [not_and_or, not_ne_iff, not_ne_iff] at hstate
    rw [not_or] at hzero
    exact .inr ⟨_, ⟨hstate, hzero.1, hzero.2, not_lt.mp hfits⟩, rfl, rfl⟩

/-- The tasks of a registry are accepted ones, numbered by their position. -/
theorem Registered.tasks {r : Registry φ} (h : Registered r) :
    r.runningId = r.tasks.length ∧
      ∀ (k : ℕ) (t : RtTask φ), r.tasks[k]? = some t → t.Accepted ∧ t.id = k := by
  induction h with
  | init => exact ⟨rfl, fun k t hk => by simp [create] at hk⟩
  | @add r _ function period capacity deadline name state executed fails ih =>
    obtain ⟨hid, htasks⟩ := ih
    rcases addTask_cases r function period capacity deadline name state executed fails with
      heq | ⟨t, hacc, ht, heq⟩
    · rw [heq]
      exact ⟨hid, htasks⟩
    · rw [heq]
      refine ⟨by simp [hid], fun k u hk => ?_⟩
      rcases Nat.lt_or_ge k r.tasks.length with hlt | hge
      · rw [List.getElem?_append_left hlt] at hk
        exact htasks k u hk
      · rw [List.getElem?_append_right hge, List.getElem?_singleton] at hk
        split at hk
        · rename_i hzero
          cases hk
          exact ⟨hacc, by rw [ht, hid]; omega⟩
        · cases hk

theorem Registered.accepted {r : Registry φ} (h : Registered r) : ∀ t ∈ r.tasks, t.Accepted := by
  intro t ht
  obtain ⟨k, hk⟩ := List.mem_iff_getElem?.mp ht
  exact (h.tasks.2 k t hk).1

/-! ## The scheduler -/

/-- The globals of the scheduler. -/
structure Sched (φ : Type) where
  tasks : List (RtTask φ)
  idle : RtTask φ
  running : Option ℕ
  runningId : Int
  time : Int

namespace Sched

variable (s : Sched φ)

/-- `*rt_running_task`. -/
def current : RtTask φ :=
  match s.running with
  | none => s.idle
  | some k => s.tasks.getD k s.idle

/-- Assign to `*rt_running_task`. -/
def assign (f : RtTask φ → RtTask φ) : Sched φ :=
  match s.running with
  | none => { s with idle := f s.idle }
  | some k => { s with tasks := s.tasks.modify k f }

/-- The task that has used its capacity is done, and idle takes its place. -/
def complete : Sched φ :=
  if s.current.state ≠ .sys then
    if s.current.executed = s.current.capacity then
      { s.assign fun t => { t with state := .done } with running := none }
    else s
  else s

end Sched

/-- The loop of `rt_context_switch` from the element at position `k` on, with
`rt_running_task` and its period. -/
def scan (time : Int) : List (RtTask φ) → ℕ → Option ℕ × Int → List (RtTask φ) × (Option ℕ × Int)
  | [], _, r => ([], r)
  | t :: ts, k, r =>
    if t.state = .blocked then
      let rest := scan time ts (k + 1) r
      (t :: rest.1, rest.2)
    else if t.state = .done ∧ time.tmod t.period ≠ 0 then
      let rest := scan time ts (k + 1) r
      (t :: rest.1, rest.2)
    else
      let t := if t.state = .done then { t with executed := 0, state := .ready } else t
      let rest := scan time ts (k + 1) (if t.period < r.2 then (some k, t.period) else r)
      (t :: rest.1, rest.2)

namespace Sched

variable (s : Sched φ)

/-- The rest of `rt_context_switch`: the selected task runs for one more tick. -/
def dispatch (tasks : List (RtTask φ)) (running : Option ℕ) : Sched φ :=
  let s := { s with tasks, running }
  let s := { s with runningId := s.current.id }
  let s := s.assign fun t => { t with state := .running, executed := inc t.executed }
  { s with time := inc s.time }

/-- `rt_context_switch`, up to the jump to the selected task. -/
def contextSwitch : Sched φ :=
  let s := s.complete
  let r := scan s.time s.tasks 0 (s.running, s.current.period)
  s.dispatch r.1 r.2.1

/-- The state after `n` context switches. -/
def run : ℕ → Sched φ
  | 0 => s
  | n + 1 => (run n).contextSwitch

end Sched

/-- `rt_idle_task`, as `rt_start` sets it up. -/
def idleTask (function : φ) (deadline executed : Int) : RtTask φ where
  function := function
  id := -1
  name := "rt_idle_task"
  period := 65535
  capacity := -1
  deadline := deadline
  state := .sys
  executed := executed

/-- The scheduler when `rt_start` hands over to the first context switch. -/
def start (tasks : List (RtTask φ)) (idleFunction : φ) (deadline executed : Int) : Sched φ where
  tasks := tasks
  idle := idleTask idleFunction deadline executed
  running := none
  runningId := 0
  time := 0

end HfRisc.Rt
