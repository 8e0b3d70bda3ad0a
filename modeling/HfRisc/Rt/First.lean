import HfRisc.Rt.Switch
import Mathlib.Data.Int.Order.Basic

/-!
# Which of the tasks with the smallest period

The loop of `rt_context_switch` replaces the running task only by one with a smaller period.
So it selects the first task with the smallest period (`First`, `contextSwitch_first`), or
keeps the running one if none has a smaller period (`contextSwitch_keep`).
-/

namespace HfRisc.Rt

variable {φ : Type}

/-- The first eligible task with the smallest period, if it is below the bound. -/
structure First (ts : List (RtTask φ)) (k : ℕ) (t : RtTask φ) (bound : Int) : Prop where
  get : ts[k]? = some t
  eligible : t.Eligible
  below : t.period < bound
  least : ∀ (j : ℕ) (u : RtTask φ), ts[j]? = some u → u.Eligible → t.period ≤ u.period
  first : ∀ (j : ℕ) (u : RtTask φ), j < k → ts[j]? = some u → u.Eligible → t.period < u.period

theorem First.cons {t u : RtTask φ} {ts : List (RtTask φ)} {k : ℕ} {bound bound' : Int}
    (h : First ts k t bound) (hu : u.Eligible → t.period < u.period) (hbound : t.period < bound') :
    First (u :: ts) (k + 1) t bound' where
  get := h.get
  eligible := h.eligible
  below := hbound
  least := by
    intro j v hj hv
    cases j with
    | zero =>
      cases hj
      exact (hu hv).le
    | succ j => exact h.least j v hj hv
  first := by
    intro j v hlt hj hv
    cases j with
    | zero =>
      cases hj
      exact hu hv
    | succ j => exact h.first j v (Nat.lt_of_succ_lt_succ hlt) hj hv

/-- There is a first one if there is an eligible task below the bound. -/
theorem exists_first {ts : List (RtTask φ)} {bound : Int} {j : ℕ} {u : RtTask φ}
    (hj : ts[j]? = some u) (hu : u.Eligible) (hlt : u.period < bound) :
    ∃ k t, First ts k t bound := by
  induction ts generalizing bound j u with
  | nil => simp at hj
  | cons v ts ih =>
    by_cases hv : v.Eligible ∧ v.period < bound
    · by_cases hex : ∃ (i : ℕ) (w : RtTask φ), ts[i]? = some w ∧ w.Eligible ∧ w.period < v.period
      · obtain ⟨i, w, hi, hw, hlt'⟩ := hex
        obtain ⟨k, t, ht⟩ := ih hi hw hlt'
        exact ⟨k + 1, t, ht.cons (fun _ => ht.below) (ht.below.trans hv.2)⟩
      · refine ⟨0, v, rfl, hv.1, hv.2, fun i w hi hw => ?_,
          fun i w h => absurd h (Nat.not_lt_zero i)⟩
        cases i with
        | zero =>
          cases hi
          exact le_refl _
        | succ i => exact not_lt.mp fun hlt' => hex ⟨i, w, hi, hw, hlt'⟩
    · cases j with
      | zero =>
        cases hj
        exact absurd ⟨hu, hlt⟩ hv
      | succ j =>
        obtain ⟨k, t, ht⟩ := ih hj hu hlt
        refine ⟨k + 1, t, ht.cons (fun helig => ?_) ht.below⟩
        exact lt_of_lt_of_le ht.below (not_lt.mp fun hlt' => hv ⟨helig, hlt'⟩)

/-! ## The loop -/

/-- No eligible task has a smaller period than the running one. -/
theorem scan_keep {time : Int} {ts : List (RtTask φ)} {r : Option ℕ × Int}
    (h : ∀ (j : ℕ) (u : RtTask φ), (ts.map (·.release time))[j]? = some u → u.Eligible →
      r.2 ≤ u.period) (k : ℕ) : (scan time ts k r).2 = r := by
  induction ts generalizing k with
  | nil => rfl
  | cons t ts ih =>
    have hnot : ¬ ((t.release time).Eligible ∧ t.period < r.2) := by
      rintro ⟨helig, hlt⟩
      have hle := h 0 _ rfl helig
      rw [RtTask.release_period] at hle
      exact absurd hlt (not_lt.mpr hle)
    rw [scan_cons, if_neg hnot]
    exact ih (fun j u hj hu => h (j + 1) u hj hu) (k + 1)

theorem scan_first {time : Int} {ts : List (RtTask φ)} {r : Option ℕ × Int} {j : ℕ} {t : RtTask φ}
    (h : First (ts.map (·.release time)) j t r.2) (k : ℕ) :
    (scan time ts k r).2 = (some (k + j), t.period) := by
  induction ts generalizing k r j with
  | nil => cases h.get
  | cons u ts ih =>
    rw [scan_cons]
    cases j with
    | zero =>
      obtain rfl : u.release time = t := Option.some.inj h.get
      have hbelow := h.below
      rw [RtTask.release_period] at hbelow
      rw [if_pos ⟨h.eligible, hbelow⟩, RtTask.release_period]
      refine scan_keep (fun i v hi hv => ?_) (k + 1)
      have hle := h.least (i + 1) v hi hv
      rw [RtTask.release_period] at hle
      exact hle
    | succ j =>
      have hhead := h.first 0 _ (Nat.succ_pos j) rfl
      rw [RtTask.release_period] at hhead
      have hrest : First (ts.map (·.release time)) j t
          (if (u.release time).Eligible ∧ u.period < r.2 then (some k, u.period) else r).2 := by
        refine ⟨h.get, h.eligible, ?_, fun i v hi hv => h.least (i + 1) v hi hv,
          fun i v hlt hi hv => h.first (i + 1) v (Nat.succ_lt_succ hlt) hi hv⟩
        split
        · rename_i hu
          exact hhead hu.1
        · exact h.below
      have hscan := ih hrest (k + 1)
      rw [Nat.add_assoc, Nat.add_comm 1 j] at hscan
      exact hscan

/-! ## The switch -/

namespace Sched

variable {s : Sched φ}

/-- The tasks when the selection looks at them. -/
def settled (s : Sched φ) : List (RtTask φ) := s.complete.tasks.map (·.release s.complete.time)

theorem settled_get (h : s.Valid) (j : ℕ) : s.settled[j]? = s.tasks[j]?.map (s.settle j) := by
  obtain ⟨htasks, htime, -⟩ := complete_spec h
  rw [settled, List.getElem?_map, htasks, htime, Option.map_map]
  rfl

theorem contextSwitch_running (s : Sched φ) :
    s.contextSwitch.running = (scan s.complete.time s.complete.tasks 0
      (s.complete.running, s.complete.current.period)).2.1 := by
  rw [contextSwitch]
  generalize (scan s.complete.time s.complete.tasks 0
    (s.complete.running, s.complete.current.period)) = r
  obtain ⟨ts, p, x⟩ := r
  cases p <;> rfl

/-- The running task goes on. -/
theorem contextSwitch_keep (h : ∀ (j : ℕ) (u : RtTask φ), s.settled[j]? = some u → u.Eligible →
    s.complete.current.period ≤ u.period) : s.contextSwitch.running = s.complete.running := by
  rw [contextSwitch_running, scan_keep h]

/-- The first task with a smaller period than the running one is selected. -/
theorem contextSwitch_first {k : ℕ} {t : RtTask φ}
    (h : First s.settled k t s.complete.current.period) : s.contextSwitch.running = some k := by
  have hloop : First (s.complete.tasks.map (·.release s.complete.time)) k t
      (s.complete.running, s.complete.current.period).2 := h
  rw [contextSwitch_running, scan_first hloop, Nat.zero_add]

end Sched

end HfRisc.Rt
