import HfRisc.Rt.Budget
import Mathlib.Logic.Function.Basic

/-!
# Start-up and the contexts in `rt_jmp`

`rt_start` is a loop without a loop statement: every task function saves its context and
jumps back to the `setjmp` in `rt_start`, which then calls the next one. It is modelled
here as the machine of its control points, one step for each `setjmp`, `longjmp`, call and
test. What a `setjmp` saves is the place it is called at (the return address) and the
other registers, which are an input of the step. `rt_jmp` has as many elements as `malloc`
has given (`jmpEntries`); what is saved behind them, or through the null pointer, is lost.

`rt_context_switch` saves to slot 0 and continues with the context in the slot of the
selected task; no other slot is written (`Kernel.continues_eq`).
-/

namespace HfRisc.Rt

variable {φ δ : Type}

/-- The calls of `setjmp`: in `rt_start`, in `rt_idle_function`, at the beginning of a task
function, and in `rt_context_switch`. -/
inductive Place (φ : Type)
  | start
  | idle
  | inside (f : φ)
  | contextSwitch
deriving DecidableEq

/-- A `jmp_buf`. -/
structure Context (φ δ : Type) where
  place : Place φ
  saved : δ
deriving DecidableEq

/-- Where the program is: about to call a `setjmp`, behind one that returned 0, or behind
one that a `longjmp` returned from; at last `rt_start` hands over to the clock or to
`rt_context_switch`. `lost` is a `setjmp` or a `longjmp` behind the end of `rt_jmp`, or a
`longjmp` to a context that was never saved. -/
inductive Control (φ : Type)
  | setjmp (p : Place φ)
  | zero (p : Place φ)
  | again (p : Place φ)
  | handOver
  | lost
deriving DecidableEq

/-- The elements of `rt_jmp`: `rt_start` asks `malloc` for two more than there are tasks
(rt.c 110) and does not test the pointer `jmp` it gets. -/
def jmpEntries (count jmp : ℕ) : ℕ := if jmp = 0 then 0 else count + 2

/-- `rt_jmp` and `rt_running_id` while `rt_start` runs. -/
structure Machine (φ δ : Type) where
  entries : ℕ
  slots : Int → Option (Context φ δ)
  runningId : Int
  control : Control φ

namespace Machine

variable (m : Machine φ δ)

/-- `rt_jmp[k]` is an element of `rt_jmp`. -/
def InTable (k : Int) : Prop := 0 ≤ k ∧ k < m.entries

instance (k : Int) : Decidable (m.InTable k) := inferInstanceAs (Decidable (_ ∧ _))

/-- `setjmp(rt_jmp[k])` at `p`, with `d` in the registers. -/
def setjmp (k : Int) (p : Place φ) (d : δ) : Machine φ δ :=
  if m.InTable k then
    { m with slots := Function.update m.slots k (some ⟨p, d⟩), control := .zero p }
  else { m with control := .lost }

/-- `longjmp(rt_jmp[k], 1)`. -/
def longjmp (k : Int) : Machine φ δ :=
  match m.slots k with
  | none => { m with control := .lost }
  | some c => { m with control := .again c.place }

/-- The slot that the `setjmp` at a place saves to. -/
def slot : Place φ → Int
  | .start => 0
  | .idle => 1
  | .inside _ => m.runningId
  | .contextSwitch => 0

/-- One step of `rt_start` and of what it calls. -/
def step (tasks : List (RtTask φ)) (d : δ) : Machine φ δ :=
  match m.control with
  | .setjmp p => m.setjmp (m.slot p) p d
  | .zero .start => { m with control := .setjmp .idle }
  | .zero _ => m.longjmp 0
  | .again .start =>
    if m.runningId < tasks.length + 1 then
      match tasks with
      | [] => { m with control := .lost }
      | element :: _ =>
        { m with runningId := m.runningId + 1, control := .setjmp (.inside element.function) }
    else { m with runningId := 0, control := .handOver }
  | _ => m

end Machine

/-- `rt_start`, with the number of elements of `rt_jmp`, what they hold at first and what the
registers hold at each step. -/
def startUp (tasks : List (RtTask φ)) (entries : ℕ) (slots : Int → Option (Context φ δ))
    (d : ℕ → δ) : ℕ → Machine φ δ
  | 0 => ⟨entries, fun k => if 0 ≤ k ∧ k < entries then slots k else none, 1, .setjmp .start⟩
  | n + 1 => (startUp tasks entries slots d n).step tasks (d n)

/-! ## The loop -/

variable {tasks : List (RtTask φ)} {entries : ℕ} {slots : Int → Option (Context φ δ)} {d : ℕ → δ}

theorem setjmp_inTable {m : Machine φ δ} {k : Int} (h : m.InTable k) (p : Place φ) (d : δ) :
    m.setjmp k p d =
      { m with slots := Function.update m.slots k (some ⟨p, d⟩), control := .zero p } :=
  if_pos h

/-- Without memory for `rt_jmp` the first `setjmp` is lost, and nothing comes after it. -/
theorem startUp_lost (tasks : List (RtTask φ)) (slots : Int → Option (Context φ δ)) (d : ℕ → δ)
    (n : ℕ) : (startUp tasks 0 slots d (n + 1)).control = .lost := by
  induction n with
  | zero =>
    show (Machine.setjmp _ 0 .start (d 0)).control = _
    rw [Machine.setjmp, if_neg]
    rintro ⟨-, hlt⟩
    exact lt_irrefl (0 : ℤ) hlt
  | succ n ih =>
    rw [startUp]
    unfold Machine.step
    rw [ih]
    exact ih

/-- The machine where the `setjmp` in `rt_start` returns 1, after the function of `element`
was called `p` times. -/
structure Looping (element : RtTask φ) (entries : ℕ) (m : Machine φ δ) (p : ℕ) : Prop where
  entries : m.entries = entries
  control : m.control = .again .start
  runningId : m.runningId = p + 1
  start : ∃ e, m.slots 0 = some ⟨.start, e⟩
  idle : ∃ e, m.slots 1 = some ⟨.idle, e⟩
  inside : ∀ q < p, ∃ e, m.slots (q + 2) = some ⟨.inside element.function, e⟩
  outside : ∀ k, ¬ m.InTable k → m.slots k = none

/-- The first four steps save the contexts of `rt_start` and of the idle task. -/
theorem looping_first (element : RtTask φ) (hentries : 2 ≤ entries) :
    Looping element entries (startUp tasks entries slots d 4) 0 := by
  have hzero : ∀ m : Machine φ δ, m.entries = entries → m.InTable 0 := fun m h =>
    ⟨le_refl _, by rw [h]; omega⟩
  have hone : ∀ m : Machine φ δ, m.entries = entries → m.InTable 1 := fun m h =>
    ⟨by decide, by rw [h]; omega⟩
  set s₀ : Int → Option (Context φ δ) := fun k => if 0 ≤ k ∧ k < entries then slots k else none
    with hs₀
  set s₁ := Function.update s₀ 0 (some ⟨.start, d 0⟩) with hs₁
  set s₂ := Function.update s₁ 1 (some ⟨.idle, d 2⟩) with hs₂
  have h₁ : startUp tasks entries slots d 1 = ⟨entries, s₁, 1, .zero .start⟩ :=
    setjmp_inTable (hzero _ rfl) _ _
  have h₂ : startUp tasks entries slots d 2 = ⟨entries, s₁, 1, .setjmp .idle⟩ := by
    rw [startUp, h₁]
    rfl
  have h₃ : startUp tasks entries slots d 3 = ⟨entries, s₂, 1, .zero .idle⟩ := by
    rw [startUp, h₂]
    exact setjmp_inTable (hone _ rfl) _ _
  have h₄ : startUp tasks entries slots d 4 = ⟨entries, s₂, 1, .again .start⟩ := by
    rw [startUp, h₃]
    rfl
  rw [h₄]
  refine ⟨rfl, rfl, rfl, ⟨d 0, rfl⟩, ⟨d 2, rfl⟩, fun q hq => absurd hq (Nat.not_lt_zero q), ?_⟩
  intro k hk
  have hne₀ : k ≠ 0 := by
    rintro rfl
    exact hk (hzero _ rfl)
  have hne₁ : k ≠ 1 := by
    rintro rfl
    exact hk (hone _ rfl)
  show s₂ k = none
  rw [hs₂, Function.update_of_ne hne₁, hs₁, Function.update_of_ne hne₀]
  exact if_neg hk

/-- A pass of the loop calls the function of the first element, whatever the pass. -/
theorem Looping.pass {element : RtTask φ} {rest : List (RtTask φ)} {m : Machine φ δ} {p : ℕ}
    (h : Looping element entries m p) (hp : p < rest.length + 1)
    (hentries : rest.length + 3 ≤ entries) (d₁ d₂ d₃ : δ) :
    Looping element entries (((m.step (element :: rest) d₁).step (element :: rest) d₂).step
      (element :: rest) d₃) (p + 1) := by
  obtain ⟨rfl, control, runningId, ⟨e₀, hstart⟩, ⟨e₁, hidle⟩, hinside, houtside⟩ := h
  obtain ⟨E, s, r, c⟩ := m
  simp only at control runningId hstart hidle hinside houtside hentries
  subst control runningId
  have hin : (⟨E, s, p + 1 + 1, .setjmp (.inside element.function)⟩ : Machine φ δ).InTable
      (p + 1 + 1) := ⟨by omega, by show (p : ℤ) + 1 + 1 < E; omega⟩
  have hcall : (⟨E, s, p + 1, .again .start⟩ : Machine φ δ).step (element :: rest) d₁ =
      ⟨E, s, p + 1 + 1, .setjmp (.inside element.function)⟩ := by
    refine if_pos ?_
    show (p : ℤ) + 1 < ((rest.length + 1 : ℕ) : ℤ) + 1
    omega
  have hsave : (⟨E, s, p + 1 + 1, .setjmp (.inside element.function)⟩ : Machine φ δ).step
      (element :: rest) d₂ =
      ⟨E, Function.update s (p + 1 + 1) (some ⟨.inside element.function, d₂⟩), p + 1 + 1,
        .zero (.inside element.function)⟩ := setjmp_inTable hin _ _
  have hback : (⟨E, Function.update s (p + 1 + 1) (some ⟨.inside element.function, d₂⟩), p + 1 + 1,
      .zero (.inside element.function)⟩ : Machine φ δ).step (element :: rest) d₃ =
      ⟨E, Function.update s (p + 1 + 1) (some ⟨.inside element.function, d₂⟩), p + 1 + 1,
        .again .start⟩ := by
    show Machine.longjmp _ 0 = _
    rw [Machine.longjmp]
    simp only [Function.update_of_ne (show (0 : ℤ) ≠ p + 1 + 1 by omega), hstart]
  have hkeep : ∀ k : ℤ, k ≠ p + 1 + 1 →
      Function.update s (p + 1 + 1) (some ⟨.inside element.function, d₂⟩) k = s k :=
    fun k hk => Function.update_of_ne hk _ _
  rw [hcall, hsave, hback]
  refine ⟨rfl, rfl, by push_cast; rfl, ⟨e₀, (hkeep 0 (by omega)).trans hstart⟩,
    ⟨e₁, (hkeep 1 (by omega)).trans hidle⟩, fun q hq => ?_, fun k hk => ?_⟩
  · rcases Nat.lt_succ_iff_lt_or_eq.mp hq with hlt | rfl
    · obtain ⟨e, he⟩ := hinside q hlt
      exact ⟨e, (hkeep (q + 2) (by omega)).trans he⟩
    · refine ⟨d₂, ?_⟩
      rw [show (q : ℤ) + 2 = q + 1 + 1 by omega]
      exact Function.update_self _ _ _
  · refine (hkeep k ?_).trans (houtside k hk)
    rintro rfl
    exact hk hin

theorem looping_startUp {element : RtTask φ} {rest : List (RtTask φ)}
    (hentries : rest.length + 3 ≤ entries) (p : ℕ) (hp : p ≤ rest.length + 1) :
    Looping element entries (startUp (element :: rest) entries slots d (4 + 3 * p)) p := by
  induction p with
  | zero => exact looping_first element (by omega)
  | succ p ih => exact (ih (by omega)).pass (by omega) hentries _ _ _

/-- After one pass for each task `rt_start` hands over. -/
theorem startUp_handOver {element : RtTask φ} {rest : List (RtTask φ)}
    (hentries : rest.length + 3 ≤ entries) :
    ∃ m : Machine φ δ, Looping element entries m (rest.length + 1) ∧
      startUp (element :: rest) entries slots d (4 + 3 * (rest.length + 1) + 1) =
        { m with runningId := 0, control := .handOver } := by
  have h : Looping element entries
      (startUp (element :: rest) entries slots d (4 + 3 * (rest.length + 1)))
      (rest.length + 1) := looping_startUp hentries (rest.length + 1) (Nat.le_refl _)
  refine ⟨_, h, ?_⟩
  rw [startUp, Machine.step, h.control]
  refine if_neg ?_
  rw [h.runningId, List.length_cons]
  exact lt_irrefl _

theorem step_handOver {m : Machine φ δ} (h : m.control = .handOver) (d : δ) :
    m.step tasks d = m := by
  unfold Machine.step
  rw [h]

/-- What it hands over stays. -/
theorem startUp_add {n : ℕ} (h : (startUp tasks entries slots d n).control = .handOver) (k : ℕ) :
    startUp tasks entries slots d (n + k) = startUp tasks entries slots d n := by
  induction k with
  | zero => rfl
  | succ k ih =>
    rw [← Nat.add_assoc, startUp, ih]
    exact step_handOver h _

/-! ## Switches -/

/-- The scheduler with `rt_jmp`. -/
structure Kernel (φ δ : Type) where
  sched : Sched φ
  slots : Int → Option (Context φ δ)

namespace Kernel

variable (k : Kernel φ δ) (d : ℕ → δ)

/-- The context of a call of `rt_context_switch`, as `setjmp(rt_jmp[0])` saves it. -/
def called (d : δ) : Context φ δ := ⟨.contextSwitch, d⟩

/-- `rt_context_switch` with the contexts: what it leaves, and what it continues with. -/
def switch (d : δ) : Kernel φ δ × Option (Context φ δ) :=
  let slots := Function.update k.slots 0 (some (called d))
  let sched := k.sched.contextSwitch
  (⟨sched, slots⟩, slots (sched.runningId + 2))

/-- The kernel before call number `n`. -/
def run : ℕ → Kernel φ δ
  | 0 => k
  | n + 1 => ((run n).switch (d n)).1

/-- What call number `n` continues with. -/
def continues (n : ℕ) : Option (Context φ δ) := ((k.run d n).switch (d n)).2

/-- The slot of a task, or of idle: its number and 2. -/
def slotOf (s : Sched φ) (p : Option ℕ) : Int :=
  (match p with
    | none => s.idle
    | some j => s.tasks.getD j s.idle).id + 2

theorem run_sched (n : ℕ) : (k.run d n).sched = k.sched.run n := by
  induction n with
  | zero => rfl
  | succ n ih =>
    show (k.run d n).sched.contextSwitch = _
    rw [ih]
    rfl

theorem run_slots {j : ℤ} (hj : j ≠ 0) (n : ℕ) : (k.run d n).slots j = k.slots j := by
  induction n with
  | zero => rfl
  | succ n ih => exact (Function.update_of_ne hj _ _).trans ih

theorem run_idle_id (s : Sched φ) (n : ℕ) : (s.run n).idle.id = s.idle.id := by
  induction n with
  | zero => rfl
  | succ n ih => exact (Sched.contextSwitch_idle_id _).trans ih

variable {k}

/-- Every call continues with what the slot of the selected task held before the run. -/
theorem continues_eq (hv : k.sched.Valid) (hidle : k.sched.idle.id = -1)
    (hids : ∀ t ∈ k.sched.tasks, 0 ≤ t.id) (n : ℕ) :
    k.continues d n = k.slots (slotOf k.sched (k.sched.run (n + 1)).running) := by
  have hvn := hv.run n
  obtain ⟨hnone, hsome⟩ := Sched.contextSwitch_runningId hvn
  have hid : (k.sched.run n).contextSwitch.runningId + 2 =
      slotOf k.sched (k.sched.run (n + 1)).running ∧
        slotOf k.sched (k.sched.run (n + 1)).running ≠ 0 := by
    cases hrun : (k.sched.run (n + 1)).running with
    | none =>
      rw [hnone hrun, run_idle_id]
      refine ⟨rfl, ?_⟩
      rw [slotOf, hidle]
      decide
    | some j =>
      obtain ⟨t, ht, -⟩ := (Sched.contextSwitch_spec hvn).picks.eligible j hrun
      obtain ⟨u, hu, hsame⟩ := hv.same_run n ht
      have hnonneg := hids u (List.mem_of_getElem? hu)
      have hslot : slotOf k.sched (some j) = u.id + 2 := by
        simp only [slotOf, List.getD, hu, Option.getD_some]
      rw [hsome j t hrun ht, hsame.id, hslot]
      exact ⟨rfl, by omega⟩
  obtain ⟨hslot, hne⟩ := hid
  show Function.update (k.run d n).slots 0 _ ((k.run d n).sched.contextSwitch.runningId + 2) = _
  rw [run_sched, hslot, Function.update_of_ne hne, run_slots _ _ hne]

end Kernel

end HfRisc.Rt
