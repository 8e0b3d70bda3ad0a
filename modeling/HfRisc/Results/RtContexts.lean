import HfRisc.Results.RtMemory
import HfRisc.Rt.Contexts

/-!
# Contexts of the tasks

What `rt_jmp` holds when `rt_start` (rt.c 102-142) hands over: every pass of its loop takes the
first element of the list and the next slot, so that slot 2 and those behind it, as many as there
are tasks, hold contexts of the first task's function (`rt_start_contexts`). And what a preempted
task continues with: `rt_context_switch` saves to slot 0, which nothing reads, so that it is
always the context of start-up (`rt_preempted_context`).
-/

namespace HfRisc.Results

open HfRisc.Lib HfRisc.Rt HfRisc.Soft

variable {φ δ : Type}

/-! ## Start-up -/

/-- Slot `id + 2` holds a context captured in the function of the task. -/
def OwnContext (slots : ℤ → Option (Context φ δ)) (t : RtTask φ) : Prop :=
  ∃ e, slots (t.id + 2) = some ⟨.inside t.function, e⟩

/-- `rt_start` hands over, and when it does every task has a context of its own function. -/
def Initialised (tasks : List (RtTask φ)) (entries : ℕ) (slots : ℤ → Option (Context φ δ))
    (d : ℕ → δ) : Prop :=
  ∃ n, (startUp tasks entries slots d n).control = .handOver ∧
    (∀ m < n, (startUp tasks entries slots d m).control ≠ .handOver) ∧
    ∀ t ∈ tasks, OwnContext (startUp tasks entries slots d n).slots t

/-- What is in the slots at the hand-over. -/
structure HandedOver (element : RtTask φ) (rest : List (RtTask φ))
    (slots : ℤ → Option (Context φ δ)) : Prop where
  start : ∃ e, slots 0 = some ⟨.start, e⟩
  idle : ∃ e, slots 1 = some ⟨.idle, e⟩
  inside : ∀ q < rest.length + 1, ∃ e, slots (q + 2) = some ⟨.inside element.function, e⟩
  outside : ∀ k : ℤ, ¬ (0 ≤ k ∧ k < (rest.length + 3 : ℕ)) → slots k = none

variable {element : RtTask φ} {rest : List (RtTask φ)} {slots : ℤ → Option (Context φ δ)}
  {d : ℕ → δ} {jmp n : ℕ}

theorem jmpEntries_cons (element : RtTask φ) (rest : List (RtTask φ)) (hjmp : jmp ≠ 0) :
    jmpEntries (element :: rest).length jmp = rest.length + 3 := by
  rw [jmpEntries, if_neg hjmp, List.length_cons]

/-- Without a table there is no hand-over. -/
theorem jmp_ne_zero {tasks : List (RtTask φ)}
    (hn : (startUp tasks (jmpEntries tasks.length jmp) slots d n).control = .handOver) :
    jmp ≠ 0 := by
  rintro rfl
  rw [jmpEntries, if_pos rfl] at hn
  cases n with
  | zero => cases hn
  | succ n =>
    rw [startUp_lost] at hn
    cases hn

theorem slots_handOver
    (hn : (startUp (element :: rest) (jmpEntries (element :: rest).length jmp) slots d n).control =
      .handOver) :
    HandedOver element rest
      (startUp (element :: rest) (jmpEntries (element :: rest).length jmp) slots d n).slots := by
  have hjmp := jmp_ne_zero hn
  rw [jmpEntries_cons element rest hjmp] at hn ⊢
  obtain ⟨m, hloop, hm⟩ := @startUp_handOver φ δ (rest.length + 3) slots d element rest (le_refl _)
  have hhand : (startUp (element :: rest) (rest.length + 3) slots d
      (4 + 3 * (rest.length + 1) + 1)).control = .handOver := by rw [hm]
  have hsame : startUp (element :: rest) (rest.length + 3) slots d n =
      { m with runningId := 0, control := .handOver } := by
    rw [← hm]
    rcases Nat.le_total n (4 + 3 * (rest.length + 1) + 1) with hle | hge
    · obtain ⟨k, hk⟩ := Nat.exists_eq_add_of_le hle
      rw [hk, startUp_add hn]
    · obtain ⟨k, rfl⟩ := Nat.exists_eq_add_of_le hge
      exact startUp_add hhand k
  rw [hsame]
  refine ⟨hloop.start, hloop.idle, hloop.inside, fun k hk => hloop.outside k ?_⟩
  rw [Machine.InTable, hloop.entries]
  exact hk

/-- A slot holds a context of a task's function only if it is that of a position in the list, and
the function that of the first task. -/
theorem HandedOver.own_iff (h : HandedOver element rest slots) (t : RtTask φ) :
    OwnContext slots t ↔
      0 ≤ t.id ∧ t.id < (element :: rest).length ∧ t.function = element.function := by
  rw [List.length_cons]
  constructor
  · rintro ⟨e, he⟩
    have hin : 0 ≤ t.id + 2 ∧ t.id + 2 < (rest.length + 3 : ℕ) := by
      by_contra hout
      rw [h.outside _ hout] at he
      cases he
    have hzero : t.id + 2 ≠ 0 := by
      intro heq
      obtain ⟨e', he'⟩ := h.start
      rw [heq, he'] at he
      cases he
    have hone : t.id + 2 ≠ 1 := by
      intro heq
      obtain ⟨e', he'⟩ := h.idle
      rw [heq, he'] at he
      cases he
    obtain ⟨q, hq⟩ := Int.eq_ofNat_of_zero_le (show 0 ≤ t.id by omega)
    obtain ⟨e', he'⟩ := h.inside q (by omega)
    rw [hq, he'] at he
    have hplace := congrArg Context.place (Option.some.inj he)
    exact ⟨by omega, by push_cast; omega, (Place.inside.inj hplace).symm⟩
  · rintro ⟨hnonneg, hlt, hfun⟩
    obtain ⟨q, hq⟩ := Int.eq_ofNat_of_zero_le hnonneg
    obtain ⟨e, he⟩ := h.inside q (by omega)
    refine ⟨e, ?_⟩
    rw [hq, he, hfun]

/-- `rt_start` gives every task a context of its own if and only if it has memory for `rt_jmp`,
and every task has the number of a position in the list and the function of the first one. -/
theorem initialised_iff {tasks : List (RtTask φ)} (hne : tasks ≠ []) (jmp : ℕ)
    (slots : ℤ → Option (Context φ δ)) (d : ℕ → δ) :
    Initialised tasks (jmpEntries tasks.length jmp) slots d ↔
      jmp ≠ 0 ∧ ∀ t ∈ tasks, 0 ≤ t.id ∧ t.id < tasks.length ∧
        t.function = (tasks.head hne).function := by
  classical
  cases tasks with
  | nil => exact absurd rfl hne
  | cons element rest =>
    rw [List.head_cons]
    constructor
    · rintro ⟨n, hn, -, hown⟩
      exact ⟨jmp_ne_zero hn, fun t ht => ((slots_handOver hn).own_iff t).mp (hown t ht)⟩
    · rintro ⟨hjmp, hall⟩
      have hex : ∃ n, (startUp (element :: rest) (jmpEntries (element :: rest).length jmp) slots
          d n).control = .handOver := by
        rw [jmpEntries_cons element rest hjmp]
        obtain ⟨m, -, hm⟩ :=
          @startUp_handOver φ δ (rest.length + 3) slots d element rest (le_refl _)
        exact ⟨_, by rw [hm]⟩
      refine ⟨Nat.find hex, Nat.find_spec hex, fun m hm => Nat.find_min hex hm, fun t ht => ?_⟩
      exact ((slots_handOver (Nat.find_spec hex)).own_iff t).mpr (hall t ht)

/-- From every heap in order, with a list of as many nodes as there are tasks: `rt_start` hands
over with a context of its own for every task, if and only if the free blocks have room for
`rt_jmp`, and every task has the number of a position in the list and the function of the first
one. -/
theorem rt_start_contexts {z fuel : ℕ} (hz : Pool z 8192) (hfuel : 8192 ≤ fuel) {s : Ram}
    {nodes : List ℕ} {suf : List Block} (h : Wired z 8192 s nodes suf) {tasks : List (RtTask φ)}
    (hcount : nodes.length = tasks.length) (hne : tasks ≠ []) (slots : ℤ → Option (Context φ δ))
    (d : ℕ → δ) :
    ∃ s', s.startMemory fuel = some s' ∧
      (Initialised tasks (jmpEntries tasks.length s'.jmp) slots d ↔
        (startGets (sentinel z 8192) tasks.length suf).jmp ≠ none ∧
          ∀ t ∈ tasks, 0 ≤ t.id ∧ t.id < tasks.length ∧
            t.function = (tasks.head hne).function) := by
  have hlength := h.length_lt hz.toZone
  obtain ⟨s', hrun, hreserved⟩ := h.startMemory hz hfuel (by omega)
  refine ⟨s', hrun, ?_⟩
  have hjmp := hreserved.jmp
  rw [hcount] at hjmp
  rw [initialised_iff hne, ne_eq, hjmp, pointer_eq_zero]

/-- Two tasks, of periods 5 and 10, with functions `f` and `g`. -/
def twoFunctions (f g : Bool) : Registry Bool :=
  (addTask (addTask create f 5 2 0 "1" .ready 0 false).1 g 10 4 0 "2" .ready 0 false).1

/-- With room for two tasks of one function, each gets a context of its own. -/
theorem rt_start_contexts_same :
    ∃ s s', added₀ [mainTask 0, mainTask 1] = some s ∧ s.startMemory 8192 = some s' ∧
      Initialised (twoFunctions true true).tasks
        (jmpEntries (twoFunctions true true).tasks.length s'.jmp) (fun _ => none) fun _ => () := by
  have hnames : ∀ q ∈ [mainTask 0, mainTask 1], q.bytes.length < 268435456 := by decide
  obtain ⟨s₀, suf₀, hcreate, h₀, ht₀⟩ := create_spec pool₀ (le_refl 8192) (by decide) fun _ => 0
  obtain ⟨hspec, hex⟩ := addAll_spec pool₀ (le_refl 8192) h₀ ht₀ hnames
  obtain ⟨s, hs⟩ := hex (by decide +kernel)
  obtain ⟨nodes, suf, h, ht, hlen, -⟩ := hspec s hs
  have hgets := (tail_startGets ht 2).2
  obtain ⟨s', hrun, hiff⟩ := rt_start_contexts pool₀ (le_refl 8192) h
    (show nodes.length = (twoFunctions true true).tasks.length from hlen) (by decide)
    (fun _ => none) fun _ => ()
  refine ⟨s, s', ?_, hrun, hiff.mpr ⟨fun hnone => ?_, by decide⟩⟩
  · rw [added₀, hcreate]
    exact hs
  · exact absurd (hgets.mp (.inl hnone)) (by decide +kernel)

/-- Two tasks that are not given what they need: with two functions, the slot of the second one
holds a context of the first one's; and if the first of two is deleted, that of the other one is
behind the end of `rt_jmp`. -/
theorem rt_start_contexts_second :
    ((startUp (twoFunctions true false).tasks 4 (fun _ => none) (fun _ => ()) 11).control =
        .handOver ∧
      (startUp (twoFunctions true false).tasks 4 (fun _ => none) (fun _ => ()) 11).slots 3 =
        some ⟨.inside true, ()⟩ ∧
      ¬ Initialised (twoFunctions true false).tasks 4 (fun _ => none) (fun _ => ())) ∧
    ¬ Initialised ((twoFunctions true true).del 0).1.tasks 3 (fun _ => none) (fun _ => ()) := by
  refine ⟨⟨by decide +kernel, by decide +kernel, fun h => ?_⟩, fun h => ?_⟩
  · have hall := ((initialised_iff (by decide) 1 _ _).mp h).2
    exact absurd hall (by decide)
  · have hall := ((initialised_iff (by decide) 1 _ _).mp h).2
    exact absurd hall (by decide)

/-! ## Preemption -/

/-- `p` runs when call `i` is made and another task is selected; call `j` is the next one
that selects `p`. -/
structure Preempted (s : Sched φ) (p : Option ℕ) (i j : ℕ) : Prop where
  before : (s.run i).running = p
  other : (s.run (i + 1)).running ≠ p
  later : i < j
  between : ∀ m < j, i < m → (s.run (m + 1)).running ≠ p
  again : (s.run (j + 1)).running = p

/-- No slot but the first has a context of `rt_context_switch` at the hand-over. -/
theorem HandedOver.place_ne (h : HandedOver element rest slots) {k : ℤ} (hk : k ≠ 0)
    {c : Context φ δ} (hc : slots k = some c) : c.place ≠ .contextSwitch := by
  obtain ⟨e, hidle⟩ := h.idle
  by_cases hin : 0 ≤ k ∧ k < (rest.length + 3 : ℕ)
  · by_cases hone : k = 1
    · rw [hone, hidle] at hc
      cases hc
      exact nofun
    · obtain ⟨q, rfl⟩ : ∃ q : ℕ, k = q + 2 := ⟨(k - 2).toNat, by omega⟩
      obtain ⟨e', he'⟩ := h.inside q (by omega)
      rw [he'] at hc
      cases hc
      exact nofun
  · rw [h.outside k hin] at hc
    cases hc

/-- A preempted task never continues with the context of the call that preempted it: it
continues with the one its slot got at start-up. -/
theorem rt_preempted_context (ops : List (Op φ)) (f : φ) (deadline executed : ℤ)
    {slots : ℤ → Option (Context φ δ)} {e : ℕ → δ} {jmp n : ℕ}
    (hn : (startUp (build ops).tasks (jmpEntries (build ops).tasks.length jmp) slots e n).control =
      .handOver) (d : ℕ → δ) {p : Option ℕ} {i j : ℕ}
    (hp : Preempted (start (build ops).tasks f deadline executed) p i j) :
    Kernel.continues ⟨start (build ops).tasks f deadline executed,
        (startUp (build ops).tasks (jmpEntries (build ops).tasks.length jmp) slots e n).slots⟩ d j =
        (startUp (build ops).tasks (jmpEntries (build ops).tasks.length jmp) slots e n).slots
          (Kernel.slotOf (start (build ops).tasks f deadline executed) p) ∧
      Kernel.continues ⟨start (build ops).tasks f deadline executed,
        (startUp (build ops).tasks (jmpEntries (build ops).tasks.length jmp) slots e n).slots⟩ d j ≠
        some (Kernel.called (d i)) := by
  have hids := build_nonneg ops
  have hv := valid_start (build_accepted ops) f deadline executed
  generalize (build ops).tasks = tasks at hids hv hn hp ⊢
  set table := startUp tasks (jmpEntries tasks.length jmp) slots e n with htable
  have hcontinues := Kernel.continues_eq (k := ⟨start tasks f deadline executed, table.slots⟩)
    (d := d) hv rfl hids j
  rw [hp.again] at hcontinues
  have hselected : ∀ m k, ((start tasks f deadline executed).run m).running = some k →
      ∃ t, tasks[k]? = some t := by
    intro m k hk
    obtain ⟨t, ht, -⟩ := (hv.run m).running k hk
    obtain ⟨u, hu, -⟩ := hv.same_run m ht
    exact ⟨u, hu⟩
  have hslot : Kernel.slotOf (start tasks f deadline executed) p ≠ 0 := by
    cases p with
    | none =>
      show (-1 : ℤ) + 2 ≠ 0
      decide
    | some k =>
      obtain ⟨t, ht⟩ := hselected (j + 1) k hp.again
      have hnonneg := hids t (List.mem_of_getElem? ht)
      have htask : (start tasks f deadline executed).tasks[k]? = some t := ht
      simp only [Kernel.slotOf, List.getD, htask, Option.getD_some]
      omega
  refine ⟨hcontinues, fun heq => ?_⟩
  have hcell : table.slots (Kernel.slotOf (start tasks f deadline executed) p) =
      some (Kernel.called (d i)) := hcontinues.symm.trans heq
  -- A task other than idle was selected, so the list is not empty.
  obtain ⟨m, k, hk⟩ : ∃ m k, ((start tasks f deadline executed).run m).running = some k := by
    cases p with
    | none => exact ⟨i + 1, Option.ne_none_iff_exists'.mp hp.other⟩
    | some k => exact ⟨j + 1, k, hp.again⟩
  obtain ⟨t, ht⟩ := hselected m k hk
  cases tasks with
  | nil => cases ht
  | cons element rest => exact (slots_handOver hn).place_ne hslot hcell rfl

/-- Two tasks of one function. -/
def sameFunction : List (Op Bool) :=
  [.add ⟨true, 5, 2, 0, "1", .ready⟩ 0 false, .add ⟨true, 10, 4, 0, "2", .ready⟩ 0 false]

/-- The kernel that starts with them. -/
def twoKernel : Kernel Bool ℕ :=
  ⟨start (build sameFunction).tasks true 0 0,
    (startUp (build sameFunction).tasks 4 (fun _ => none) id 11).slots⟩

theorem rt_preempted_context_two :
    Preempted (start (build sameFunction).tasks true 0 0) (some 1) 5 7 ∧
      Kernel.continues twoKernel id 7 ≠ some (Kernel.called 5) := by
  have hp : Preempted (start (build sameFunction).tasks true 0 0) (some 1) 5 7 :=
    ⟨by decide +kernel, by decide +kernel, by decide, by decide +kernel, by decide +kernel⟩
  have hn : (startUp (build sameFunction).tasks (jmpEntries (build sameFunction).tasks.length 1)
      (fun _ => none) id 11).control = .handOver := by decide +kernel
  exact ⟨hp, (rt_preempted_context sameFunction true 0 0 hn id hp).2⟩

/-- The second task is preempted by call 5, with 5 in the registers, and goes on at call 7
with what they held at step 8 of start-up. -/
theorem rt_preempted_context_old :
    Preempted (start (build sameFunction).tasks true 0 0) (some 1) 5 7 ∧
      Kernel.continues twoKernel id 7 = some ⟨.inside true, 8⟩ ∧
      Kernel.continues twoKernel id 7 ≠ some (Kernel.called 5) :=
  ⟨⟨by decide +kernel, by decide +kernel, by decide, by decide +kernel, by decide +kernel⟩,
    by decide +kernel, by decide +kernel⟩

end HfRisc.Results
