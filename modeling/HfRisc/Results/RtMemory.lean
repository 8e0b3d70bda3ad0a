import HfRisc.Rt.MemorySpec
import Mathlib.Logic.Relation

/-!
# Memory for tasks

None of `rt_add_task`, `rt_start` and `rt_context_switch` tests what `malloc` returns before
it stores through it, or releases what it does not keep. `rt_start` finds memory for its
tables exactly if the tasks have left enough of the pool (`rt_start_nonnull`); `rt_add_task`
leaves no trace exactly if it is refused before it asks for memory, or gets all it asks for
(`rt_add_task_trace`); and a context switch keeps the set of live blocks exactly if there
is no memory for one more record (`rt_context_switch_live`).
-/

namespace HfRisc.Results

open HfRisc.Lib HfRisc.Soft HfRisc.Rt

variable {z len fuel : ℕ} {s : Ram} {nodes : List ℕ} {suf : List Block}

/-! ## `rt_start` -/

/-- What is left of a free block of `R` bytes when a task, its name and its node are taken. -/
def left (R : ℕ) (q : Request ℕ) : ℕ := spend (spend (spend R 32) (align4 q.bytes.length)) 8

/-- The calls are accepted one after the other. -/
def Fit : ℕ → List (Request ℕ) → Prop
  | _, [] => True
  | R, q :: qs => (q.Valid ∧ 8 + 8 ≤ spend (spend R 32) (align4 q.bytes.length)) ∧ Fit (left R q) qs

instance decidableFit : (R : ℕ) → (qs : List (Request ℕ)) → Decidable (Fit R qs)
  | _, [] => isTrue trivial
  | R, q :: qs =>
    have := decidableFit (left R q) qs
    inferInstanceAs (Decidable (_ ∧ _))

/-- The requests of `rt_add_task` while nothing is released. -/
theorem tail_gets {e R : ℕ} (h : Tail e R suf) (q : Request ℕ) :
    Tail e (left R q) (gets e q suf).rest ∧
      ((gets e q suf).node = none ↔ ¬ 8 + 8 ≤ spend (spend R 32) (align4 q.bytes.length)) := by
  obtain ⟨h₁, -⟩ := h.serve 32
  obtain ⟨h₂, -⟩ := h₁.serve (align4 q.bytes.length)
  exact h₂.serve 8

theorem spend_le (R n : ℕ) : spend R n ≤ R := by
  rw [spend]
  split <;> omega

/-- A task that gets a node takes at least that. -/
theorem left_le {R : ℕ} {q : Request ℕ}
    (h : 8 + 8 ≤ spend (spend R 32) (align4 q.bytes.length)) : left R q + 16 ≤ R := by
  have h₁ := spend_le R 32
  have h₂ := spend_le (spend R 32) (align4 q.bytes.length)
  rw [left, spend.eq_1 _ 8, if_pos h]
  omega

/-- The calls leave their nodes in the list, and the rest of the pool behind the last block. -/
theorem addAll_spec (hz : Pool z len) (hfuel : len ≤ fuel) {qs : List (Request ℕ)} {R : ℕ}
    (h : Wired z len s nodes suf) (ht : Tail (sentinel z len) R suf)
    (hnames : ∀ q ∈ qs, q.bytes.length < 268435456) :
    (∀ s', Ram.addAll fuel qs s = some s' → ∃ nodes' suf', Wired z len s' nodes' suf' ∧
      Tail (sentinel z len) (qs.foldl left R) suf' ∧
      nodes'.length = nodes.length + qs.length ∧ qs.foldl left R + 16 * qs.length ≤ R) ∧
    (Fit R qs → ∃ s', Ram.addAll fuel qs s = some s') := by
  induction qs generalizing s nodes suf R with
  | nil =>
    refine ⟨fun s' hrun => ?_, fun _ => ⟨s, rfl⟩⟩
    cases hrun
    exact ⟨nodes, suf, h, ht, rfl, le_refl _⟩
  | cons q qs ih =>
    have hq := hnames q List.mem_cons_self
    by_cases hvalid : q.Valid
    · obtain ⟨s₁, hadd, h₁, -, -, -⟩ := h.addTask hz hfuel hvalid hq
      obtain ⟨ht₁, hnode⟩ := tail_gets ht q
      by_cases hnone : (gets (sentinel z len) q suf).node = none
      · -- without memory for the node the call fails, and the requests do not fit
        rw [if_pos hnone] at hadd
        have hrun : Ram.addAll fuel (q :: qs) s = none := by
          rw [Ram.addAll, hadd]
          rfl
        refine ⟨fun s' h => ?_, fun hfit => absurd hfit.1.2 (hnode.mp hnone)⟩
        rw [hrun] at h
        cases h
      · rw [if_neg hnone] at hadd
        obtain ⟨hspec, hex⟩ := ih h₁ ht₁ fun r hr => hnames r (List.mem_cons_of_mem q hr)
        have hrun : Ram.addAll fuel (q :: qs) s = Ram.addAll fuel qs s₁ := by
          rw [Ram.addAll, hadd]
          rfl
        have hroom := left_le (not_not.mp fun h => hnone (hnode.mpr h))
        rw [hrun]
        refine ⟨fun s' h => ?_, fun hfit => hex hfit.2⟩
        obtain ⟨nodes', suf', h', ht', hlen, hleft⟩ := hspec s' h
        obtain ⟨a, ha⟩ := Option.ne_none_iff_exists'.mp hnone
        rw [ha, Option.map_some, Option.toList_some, List.length_append,
          List.length_singleton] at hlen
        refine ⟨nodes', suf', h', ht', by rw [hlen, List.length_cons]; omega, ?_⟩
        rw [List.foldl_cons, List.length_cons]
        omega
    · have hrun : Ram.addAll fuel (q :: qs) s = none := by
        rw [Ram.addAll, addTask_of_not_valid hvalid]
        rfl
      refine ⟨fun s' h => ?_, fun hfit => absurd hfit.1.1 hvalid⟩
      rw [hrun] at h
      cases h

/-- The requests of `rt_start` while nothing is released. -/
theorem tail_startGets {e R : ℕ} (h : Tail e R suf) (n : ℕ) :
    Tail e (spend (spend (spend (spend (spend R 32) 32) ((n + 2) * 80)) 32) 32)
        (startGets e n suf).rest ∧
      ((startGets e n suf).jmp = none ∨ (startGets e n suf).idleTask = none ↔
        R < 80 * n + 328) := by
  obtain ⟨h₁, -⟩ := h.serve 32
  obtain ⟨h₂, -⟩ := h₁.serve 32
  obtain ⟨h₃, hjmp⟩ := h₂.serve ((n + 2) * 80)
  obtain ⟨h₄, -⟩ := h₃.serve 32
  obtain ⟨h₅, hidle⟩ := h₄.serve 32
  refine ⟨h₅, ?_⟩
  show (serve e ((n + 2) * 80) _).2 = none ∨ (serve e 32 _).2 = none ↔ _
  rw [hjmp, hidle]
  simp only [spend]
  split_ifs <;> omega

/-- `rt_start` after calls that all return 1 stores through null if they have not left enough. -/
theorem start_null (hz : Pool z 8192) (hfuel : 8192 ≤ fuel) (m : ℕ → ℕ)
    {qs : List (Request ℕ)} (hnames : ∀ q ∈ qs, q.bytes.length < 268435456)
    (hadd : (Ram.create m z 8192 fuel).bind (Ram.addAll fuel qs) = some s) (function name : ℕ)
    (regs : ℕ → ℕ) :
    ∃ s' nodes suf, Ram.start { s with through := [] } function name fuel regs = some s' ∧
      Wired z 8192 s' nodes suf ∧
      Tail (sentinel z 8192) (spend (spend (spend (spend (spend (qs.foldl left 8160) 32) 32)
        ((qs.length + 2) * 80)) 32) 32) suf ∧
      (0 ∈ s'.through ↔ qs.foldl left 8160 < 80 * qs.length + 328) := by
  obtain ⟨s₀, suf₀, hcreate, h₀, ht₀⟩ := create_spec hz hfuel (by decide) m
  rw [hcreate, Option.bind_some] at hadd
  obtain ⟨nodes, suf, h, ht, hlen, hleft⟩ := (addAll_spec hz hfuel h₀ ht₀ hnames).1 s hadd
  rw [List.length_nil, Nat.zero_add] at hlen
  change Tail _ (qs.foldl left 8160) suf at ht
  change qs.foldl left 8160 + 16 * qs.length ≤ 8160 at hleft
  have h' : Wired z 8192 { s with through := [] } nodes suf :=
    ⟨h.arena, h.linked, h.owned, h.nodup⟩
  obtain ⟨s', hstart, hwired, hnull⟩ := h'.start hz hfuel (by omega) function name regs
  obtain ⟨htail, hgets⟩ := tail_startGets ht nodes.length
  rw [hgets] at hnull
  rw [hlen] at htail hnull hwired
  refine ⟨s', nodes, _, hstart, hwired, htail, hnull.trans ?_⟩
  exact or_iff_right List.not_mem_nil

/-- After calls of `rt_add_task` that all return 1, `rt_start` does not store through null if
and only if they have left it 80 bytes for each task and 328 bytes. -/
theorem rt_start_nonnull (hz : Pool z 8192) (hfuel : 8192 ≤ fuel) (m : ℕ → ℕ)
    {qs : List (Request ℕ)} (hnames : ∀ q ∈ qs, q.bytes.length < 268435456)
    (hadd : (Ram.create m z 8192 fuel).bind (Ram.addAll fuel qs) = some s) (function name : ℕ)
    (regs : ℕ → ℕ) :
    (∃ s', Ram.start { s with through := [] } function name fuel regs = some s' ∧
        0 ∉ s'.through) ↔
      80 * qs.length + 328 ≤ qs.foldl left 8160 := by
  obtain ⟨s', -, -, hstart, -, -, hnull⟩ := start_null hz hfuel m hnames hadd function name regs
  constructor
  · rintro ⟨s'', hstart', hnot⟩
    obtain rfl : s' = s'' := Option.some.inj (hstart.symm.trans hstart')
    exact not_lt.mp fun hlt => hnot (hnull.mpr hlt)
  · intro hroom
    exact ⟨s', hstart, fun hmem => absurd hroom (not_le.mpr (hnull.mp hmem))⟩

/-- A pool at the start of RAM, which is at 0x40000000. -/
theorem pool₀ : Pool 1073741824 8192 :=
  ⟨⟨by decide, by decide, by decide, by decide, by decide⟩, by decide⟩

/-- The registry of a program that adds the tasks. -/
def added₀ (qs : List (Request ℕ)) : Option Ram :=
  (Ram.create (fun _ => 0) 1073741824 8192 8192).bind (Ram.addAll 8192 qs)

theorem exists_added₀ {qs : List (Request ℕ)} (hnames : ∀ q ∈ qs, q.bytes.length < 268435456)
    (hfit : Fit 8160 qs) : ∃ s, added₀ qs = some s := by
  obtain ⟨s₀, suf₀, hcreate, h₀, ht₀⟩ :=
    create_spec pool₀ (le_refl 8192) (by decide) fun _ => 0
  rw [added₀, hcreate, Option.bind_some]
  exact (addAll_spec pool₀ (le_refl 8192) h₀ ht₀ hnames).2 hfit

/-- A task as `main` adds it. -/
def mainTask (i : ℕ) : Request ℕ := ⟨1073741824, (i + 1) * 5, 2, 0, "_", .ready⟩

theorem mainTask_length (i : ℕ) : (mainTask i).bytes.length < 268435456 := by
  show ("_".toList.map Char.toNat).length < _
  decide

theorem rt_start_nonnull_one :
    ∃ s, added₀ [mainTask 0] = some s ∧
      ((∃ s', Ram.start { s with through := [] } 0 0 8192 (fun _ => 0) = some s' ∧
        0 ∉ s'.through) ↔ 80 * [mainTask 0].length + 328 ≤ [mainTask 0].foldl left 8160) := by
  obtain ⟨s, hs⟩ := @exists_added₀ [mainTask 0] (by decide) (by decide)
  exact ⟨s, hs, rt_start_nonnull pool₀ (le_refl 8192) (fun _ => 0) (by decide) hs 0 0 fun _ => 0⟩

/-- The 64 calls of `main` all return 1, and then `rt_start` stores through null. -/
theorem rt_start_main :
    ∃ s, added₀ ((List.range 64).map mainTask) = some s ∧
      ∃ s', Ram.start { s with through := [] } 0 0 8192 (fun _ => 0) = some s' ∧
        0 ∈ s'.through := by
  have hnames : ∀ q ∈ (List.range 64).map mainTask, q.bytes.length < 268435456 := by
    intro q hq
    obtain ⟨i, -, rfl⟩ := List.mem_map.mp hq
    exact mainTask_length i
  obtain ⟨s, hs⟩ := exists_added₀ hnames (by decide +kernel)
  obtain ⟨s', -, -, hstart, -, -, hnull⟩ := start_null pool₀ (le_refl 8192) (fun _ => 0) hnames hs
    0 0 fun _ => 0
  exact ⟨s, hs, s', hstart, hnull.mpr (by decide +kernel)⟩

/-! ## `rt_add_task` -/

/-- What is asked of a call of `rt_add_task`: if it returns 0 it leaves the list,
`rt_running_id` and the live blocks as they were, and it does not store through null. -/
structure NoTrace (fuel : ℕ) (s : Ram) (r : Ram × ℤ) : Prop where
  list : r.2 = 0 →
    Ram.elems r.1.heap.mem fuel r.1.listTask = Ram.elems s.heap.mem fuel s.listTask
  runningId : r.2 = 0 → r.1.runningId = s.runningId
  live : r.2 = 0 → ∀ p, p ∈ r.1.live ↔ p ∈ s.live
  nonnull : 0 ∉ r.1.through

/-- The requests of `rt_add_task` are all granted, but for one of no bytes. -/
def Granted3 (q : Request ℕ) (g : Gets) : Prop :=
  g.task ≠ none ∧ (g.name ≠ none ∨ q.bytes = []) ∧ g.node ≠ none

/-- A block that is given was not live. -/
theorem not_mem_of_grant {o : Option ℕ} {n a k : ℕ} {live : List (ℕ × ℕ)}
    (h : ((grant o n ((a, k) :: live)).map Prod.fst).Nodup) : (a, k) ∉ live := by
  have hcons : (((a, k) :: live).map Prod.fst).Nodup := by
    rw [grant] at h
    split at h
    · exact h
    · exact (List.nodup_cons.mp h).2
  intro hmem
  exact (List.nodup_cons.mp hcons).1 (List.mem_map_of_mem (f := Prod.fst) hmem)

/-- A task that gets no node stays allocated. -/
theorem leak_of_added {q : Request ℕ} {g : Gets} {s' : Ram} {a : ℕ}
    (h : Added z len q nodes g s s') (hnode : g.node = none) (htask : g.task = some a) :
    (a + 8, 32) ∈ s'.live ∧ (a + 8, 32) ∉ s.live := by
  have hlive : s'.live = grant g.name q.bytes.length ((a + 8, 32) :: s.live) := by
    rw [h.live, hnode, htask]
    rfl
  have hnodup := h.wired.arena.nodup
  rw [hlive] at hnodup
  refine ⟨?_, not_mem_of_grant hnodup⟩
  rw [hlive, grant]
  split
  · exact List.mem_cons_self
  · exact List.mem_cons_of_mem _ List.mem_cons_self

/-- `rt_add_task` leaves no trace and stores through no null pointer if and only if it refuses
the arguments, or the free blocks behind `last_free` have room for all it asks for. -/
theorem rt_add_task_trace (hz : Pool z len) (hfuel : len ≤ fuel) (h : Wired z len s nodes suf)
    (hthrough : s.through = []) (q : Request ℕ) (hname : q.bytes.length < 268435456) :
    (∃ r, s.addTask q fuel = some r ∧ NoTrace fuel s r) ↔
      (q.Valid → Granted3 q (gets (sentinel z len) q suf)) := by
  by_cases hq : q.Valid
  · obtain ⟨s', hrun, hadded⟩ := h.addTask hz hfuel hq hname
    have hnull := hadded.null
    rw [hthrough, or_iff_right List.not_mem_nil] at hnull
    constructor
    · rintro ⟨r, hr, htrace⟩ -
      obtain rfl := Option.some.inj (hrun.symm.trans hr)
      have hnot := not_or.mp fun hor => htrace.nonnull (hnull.mpr hor)
      refine ⟨hnot.1, ?_, fun hnode => ?_⟩
      · rw [not_and_or, not_not] at hnot
        exact hnot.2
      · -- The task that is not in the list stays allocated.
        have hzero : (if (gets (sentinel z len) q suf).node = none then (0 : ℤ) else 1) = 0 :=
          if_pos hnode
        obtain ⟨a, ha⟩ := Option.ne_none_iff_exists'.mp hnot.1
        obtain ⟨hmem, hnew⟩ := leak_of_added hadded hnode ha
        exact hnew ((htrace.live hzero _).mp hmem)
    · intro hgranted
      obtain ⟨htask, hname', hnode⟩ := hgranted hq
      rw [if_neg hnode] at hrun
      refine ⟨_, hrun, nofun, nofun, nofun, fun hmem => ?_⟩
      rcases hnull.mp hmem with hnone | ⟨hnone, hne⟩
      · exact htask hnone
      · exact hname'.elim (fun h => h hnone) hne
  · refine iff_of_true ⟨_, addTask_of_not_valid hq fuel, fun _ => rfl, fun _ => rfl,
      fun _ p => Iff.rfl, ?_⟩ fun hv => absurd hv hq
    show 0 ∉ s.through
    rw [hthrough]
    exact List.not_mem_nil

theorem rt_add_task_trace_one :
    ∃ s suf, added₀ [] = some s ∧ Wired 1073741824 8192 { s with through := [] } [] suf ∧
      ((∃ r, Ram.addTask { s with through := [] } (mainTask 0) 8192 = some r ∧
        NoTrace 8192 { s with through := [] } r) ↔
      ((mainTask 0).Valid →
        Granted3 (mainTask 0) (gets (sentinel 1073741824 8192) (mainTask 0) suf))) := by
  obtain ⟨s, suf, hcreate, h, -⟩ := create_spec pool₀ (le_refl 8192) (by decide) fun _ => 0
  have h' : Wired 1073741824 8192 { s with through := [] } [] suf :=
    ⟨h.arena, h.linked, h.owned, h.nodup⟩
  refine ⟨s, suf, ?_, h', rt_add_task_trace pool₀ (le_refl 8192) h' rfl _ (mainTask_length 0)⟩
  rw [added₀, hcreate]
  rfl

/-- A task with a name of 16 bytes. -/
def namedTask : Request ℕ := ⟨1073741824, 600, 2, 0, "0123456789abcdef", .ready⟩

/-- After 119 tasks of `main` there is memory for one more task and its name, but not for a
node: the call returns 0, and the task stays allocated. -/
theorem rt_add_task_leak :
    ∃ s, added₀ ((List.range 119).map mainTask) = some s ∧
      ∃ s' p, Ram.addTask { s with through := [] } namedTask 8192 = some (s', 0) ∧
        p ∈ s'.live ∧ p ∉ s.live := by
  have hnames : ∀ q ∈ (List.range 119).map mainTask, q.bytes.length < 268435456 := by
    intro q hq
    obtain ⟨i, -, rfl⟩ := List.mem_map.mp hq
    exact mainTask_length i
  obtain ⟨s₀, suf₀, hcreate, h₀, ht₀⟩ :=
    create_spec pool₀ (le_refl 8192) (by decide) fun _ => 0
  obtain ⟨hspec, hex⟩ := addAll_spec pool₀ (le_refl 8192) h₀ ht₀ hnames
  obtain ⟨s, hs⟩ := hex (by decide +kernel)
  obtain ⟨nodes, suf, h, ht, -, -⟩ := hspec s hs
  have hleft : ((List.range 119).map mainTask).foldl left (8192 - 32) = 68 := by decide +kernel
  rw [hleft] at ht
  have h' : Wired 1073741824 8192 { s with through := [] } nodes suf :=
    ⟨h.arena, h.linked, h.owned, h.nodup⟩
  obtain ⟨s', hrun, hadded⟩ := h'.addTask pool₀ (le_refl 8192) (q := namedTask) (by decide)
    (by decide)
  have hnode : (gets (sentinel 1073741824 8192) namedTask suf).node = none :=
    (tail_gets ht namedTask).2.mpr (by decide)
  obtain ⟨a, ha⟩ := Option.ne_none_iff_exists'.mp fun hnone =>
    (ht.serve 32).2.mp hnone (by decide)
  obtain ⟨hmem, hnew⟩ := leak_of_added hadded hnode ha
  refine ⟨s, ?_, s', (a + 8, 32), ?_, hmem, hnew⟩
  · rw [added₀, hcreate]
    exact hs
  · rw [if_pos hnode] at hrun
    exact hrun

/-! ## `rt_context_switch` -/

variable {φ : Type} {k k' : HeapSched φ}

/-- What a call does to the heap. -/
theorem call_arena (hz : Zone z len) (hfuel : len ≤ fuel) (h : Arena z len k.heap k.live suf)
    (hcall : k.Call fuel k') :
    k'.live = grant (serve (sentinel z len) 32 suf).2 32 k.live ∧
      Arena z len k'.heap k'.live (serve (sentinel z len) 32 suf).1 := by
  obtain ⟨heap, ptr, hrun, hlive, htouch⟩ := hcall.heap
  obtain ⟨heap', hrun', harena, -⟩ :=
    malloc_serve hz h (by decide : Fits32 32) hfuel
  rw [show align4 32 = 32 from rfl] at hrun' harena
  obtain ⟨rfl, rfl⟩ := Prod.mk.inj (Option.some.inj (hrun'.symm.trans hrun))
  have hlive' : k'.live = grant (serve (sentinel z len) 32 suf).2 32 k.live := hlive
  refine ⟨hlive', ?_⟩
  rw [← hlive'] at harena
  exact harena.touch hz htouch

/-- There is always a next call. -/
theorem exists_call (hz : Zone z len) (hfuel : len ≤ fuel) (h : Arena z len k.heap k.live suf) :
    ∃ k', k.Call fuel k' := by
  obtain ⟨heap, hrun, -, -⟩ := malloc_serve hz h (by decide : Fits32 32) hfuel
  exact ⟨⟨heap, _, k.sched.contextSwitch⟩, rfl, heap, _, hrun, rfl, Touches.refl _ _⟩

/-- Once a call has found no memory, no later one does. -/
theorem calls_arena (hz : Zone z len) (hfuel : len ≤ fuel) (h : Arena z len k.heap k.live suf)
    (hnone : (serve (sentinel z len) 32 suf).2 = none)
    (hcalls : Relation.ReflTransGen (HeapSched.Call fuel) k k') :
    ∃ suf', Arena z len k'.heap k'.live suf' ∧ (serve (sentinel z len) 32 suf').2 = none := by
  induction hcalls with
  | refl => exact ⟨suf, h, hnone⟩
  | tail _ hcall ih =>
    obtain ⟨suf', h', hnone'⟩ := ih
    exact ⟨_, (call_arena hz hfuel h' hcall).2, serve_again hnone'⟩

/-- A call that finds memory makes a new block live. -/
theorem call_grows (hz : Zone z len) (hfuel : len ≤ fuel) (h : Arena z len k.heap k.live suf)
    (hcall : k.Call fuel k') {a : ℕ} (ha : (serve (sentinel z len) 32 suf).2 = some a) :
    (a + 8, 32) ∈ k'.live ∧ (a + 8, 32) ∉ k.live := by
  obtain ⟨hlive, harena⟩ := call_arena hz hfuel h hcall
  have hgrant : k'.live = (a + 8, 32) :: k.live := by
    rw [hlive, ha]
    rfl
  have hnodup := harena.nodup
  rw [hgrant] at hnodup ⊢
  refine ⟨List.mem_cons_self, fun hmem => ?_⟩
  exact (List.nodup_cons.mp hnodup).1 (List.mem_map_of_mem (f := Prod.fst) hmem)

/-- In every run of calls each leaves the live blocks as they were, if and only if there is no
run of 48 free bytes behind `last_free` at its start. -/
theorem rt_context_switch_live (hz : Zone z len) (hfuel : len ≤ fuel)
    (h : Arena z len k.heap k.live suf) :
    (∀ k₁ k₂, Relation.ReflTransGen (HeapSched.Call fuel) k k₁ → k₁.Call fuel k₂ →
        ∀ p, p ∈ k₂.live ↔ p ∈ k₁.live) ↔
      ∀ r ∈ runs (sentinel z len) none suf, r.2 < r.1 + 48 := by
  have hserve : (serve (sentinel z len) 32 suf).2 = none ↔
      ∀ r ∈ runs (sentinel z len) none suf, r.2 < r.1 + 48 := serve_eq_none
  rw [← hserve]
  constructor
  · intro hall
    by_contra hsome
    obtain ⟨a, ha⟩ := Option.ne_none_iff_exists'.mp hsome
    obtain ⟨k', hcall⟩ := exists_call hz hfuel h
    obtain ⟨hmem, hnew⟩ := call_grows hz hfuel h hcall ha
    exact hnew ((hall k k' Relation.ReflTransGen.refl hcall _).mp hmem)
  · intro hnone k₁ k₂ hcalls hcall p
    obtain ⟨suf', h', hnone'⟩ := calls_arena hz hfuel h hnone hcalls
    rw [(call_arena hz hfuel h' hcall).1, hnone']
    rfl

/-- A zone of 48 bytes after `heap_init`: its free run has 40. -/
def narrow₀ : HeapSched Unit := ⟨heapInit (fun _ => 0) 16 48, [], start [] () 0 0⟩

/-- No call finds memory there, and each leaves the live blocks as they were. -/
theorem rt_context_switch_live_narrow :
    (∃ k, narrow₀.Call 48 k) ∧
      ∀ k₁ k₂, Relation.ReflTransGen (HeapSched.Call 48) narrow₀ k₁ → k₁.Call 48 k₂ →
        ∀ p, p ∈ k₂.live ↔ p ∈ k₁.live := by
  have hzone : Zone 16 48 := ⟨by decide, by decide, by decide, by decide, by decide⟩
  have harena : Arena 16 48 narrow₀.heap narrow₀.live [⟨16, false⟩] := arena_init hzone fun _ => 0
  exact ⟨exists_call hzone (le_refl 48) harena,
    (rt_context_switch_live hzone (le_refl 48) harena).mpr (by decide)⟩

/-- After `rt_create` and `rt_start` without a task, a context switch makes a block live. -/
theorem rt_context_switch_leak :
    ∃ s s', added₀ [] = some s ∧
      Ram.start { s with through := [] } 0 0 8192 (fun _ => 0) = some s' ∧
      ∃ (k : HeapSched Unit) (p : ℕ × ℕ),
        HeapSched.Call 8192 ⟨s'.heap, s'.live, start [] () 0 0⟩ k ∧ p ∈ k.live ∧ p ∉ s'.live := by
  have hnames : ∀ q ∈ ([] : List (Request ℕ)), q.bytes.length < 268435456 := nofun
  obtain ⟨s, hs⟩ := exists_added₀ hnames trivial
  obtain ⟨s', nodes, suf, hstart, h, ht, -⟩ := start_null pool₀ (le_refl 8192) (fun _ => 0) hnames
    hs 0 0 fun _ => 0
  obtain ⟨a, ha⟩ := Option.ne_none_iff_exists'.mp fun hnone =>
    (ht.serve 32).2.mp hnone (by decide)
  have harena : Arena 1073741824 8192 s'.heap s'.live suf := h.arena
  obtain ⟨k, hcall⟩ := exists_call (k := ⟨s'.heap, s'.live, start [] () 0 0⟩) pool₀.toZone
    (le_refl 8192) harena
  obtain ⟨hmem, hnew⟩ := call_grows pool₀.toZone (le_refl 8192) harena hcall ha
  exact ⟨s, s', hs, hstart, k, (a + 8, 32), hcall, hmem, hnew⟩

end HfRisc.Results
