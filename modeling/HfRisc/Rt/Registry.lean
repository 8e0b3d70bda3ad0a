import HfRisc.Rt.Switch
import Mathlib.Data.List.ReduceOption
import Mathlib.Data.List.Sublists

/-!
# Calls of `rt_add_task` and `rt_del_task`

`rt_add_task` takes the number of a task from `rt_running_id`, which counts the accepted
calls; `rt_del_task` removes the task at a position of the list. So the tasks left are
some of the accepted ones, in their order, and a number is never given out twice
(`numbered_build`).
-/

namespace HfRisc.Rt

variable {φ : Type}

/-! ## The calls -/

/-- The arguments of `rt_add_task`. -/
structure Request (φ : Type) where
  function : φ
  period : Int
  capacity : Int
  deadline : Int
  name : String
  state : State

/-- `rt_add_task` with memory for the record, given its arguments, the content of the record and
whether `list_append` fails. Without that memory it is `Pointers.add`. -/
def Registry.add (r : Registry φ) (q : Request φ) (executed : Int) (fails : Bool) :
    Registry φ × Int :=
  addTask r q.function q.period q.capacity q.deadline q.name q.state executed fails

/-- `rt_del_task`, which is `list_remove` at position `id`. -/
def Registry.del (r : Registry φ) (id : Int) : Registry φ × Int :=
  if 0 ≤ id ∧ id < r.tasks.length then ({ r with tasks := r.tasks.eraseIdx id.toNat }, 0)
  else (r, -1)

/-- A call of one of them. -/
inductive Op (φ : Type)
  | add (q : Request φ) (executed : Int) (fails : Bool)
  | del (id : Int)

def Op.isAdd : Op φ → Bool
  | .add .. => true
  | .del _ => false

/-- The registry a call leaves. -/
def Registry.exec (r : Registry φ) : Op φ → Registry φ
  | .add q executed fails => (r.add q executed fails).1
  | .del id => (r.del id).1

/-- The registry that a program builds after `rt_create`. -/
def build (ops : List (Op φ)) : Registry φ := ops.foldl Registry.exec create

theorem build_append (ops : List (Op φ)) (op : Op φ) :
    build (ops ++ [op]) = (build ops).exec op := by
  rw [build, List.foldl_append]
  rfl

/-- A task is what an accepted call makes of its arguments. -/
def Request.task (q : Request φ) (id executed : Int) : RtTask φ where
  function := q.function
  id := id
  name := q.name
  period := q.period
  capacity := q.capacity
  deadline := q.deadline
  state := q.state
  executed := executed

/-- The arguments that `rt_add_task` lets through. -/
structure Request.Valid (q : Request φ) : Prop where
  state : q.state = .ready ∨ q.state = .blocked
  period : q.period ≠ 0
  capacity : q.capacity ≠ 0
  fits : q.capacity ≤ q.period

instance (q : Request φ) : Decidable q.Valid :=
  decidable_of_iff
    ((q.state = .ready ∨ q.state = .blocked) ∧ q.period ≠ 0 ∧ q.capacity ≠ 0 ∧
      q.capacity ≤ q.period)
    ⟨fun h => ⟨h.1, h.2.1, h.2.2.1, h.2.2.2⟩, fun h => ⟨h.state, h.period, h.capacity, h.fits⟩⟩

/-- What `rt_add_task` does. -/
theorem Registry.add_eq (r : Registry φ) (q : Request φ) (executed : Int) (fails : Bool) :
    r.add q executed fails =
      if q.Valid ∧ fails = false then
        (⟨r.tasks ++ [q.task r.runningId executed], r.runningId + 1⟩, 1)
      else (r, 0) := by
  rw [Registry.add, addTask]
  by_cases hstate : q.state ≠ .ready ∧ q.state ≠ .blocked
  · rw [if_pos hstate, if_neg fun h => h.1.state.elim hstate.1 hstate.2]
  rw [if_neg hstate]
  by_cases hzero : q.period = 0 ∨ q.capacity = 0
  · rw [if_pos hzero, if_neg fun h => hzero.elim h.1.period h.1.capacity]
  rw [if_neg hzero]
  by_cases hfits : q.period < q.capacity
  · rw [if_pos hfits, if_neg fun h => absurd h.1.fits (not_le.mpr hfits)]
  rw [if_neg hfits]
  cases fails with
  | true =>
    rw [if_pos rfl, if_neg fun h => by simp at h]
  | false =>
    rw [not_and_or, not_ne_iff, not_ne_iff] at hstate
    rw [not_or] at hzero
    rw [if_neg Bool.false_ne_true, if_pos ⟨⟨hstate, hzero.1, hzero.2, not_lt.mp hfits⟩, rfl⟩]
    rfl

/-! ## Numbers -/

/-- `r'` has kept all tasks: their numbers are their positions, and the tasks of `r`, which has
given out as many numbers, are some of them. -/
structure Numbered (r r' : Registry φ) : Prop where
  sub : r.tasks.Sublist r'.tasks
  count : r.runningId = r'.tasks.length
  count' : r'.runningId = r'.tasks.length
  ids : ∀ (k : ℕ) (t : RtTask φ), r'.tasks[k]? = some t → t.id = k

/-- Where a task is removed, its number stays given out. -/
theorem Numbered.del {r r' : Registry φ} (h : Numbered r r') (id : Int) :
    Numbered (r.del id).1 r' := by
  rw [Registry.del]
  split
  · exact ⟨(List.eraseIdx_sublist _ _).trans h.sub, h.count, h.count', h.ids⟩
  · exact h

theorem Numbered.add {r r' : Registry φ} (h : Numbered r r') (q : Request φ) (executed : Int)
    (fails : Bool) : Numbered (r.add q executed fails).1 (r'.add q executed fails).1 := by
  have hlength : ∀ t : RtTask φ, ((r'.tasks ++ [t]).length : ℤ) = r'.tasks.length + 1 := fun t => by
    rw [List.length_append]
    rfl
  rw [Registry.add_eq, Registry.add_eq]
  by_cases hok : q.Valid ∧ fails = false
  · rw [if_pos hok, if_pos hok]
    refine ⟨?_, ?_, ?_, fun k t hk => ?_⟩
    · show (r.tasks ++ [_]).Sublist (r'.tasks ++ [_])
      rw [h.count, h.count']
      exact h.sub.append (List.Sublist.refl _)
    · show r.runningId + 1 = ((r'.tasks ++ [_]).length : ℤ)
      rw [hlength, h.count]
    · show r'.runningId + 1 = ((r'.tasks ++ [_]).length : ℤ)
      rw [hlength, h.count']
    · -- the new task is behind the others, and its number is how many they are
      rcases Nat.lt_or_ge k r'.tasks.length with hlt | hge
      · rw [List.getElem?_append_left hlt] at hk
        exact h.ids k t hk
      · rw [List.getElem?_append_right hge, List.getElem?_singleton] at hk
        split at hk
        · have hcount := h.count'
          cases hk
          show r'.runningId = k
          omega
        · cases hk
  · rw [if_neg hok, if_neg hok]
    exact h

/-- A registry against the one without the removals, by induction on the calls. -/
theorem numbered_build (ops : List (Op φ)) :
    Numbered (build ops) (build (ops.filter Op.isAdd)) := by
  induction ops using List.reverseRecOn with
  | nil => exact ⟨List.Sublist.slnil, rfl, rfl, fun k t h => by simp [build, create] at h⟩
  | append_singleton ops op ih =>
    cases op with
    | del id =>
      have hfilter : (ops ++ [Op.del id]).filter Op.isAdd = ops.filter Op.isAdd := by
        rw [List.filter_append]
        exact List.append_nil _
      rw [hfilter, build_append]
      exact ih.del id
    | add q executed fails =>
      have hfilter : (ops ++ [Op.add q executed fails]).filter Op.isAdd =
          ops.filter Op.isAdd ++ [Op.add q executed fails] := by
        rw [List.filter_append]
        rfl
      rw [hfilter, build_append, build_append]
      exact ih.add q executed fails

/-- The numbers grow along the list. -/
theorem build_sorted (ops : List (Op φ)) :
    (build ops).tasks.Pairwise fun t u => t.id < u.id := by
  have hids := (numbered_build ops).ids
  refine List.Pairwise.sublist (numbered_build ops).sub
    (List.pairwise_iff_getElem.mpr fun i j hi hj hij => ?_)
  rw [hids i _ (List.getElem?_eq_getElem hi), hids j _ (List.getElem?_eq_getElem hj)]
  exact_mod_cast hij

theorem build_nonneg (ops : List (Op φ)) : ∀ t ∈ (build ops).tasks, 0 ≤ t.id := by
  intro t ht
  obtain ⟨k, hk⟩ := List.mem_iff_getElem?.mp ((numbered_build ops).sub.subset ht)
  rw [(numbered_build ops).ids k t hk]
  exact Int.natCast_nonneg k

/-- The tasks in the list are ones that `rt_add_task` lets through. -/
theorem build_accepted (ops : List (Op φ)) : ∀ t ∈ (build ops).tasks, t.Accepted := by
  induction ops using List.reverseRecOn with
  | nil =>
    intro t ht
    cases ht
  | append_singleton ops op ih =>
    rw [build_append]
    cases op with
    | del id =>
      rw [Registry.exec, Registry.del]
      split
      · exact fun t ht => ih t (List.mem_of_mem_eraseIdx ht)
      · exact ih
    | add q executed fails =>
      rw [Registry.exec, Registry.add_eq]
      split
      · rename_i hok
        intro t ht
        rcases List.mem_append.mp ht with hold | hnew
        · exact ih t hold
        · rw [List.mem_singleton.mp hnew]
          exact ⟨hok.1.state, hok.1.period, hok.1.capacity, hok.1.fits⟩
      · exact ih

/-! ## Memory for the calls -/

/-- What `malloc` finds for a call of `rt_add_task`: memory for the record, and for the node of
`list_append`. -/
structure Grants where
  record : Bool
  node : Bool

/-- The list as it is in memory, of pointers to records; `none` is the null pointer. -/
structure Pointers (φ : Type) where
  elems : List (Option (RtTask φ))
  runningId : Int

/-- `rt_add_task` (rt.c 158-182) does not test the pointer to the record: without memory for it the
null pointer is appended, a number is given out, and 1 is returned. -/
def Pointers.add (r : Pointers φ) (q : Request φ) (executed : Int) (g : Grants) :
    Pointers φ × Int :=
  if q.state ≠ .ready ∧ q.state ≠ .blocked then (r, 0)
  else if q.period = 0 ∨ q.capacity = 0 then (r, 0)
  else if q.period < q.capacity then (r, 0)
  else if g.node then
    ({ elems := r.elems ++ [if g.record then some (q.task r.runningId executed) else none]
       runningId := r.runningId + 1 }, 1)
  else (r, 0)

/-- `rt_del_task`. -/
def Pointers.del (r : Pointers φ) (id : Int) : Pointers φ × Int :=
  if 0 ≤ id ∧ id < r.elems.length then ({ r with elems := r.elems.eraseIdx id.toNat }, 0)
  else (r, -1)

/-- A call with the answers of `malloc`. -/
inductive MemOp (φ : Type)
  | add (q : Request φ) (executed : Int) (g : Grants)
  | del (id : Int)

def MemOp.isAdd : MemOp φ → Bool
  | .add .. => true
  | .del _ => false

/-- The call without the answer for the record. -/
def MemOp.op : MemOp φ → Op φ
  | .add q executed g => .add q executed (!g.node)
  | .del id => .del id

def Pointers.exec (r : Pointers φ) : MemOp φ → Pointers φ
  | .add q executed g => (r.add q executed g).1
  | .del id => (r.del id).1

/-- The list that a program builds after `rt_create`, whatever `malloc` answers. -/
def buildMem (ops : List (MemOp φ)) : Pointers φ := ops.foldl Pointers.exec ⟨[], 0⟩

theorem buildMem_append (ops : List (MemOp φ)) (op : MemOp φ) :
    buildMem (ops ++ [op]) = (buildMem ops).exec op := by
  rw [buildMem, List.foldl_append]
  rfl

/-- What `rt_add_task` does. -/
theorem Pointers.add_eq (r : Pointers φ) (q : Request φ) (executed : Int) (g : Grants) :
    r.add q executed g =
      if q.Valid ∧ g.node = true then
        (⟨r.elems ++ [if g.record then some (q.task r.runningId executed) else none],
          r.runningId + 1⟩, 1)
      else (r, 0) := by
  rw [Pointers.add]
  by_cases hstate : q.state ≠ .ready ∧ q.state ≠ .blocked
  · rw [if_pos hstate, if_neg fun h => h.1.state.elim hstate.1 hstate.2]
  rw [if_neg hstate]
  by_cases hzero : q.period = 0 ∨ q.capacity = 0
  · rw [if_pos hzero, if_neg fun h => hzero.elim h.1.period h.1.capacity]
  rw [if_neg hzero]
  by_cases hfits : q.period < q.capacity
  · rw [if_pos hfits, if_neg fun h => absurd h.1.fits (not_le.mpr hfits)]
  rw [if_neg hfits]
  rw [not_and_or, not_ne_iff, not_ne_iff] at hstate
  rw [not_or] at hzero
  have hvalid : q.Valid := ⟨hstate, hzero.1, hzero.2, not_lt.mp hfits⟩
  simp only [hvalid, true_and]

/-- The list holds the tasks of the registry, and no null pointer. -/
structure Pointers.Holds (r : Pointers φ) (r' : Registry φ) : Prop where
  elems : r.elems = r'.tasks.map some
  runningId : r.runningId = r'.runningId

/-- A call has its record if it appends one. -/
def MemOp.HasRecord : MemOp φ → Prop
  | .add q _ g => q.Valid → g.node = true → g.record = true
  | .del _ => True

/-- A call that has its record leaves no null pointer, and one that has not leaves one. -/
theorem Pointers.Holds.exec {r : Pointers φ} {r' : Registry φ} (h : r.Holds r') (op : MemOp φ) :
    (op.HasRecord → (r.exec op).Holds (r'.exec op.op)) ∧
      (¬ op.HasRecord → none ∈ (r.exec op).elems) := by
  cases op with
  | del id =>
    refine ⟨fun _ => ?_, fun hnot => absurd trivial hnot⟩
    rw [Pointers.exec, Pointers.del, MemOp.op, Registry.exec, Registry.del, h.elems,
      List.length_map]
    split
    · exact ⟨by rw [List.eraseIdx_map], h.runningId⟩
    · exact h
  | add q executed g =>
    rw [Pointers.exec, Pointers.add_eq, MemOp.op, Registry.exec, Registry.add_eq, MemOp.HasRecord]
    obtain ⟨record, node⟩ := g
    by_cases hvalid : q.Valid
    · cases node with
      | false =>
        rw [if_neg fun hok => Bool.false_ne_true hok.2, if_neg fun hok => by cases hok.2]
        exact ⟨fun _ => h, fun hnot => absurd (fun _ hn => by cases hn) hnot⟩
      | true =>
        have hnode : q.Valid ∧ (Grants.mk record true).node = true := ⟨hvalid, rfl⟩
        have hfails : q.Valid ∧ (!(Grants.mk record true).node) = false := ⟨hvalid, rfl⟩
        rw [if_pos hnode, if_pos hfails]
        cases record with
        | false =>
          refine ⟨fun hrecord => absurd (hrecord hvalid rfl) Bool.false_ne_true, fun _ => ?_⟩
          exact List.mem_append_right _ (List.mem_singleton_self _)
        | true =>
          refine ⟨fun _ => ⟨?_, congrArg (· + 1) h.runningId⟩, fun hnot => ?_⟩
          · show r.elems ++ [some (q.task r.runningId executed)] = _
            rw [h.elems, h.runningId, List.map_append]
            rfl
          · exact absurd (fun _ _ => rfl) hnot
    · rw [if_neg fun hok => hvalid hok.1, if_neg fun hok => hvalid hok.1]
      exact ⟨fun _ => h, fun hnot => absurd (fun hv => absurd hv hvalid) hnot⟩

/-- The list has no null pointer after any of the calls if and only if all have their record; then
it holds what `build` leaves. -/
theorem holds_buildMem (ops : List (MemOp φ)) :
    ((∀ op ∈ ops, op.HasRecord) → (buildMem ops).Holds (build (ops.map MemOp.op))) ∧
      ((∀ p, p <+: ops → none ∉ (buildMem p).elems) → ∀ op ∈ ops, op.HasRecord) := by
  induction ops using List.reverseRecOn with
  | nil => exact ⟨fun _ => ⟨rfl, rfl⟩, fun _ op hop => by cases hop⟩
  | append_singleton ops op ih =>
    constructor
    · intro hall
      rw [buildMem_append, List.map_append, List.map_singleton, build_append]
      exact ((ih.1 fun o ho => hall o (List.mem_append_left _ ho)).exec op).1
        (hall op (List.mem_append_right _ (List.mem_singleton_self op)))
    · intro hnone o ho
      have hold := ih.2 fun p hp => hnone p (hp.trans (List.prefix_append ops [op]))
      rcases List.mem_append.mp ho with hmem | hlast
      · exact hold o hmem
      · rw [List.mem_singleton.mp hlast]
        by_contra hnot
        refine hnone _ (List.prefix_refl _) ?_
        rw [buildMem_append]
        exact ((ih.1 hold).exec op).2 hnot

/-! ## After `rt_start` -/

/-- What happens after `rt_start`: a context switch, or a call of `rt_add_task`. -/
inductive Event (φ : Type)
  | switch
  | add (q : Request φ) (executed : Int) (g : Grants)

namespace Sched

variable (s : Sched φ)

/-- `rt_add_task` while the scheduler runs; `rt_running_id` is that of the scheduler. There is no
scheduler behind a call that appends a null pointer: the next switch reads through it. -/
def add (q : Request φ) (executed : Int) (g : Grants) : Option (Sched φ × Int) :=
  let r := Pointers.add ⟨s.tasks.map some, s.runningId⟩ q executed g
  if r.1.elems.all Option.isSome then
    some ({ s with tasks := r.1.elems.reduceOption, runningId := r.1.runningId }, r.2)
  else none

def exec : Event φ → Option (Sched φ)
  | .switch => some s.contextSwitch
  | .add q executed g => (s.add q executed g).map Prod.fst

/-- The scheduler after a sequence of events. -/
def after (es : List (Event φ)) : Option (Sched φ) := es.foldlM exec s

theorem after_append (es : List (Event φ)) (e : Event φ) :
    s.after (es ++ [e]) = (s.after es).bind (·.exec e) := by
  rw [after, List.foldlM_append]
  simp [after]

/-- `rt_add_task` gives the new task the number in `rt_running_id`. -/
theorem add_eq (q : Request φ) (executed : Int) (g : Grants) :
    s.add q executed g =
      if q.Valid ∧ g.node = true then
        if g.record = true then
          some ({ s with
            tasks := s.tasks ++ [q.task s.runningId executed]
            runningId := s.runningId + 1 }, 1)
        else none
      else some (s, 0) := by
  have hsome : (s.tasks.map some).all Option.isSome = true := by simp
  have hreduce : (s.tasks.map some).reduceOption = s.tasks := by
    simp [List.reduceOption]
  rw [add, Pointers.add_eq]
  by_cases hok : q.Valid ∧ g.node = true
  · rw [if_pos hok, if_pos hok]
    by_cases hrecord : g.record = true
    · simp only [if_pos hrecord, List.all_append, hsome, List.reduceOption_append, hreduce]
      rfl
    · simp only [if_neg hrecord, List.all_append, hsome]
      rfl
  · rw [if_neg hok, if_neg hok]
    simp only [hsome, hreduce]
    rfl

/-- Assignments to other fields keep the numbers. -/
theorem map_modify_id (ts : List (RtTask φ)) (k : ℕ) {f : RtTask φ → RtTask φ}
    (hf : ∀ t, (f t).id = t.id) : (ts.modify k f).map (·.id) = ts.map (·.id) := by
  refine List.ext_getElem? fun j => ?_
  rw [List.getElem?_map, List.getElem?_map, List.getElem?_modify]
  cases ts[j]? with
  | none => rfl
  | some t =>
    show some (if k = j then f t else t).id = some t.id
    split
    · rw [hf]
    · rfl

theorem map_assign_id {f : RtTask φ → RtTask φ} (hf : ∀ t, (f t).id = t.id) :
    (s.assign f).tasks.map (·.id) = s.tasks.map (·.id) := by
  rw [assign]
  cases s.running with
  | none => rfl
  | some k => exact map_modify_id s.tasks k hf

/-- A switch keeps the numbers. -/
theorem map_contextSwitch_id : s.contextSwitch.tasks.map (·.id) = s.tasks.map (·.id) := by
  have hcomplete : s.complete.tasks.map (·.id) = s.tasks.map (·.id) := by
    rw [complete]
    split
    · split
      · exact map_assign_id s fun t => rfl
      · rfl
    · rfl
  have hscan : (scan s.complete.time s.complete.tasks 0
      (s.complete.running, s.complete.current.period)).1.map (·.id) =
        s.complete.tasks.map (·.id) := by
    rw [scan_fst, List.map_map]
    exact List.map_congr_left fun t _ => RtTask.release_id
  rw [contextSwitch, ← hcomplete, ← hscan]
  exact map_assign_id _ fun t => rfl

end Sched

end HfRisc.Rt
