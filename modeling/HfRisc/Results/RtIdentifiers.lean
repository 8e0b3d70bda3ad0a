import HfRisc.Rt.Contexts
import HfRisc.Rt.Registry

/-!
# The numbers of tasks

`rt_running_id` counts the tasks while they are registered and is the number of the
running one afterwards, `rt_del_task` takes a number for a position, and neither
`rt_add_task` nor `rt_start` tests what `malloc` returns. So the numbers are distinct and
index `rt_jmp` exactly if there is memory for the records and for `rt_jmp`, nothing but the
last tasks is deleted before `rt_start`, and no task is added later while its number is in
use (`rt_ids`); and `rt_del_task` deletes the task of its argument exactly if that task is at
the position of its number (`rt_del`).
-/

namespace HfRisc.Results

open HfRisc.Rt HfRisc.Rt.Sched

variable {φ : Type}

/-! ## Before `rt_start` -/

/-- Every pointer in the list leads to a task, and the tasks have distinct numbers. -/
def Distinct (elems : List (Option (RtTask φ))) : Prop :=
  none ∉ elems ∧ (elems.reduceOption.map (·.id)).Nodup

theorem Distinct.map_some {ts : List (RtTask φ)} :
    Distinct (ts.map some) ↔ (ts.map (·.id)).Nodup := by
  have hreduce : (ts.map some).reduceOption = ts := by simp [List.reduceOption]
  rw [Distinct, hreduce]
  exact and_iff_right (by simp)

/-- Tasks that are numbered by their position, up to a number. -/
theorem filter_id_lt {ts : List (RtTask φ)}
    (hids : ∀ (k : ℕ) (t : RtTask φ), ts[k]? = some t → t.id = k) (n : ℕ) :
    ts.filter (fun t => decide (t.id < (n : ℤ))) = ts.take n := by
  have htake : ∀ t ∈ ts.take n, decide (t.id < (n : ℤ)) = true := by
    intro t ht
    obtain ⟨k, hk⟩ := List.mem_iff_getElem?.mp ht
    rw [List.getElem?_take] at hk
    split at hk
    · rename_i hlt
      rw [hids k t hk, decide_eq_true_iff]
      exact_mod_cast hlt
    · cases hk
  have hdrop : ∀ t ∈ ts.drop n, ¬ decide (t.id < (n : ℤ)) = true := by
    intro t ht
    obtain ⟨k, hk⟩ := List.mem_iff_getElem?.mp ht
    rw [List.getElem?_drop] at hk
    rw [hids (n + k) t hk, decide_eq_true_iff]
    omega
  calc ts.filter (fun t => decide (t.id < (n : ℤ)))
      = (ts.take n ++ ts.drop n).filter fun t => decide (t.id < (n : ℤ)) := by
        rw [List.take_append_drop]
    _ = ts.take n := by
        rw [List.filter_append, List.filter_eq_self.mpr htake, List.filter_eq_nil_iff.mpr hdrop,
          List.append_nil]

/-- The tasks left have numbers below their count exactly if they are the first ones. -/
theorem id_lt_iff {ts all : List (RtTask φ)} (hsub : ts.Sublist all)
    (hids : ∀ (k : ℕ) (t : RtTask φ), all[k]? = some t → t.id = k) :
    (∀ t ∈ ts, t.id < ts.length) ↔ ts <+: all := by
  constructor
  · intro hlt
    have hself : ts.filter (fun t => decide (t.id < (ts.length : ℤ))) = ts :=
      List.filter_eq_self.mpr fun t ht => decide_eq_true (hlt t ht)
    have hle := hsub.filter fun t => decide (t.id < (ts.length : ℤ))
    rw [hself, filter_id_lt hids] at hle
    have hlen : (all.take ts.length).length = ts.length := by
      rw [List.length_take]
      exact min_eq_left hsub.length_le
    rw [hle.eq_of_length hlen.symm]
    exact List.take_prefix _ _
  · rintro ⟨rest, rfl⟩ t ht
    obtain ⟨k, hk⟩ := List.mem_iff_getElem?.mp ht
    have hlt : k < ts.length := (List.getElem?_eq_some_iff.mp hk).1
    rw [hids k t (by rw [List.getElem?_append_left hlt]; exact hk)]
    exact_mod_cast hlt

/-- Their indices are below the number of elements of `rt_jmp` if there is a table, too. -/
theorem index_lt_iff {ts : List (RtTask φ)} (hnonneg : ∀ t ∈ ts, 0 ≤ t.id) (jmp : ℕ) :
    (∀ t ∈ ts, t.id + 2 < jmpEntries ts.length jmp) ↔
      (ts = [] ∨ jmp ≠ 0) ∧ ∀ t ∈ ts, t.id < ts.length := by
  by_cases hjmp : jmp = 0
  · rw [jmpEntries, if_pos hjmp]
    constructor
    · intro hall
      have hnil : ts = [] := List.eq_nil_iff_forall_not_mem.mpr fun t ht => by
        have hlt := hall t ht
        have hpos := hnonneg t ht
        omega
      rw [hnil]
      exact ⟨.inl rfl, nofun⟩
    · rintro ⟨hnil | hne, -⟩
      · rw [hnil]
        exact nofun
      · exact absurd hjmp hne
  · rw [jmpEntries, if_neg hjmp, and_iff_right (.inr hjmp)]
    refine forall₂_congr fun t _ => ?_
    push_cast
    omega

theorem distinct_build (ops : List (Op φ)) : ((build ops).tasks.map (·.id)).Nodup :=
  List.pairwise_map.mpr ((build_sorted ops).imp fun hlt => hlt.ne)

/-! ## After `rt_start` -/

/-- Every call of `rt_add_task` that appends a task has memory for its record, and is made while
`rt_running_id` is not the number of a task in the list. -/
def FreshAdds (s : Sched φ) (es : List (Event φ)) : Prop :=
  ∀ (p : List (Event φ)) (q : Request φ) (executed : ℤ) (g : Grants),
    p ++ [.add q executed g] <+: es → q.Valid → g.node = true →
      g.record = true ∧ ∀ s', s.after p = some s' → ∀ t ∈ s'.tasks, t.id ≠ s'.runningId

theorem distinct_exec {s : Sched φ} (h : (s.tasks.map (·.id)).Nodup) (e : Event φ) :
    (∃ s', s.exec e = some s' ∧ (s'.tasks.map (·.id)).Nodup) ↔
      ∀ (q : Request φ) (executed : ℤ) (g : Grants), e = .add q executed g → q.Valid →
        g.node = true → g.record = true ∧ ∀ t ∈ s.tasks, t.id ≠ s.runningId := by
  cases e with
  | switch =>
    refine iff_of_true ⟨_, rfl, ?_⟩ fun q executed g heq => by cases heq
    rw [map_contextSwitch_id]
    exact h
  | add q executed g =>
    rw [exec, add_eq]
    by_cases hok : q.Valid ∧ g.node = true
    · rw [if_pos hok]
      by_cases hrecord : g.record = true
      · rw [if_pos hrecord]
        have hnodup : ((s.tasks ++ [q.task s.runningId executed]).map (·.id)).Nodup ↔
            ∀ t ∈ s.tasks, t.id ≠ s.runningId := by
          rw [List.map_append, List.nodup_append']
          constructor
          · rintro ⟨-, -, hdisj⟩ t ht heq
            exact hdisj (List.mem_map_of_mem ht) (heq ▸ List.mem_singleton_self _)
          · intro hfresh
            refine ⟨h, List.nodup_singleton _, fun i hi hi' => ?_⟩
            obtain ⟨t, ht, rfl⟩ := List.mem_map.mp hi
            exact hfresh t ht (List.mem_singleton.mp hi')
        constructor
        · rintro ⟨s', hs', hids⟩ q' executed' g' heq - -
          cases heq
          cases hs'
          exact ⟨hrecord, hnodup.mp hids⟩
        · intro hall
          exact ⟨_, rfl, hnodup.mpr (hall q executed g rfl hok.1 hok.2).2⟩
      · rw [if_neg hrecord]
        refine iff_of_false (by rintro ⟨s', hs', -⟩; cases hs') fun hall => hrecord ?_
        exact (hall q executed g rfl hok.1 hok.2).1
    · rw [if_neg hok]
      refine iff_of_true ⟨s, rfl, h⟩ fun q' executed' g' heq hvalid hnode => ?_
      cases heq
      exact absurd ⟨hvalid, hnode⟩ hok

/-- The numbers stay distinct over the events exactly if each task added has a record, and is given
a number that is not in use. -/
theorem distinct_after {s : Sched φ} (h : (s.tasks.map (·.id)).Nodup) (es : List (Event φ)) :
    (∀ p, p <+: es → ∃ s', s.after p = some s' ∧ (s'.tasks.map (·.id)).Nodup) ↔
      FreshAdds s es := by
  constructor
  · intro hall p q executed g hp hvalid hnode
    obtain ⟨s₁, hs₁, hids⟩ := hall p ((List.prefix_append p _).trans hp)
    have hnext := hall _ hp
    rw [Sched.after_append, hs₁, Option.bind_some] at hnext
    obtain ⟨hrecord, hfresh⟩ := (distinct_exec hids _).mp hnext q executed g rfl hvalid hnode
    refine ⟨hrecord, fun s' hs' => ?_⟩
    cases hs₁.symm.trans hs'
    exact hfresh
  · intro hfresh p hp
    induction p using List.reverseRecOn with
    | nil => exact ⟨s, rfl, h⟩
    | append_singleton p e ih =>
      obtain ⟨s₁, hs₁, hids⟩ := ih ((List.prefix_append p _).trans hp)
      rw [Sched.after_append, hs₁, Option.bind_some]
      refine (distinct_exec hids e).mpr ?_
      rintro q executed g rfl hvalid hnode
      obtain ⟨hrecord, hnew⟩ := hfresh p q executed g hp hvalid hnode
      exact ⟨hrecord, hnew s₁ hs₁⟩

/-! ## Over a whole run -/

theorem map_op_filter (ops : List (MemOp φ)) :
    (ops.filter MemOp.isAdd).map MemOp.op = (ops.map MemOp.op).filter Op.isAdd := by
  rw [List.filter_map]
  congr 1
  refine List.filter_congr fun op _ => ?_
  cases op <;> rfl

/-- Before `rt_start` the numbers are distinct exactly if every task in the list has a record. -/
theorem distinct_before (ops : List (MemOp φ)) :
    (∀ p, p <+: ops → Distinct (buildMem p).elems) ↔ ∀ op ∈ ops, op.HasRecord := by
  constructor
  · intro hall
    exact (holds_buildMem ops).2 fun p hp => (hall p hp).1
  · intro hall p hp
    have hholds := (holds_buildMem p).1 fun op hop => hall op (hp.subset hop)
    rw [hholds.elems, Distinct.map_some]
    exact distinct_build _

/-- Over every run, for all that `malloc` answers, the list has distinct numbers and `rt_start`
finds indices into `rt_jmp`, exactly if the calls have memory for their records and `rt_start` for
`rt_jmp`, the tasks left at `rt_start` are the first ones registered, and every task added after it
gets a number that is not in use. -/
theorem rt_ids (ops : List (MemOp φ)) (jmp : ℕ) (f : φ) (deadline executed : ℤ)
    (es : List (Event φ)) :
    ((∀ p, p <+: ops → Distinct (buildMem p).elems) ∧
      (∀ t, some t ∈ (buildMem ops).elems →
        t.id + 2 < jmpEntries (buildMem ops).elems.length jmp) ∧
      ∀ p, p <+: es → ∃ s,
        (start (buildMem ops).elems.reduceOption f deadline executed).after p = some s ∧
          (s.tasks.map (·.id)).Nodup) ↔
    (∀ op ∈ ops, op.HasRecord) ∧ ((buildMem ops).elems = [] ∨ jmp ≠ 0) ∧
      (buildMem ops).elems <+: (buildMem (ops.filter MemOp.isAdd)).elems ∧
      FreshAdds (start (buildMem ops).elems.reduceOption f deadline executed) es := by
  rw [distinct_before]
  refine and_congr_right fun hrecords => ?_
  have hholds := (holds_buildMem ops).1 hrecords
  have hadds := (holds_buildMem (ops.filter MemOp.isAdd)).1 fun op hop =>
    hrecords op (List.mem_of_mem_filter hop)
  have hnumbered := numbered_build (ops.map MemOp.op)
  have hids := distinct_build (ops.map MemOp.op)
  have hnonneg := build_nonneg (ops.map MemOp.op)
  rw [hholds.elems, hadds.elems, map_op_filter]
  have hreduce : ((build (ops.map MemOp.op)).tasks.map some).reduceOption =
      (build (ops.map MemOp.op)).tasks := by simp [List.reduceOption]
  have hindex : (∀ t, some t ∈ (build (ops.map MemOp.op)).tasks.map some →
      t.id + 2 < jmpEntries ((build (ops.map MemOp.op)).tasks.map some).length jmp) ↔
      ∀ t ∈ (build (ops.map MemOp.op)).tasks,
        t.id + 2 < jmpEntries (build (ops.map MemOp.op)).tasks.length jmp := by
    simp
  rw [hreduce, hindex, index_lt_iff hnonneg, id_lt_iff hnumbered.sub hnumbered.ids,
    List.prefix_map_iff_of_injective (Option.some_injective _), List.map_eq_nil_iff, and_assoc,
    distinct_after hids]

/-- A request that `rt_add_task` accepts. -/
def plain : Request Unit := ⟨(), 5, 1, 0, "1", .ready⟩

/-- A task whose memory is there. -/
def plainOp : MemOp Unit := .add plain 0 ⟨true, true⟩

/-- Two tasks, the first of which is deleted: the other one has index 3 into the three
elements of `rt_jmp`. And a task that calls `rt_add_task` while it runs gives the new one its own
number. -/
theorem rt_ids_deleted :
    (∃ t, some t ∈ (buildMem [plainOp, plainOp, .del 0]).elems ∧ t.id + 2 = 3 ∧
      jmpEntries (buildMem [plainOp, plainOp, .del 0]).elems.length 1073741824 = 3) ∧
    ∃ s, (start (buildMem [plainOp]).elems.reduceOption () 0 0).after
        [.switch, .add plain 0 ⟨true, true⟩] = some s ∧
      s.running = some 0 ∧ s.tasks.map (·.id) = [0, 0] :=
  ⟨⟨plain.task 1 0, List.mem_of_getElem? (i := 0) rfl, by decide, by decide⟩,
    ⟨_, rfl, by decide, by decide⟩⟩

/-! ## `rt_del_task` -/

/-- What is asked of `rt_del_task`: it removes the task with the number and returns 0, or
changes nothing and returns -1. -/
structure DeletesById (r : Registry φ) (id : ℤ) : Prop where
  found : (∃ t ∈ r.tasks, t.id = id) →
    r.del id = ({ r with tasks := r.tasks.filter fun t => decide (t.id ≠ id) }, 0)
  missing : (∀ t ∈ r.tasks, t.id ≠ id) → r.del id = (r, -1)

/-- Leaving out the one element at a position. -/
theorem filter_eq_eraseIdx {α : Type*} {p : α → Bool} {l : List α} {k : ℕ}
    (h : ∀ (i : ℕ) (x : α), l[i]? = some x → (p x = false ↔ i = k)) :
    l.filter p = l.eraseIdx k := by
  induction l generalizing k with
  | nil => rfl
  | cons x l ih =>
    cases k with
    | zero =>
      have hx := (h 0 x rfl).mpr rfl
      rw [List.filter_cons_of_neg (by rw [hx]; decide), List.eraseIdx_cons_zero]
      refine List.filter_eq_self.mpr fun y hy => ?_
      obtain ⟨i, hi⟩ := List.mem_iff_getElem?.mp hy
      by_contra hne
      exact absurd ((h (i + 1) y hi).mp (Bool.eq_false_of_not_eq_true hne)) (Nat.succ_ne_zero i)
    | succ k =>
      have hx : p x = true := by
        by_contra hne
        exact absurd ((h 0 x rfl).mp (Bool.eq_false_of_not_eq_true hne)) (Nat.succ_ne_zero k).symm
      rw [List.filter_cons_of_pos hx, List.eraseIdx_cons_succ]
      refine congrArg (x :: ·) (ih fun i y hi => ?_)
      rw [h (i + 1) y hi, Nat.succ_inj]

section Deletion

variable {r : Registry φ} {id : ℤ} {k : ℕ} {t : RtTask φ}

theorem del_position (h : k < r.tasks.length) :
    r.del k = ({ r with tasks := r.tasks.eraseIdx k }, 0) := by
  rw [Registry.del, if_pos ⟨by omega, by exact_mod_cast h⟩, Int.toNat_natCast]

/-- No task is at two positions. -/
theorem position_inj {i : ℕ} (h : (r.tasks.map (·.id)).Nodup) (hi : r.tasks[i]? = some t)
    (hk : r.tasks[k]? = some t) : i = k := by
  have hlt := (List.getElem?_eq_some_iff.mp hi).1
  exact (List.getElem?_inj hlt (List.Nodup.of_map _ h)).mp (hi.trans hk.symm)

/-- The task at the position of the call has the number of the call. -/
theorem DeletesById.id_eq (hr : (r.tasks.map (·.id)).Nodup) (h : DeletesById r k)
    (hk : r.tasks[k]? = some t) : t.id = k := by
  have hdel := del_position (List.getElem?_eq_some_iff.mp hk).1
  by_contra hne
  by_cases hex : ∃ u ∈ r.tasks, u.id = k
  · -- The call removes `t`, which has another number.
    have htasks : r.tasks.eraseIdx k = r.tasks.filter fun u => decide (u.id ≠ (k : ℤ)) :=
      congrArg (fun x => x.1.tasks) (hdel.symm.trans (h.found hex))
    have hkept : t ∈ r.tasks.eraseIdx k := by
      rw [htasks, List.mem_filter]
      exact ⟨List.mem_of_getElem? hk, decide_eq_true hne⟩
    obtain ⟨i, hi, hik⟩ := List.mem_eraseIdx_iff_getElem?.mp hkept
    exact hi (position_inj hr hik hk)
  · have hmiss := h.missing fun u hu heq => hex ⟨u, hu, heq⟩
    rw [hdel] at hmiss
    have hret : (0 : ℤ) = -1 := congrArg Prod.snd hmiss
    cases hret

/-- The task with the number of the call is at the position of the call. -/
theorem DeletesById.position_eq (h : DeletesById r id) (hk : r.tasks[k]? = some t)
    (hid : t.id = id) : (k : ℤ) = id := by
  by_contra hne
  have hfound := h.found ⟨t, List.mem_of_getElem? hk, hid⟩
  rw [Registry.del] at hfound
  split at hfound
  · -- A task named by `id` at another position is not the one that goes.
    rename_i hin
    have htasks : r.tasks.eraseIdx id.toNat = r.tasks.filter fun u => decide (u.id ≠ id) :=
      congrArg (fun x => x.1.tasks) hfound
    have hkept : t ∈ r.tasks.eraseIdx id.toNat :=
      List.mem_eraseIdx_iff_getElem?.mpr ⟨k, by omega, hk⟩
    rw [htasks, List.mem_filter] at hkept
    exact of_decide_eq_true hkept.2 hid
  · have hret : (-1 : ℤ) = 0 := congrArg Prod.snd hfound
    cases hret

theorem deletesById_of_positions
    (h : ∀ (k : ℕ) (t : RtTask φ), r.tasks[k]? = some t → ((k : ℤ) = id ↔ t.id = id)) :
    DeletesById r id where
  found := by
    rintro ⟨t, ht, hid⟩
    obtain ⟨k, hk⟩ := List.mem_iff_getElem?.mp ht
    obtain rfl := (h k t hk).mpr hid
    rw [del_position (List.getElem?_eq_some_iff.mp hk).1, filter_eq_eraseIdx]
    intro i u hi
    rw [decide_eq_false_iff_not, not_ne_iff, ← h i u hi, Nat.cast_inj]
  missing hmiss := by
    rw [Registry.del, if_neg]
    rintro ⟨hnonneg, hlt⟩
    have hpos : id.toNat < r.tasks.length := by omega
    refine hmiss _ (List.getElem_mem hpos) ?_
    exact (h _ _ (List.getElem?_eq_getElem hpos)).mp (by omega)

end Deletion

/-- After any calls of `rt_add_task` and `rt_del_task`, `rt_del_task` deletes by number exactly
if its argument is the position of the task with this number, or neither a position nor a
number. -/
theorem rt_del (ops : List (Op φ)) (id : ℤ) :
    DeletesById (build ops) id ↔
      ∀ (k : ℕ) (t : RtTask φ), (build ops).tasks[k]? = some t → ((k : ℤ) = id ↔ t.id = id) := by
  constructor
  · intro h k t hk
    constructor
    · rintro rfl
      exact h.id_eq (distinct_build ops) hk
    · exact h.position_eq hk
  · exact deletesById_of_positions

/-- Two tasks, the first of which has been deleted: a call for the other one returns -1 and
keeps it. -/
theorem rt_del_deleted :
    ¬ ∀ id : ℤ, DeletesById (build [.add plain 0 false, .add plain 0 false, .del 0]) id := by
  intro h
  have hfound := (h 1).found (by decide)
  have hret : ((build [.add plain 0 false, .add plain 0 false, .del 0]).del 1).2 = 0 := by
    rw [hfound]
  exact absurd hret (by decide)

end HfRisc.Results
