import HfRisc.Rt.Memory

/-!
# What the calls do to memory

The list of tasks is a chain of nodes (`Linked`), each a live block of its own, and every
call keeps it (`Wired`). With it, what `rt_add_task` and `rt_start` do is decided by the blocks
behind `last_free` (`addTask_spec`, `start_spec`).
-/

namespace HfRisc.Rt

open HfRisc.Lib HfRisc.Soft

/-! ## Chains -/

/-- The nodes of the list with its header at `lst`. -/
def Linked (m : ℕ → ℕ) (lst : ℕ) : List ℕ → Prop
  | [] => m (lst + 4) = 0
  | n :: rest => m (lst + 4) = n ∧ n ≠ 0 ∧ Linked m n rest

variable {m m' : ℕ → ℕ} {lst : ℕ} {nodes : List ℕ}

/-- A chain is in the `next` words of its nodes. -/
theorem Linked.frame (h : Linked m lst nodes) (hm : ∀ p ∈ lst :: nodes, m' (p + 4) = m (p + 4)) :
    Linked m' lst nodes := by
  induction nodes generalizing lst with
  | nil => exact (hm lst List.mem_cons_self).trans h
  | cons n rest ih =>
    obtain ⟨hn, hne, hrest⟩ := h
    exact ⟨(hm lst List.mem_cons_self).trans hn, hne,
      ih hrest fun p hp => hm p (List.mem_cons_of_mem lst hp)⟩

/-- The loop of `list_append` ends at the last node. -/
theorem Linked.lastNode {fuel : ℕ} (h : Linked m lst nodes) (hfuel : nodes.length < fuel) :
    Ram.lastNode m fuel lst = some ((lst :: nodes).getLast (List.cons_ne_nil _ _)) := by
  induction nodes generalizing lst fuel with
  | nil =>
    obtain ⟨fuel, rfl⟩ := Nat.exists_eq_add_of_lt hfuel
    have hend : m (lst + 4) = 0 := h
    rw [Ram.lastNode, if_neg (not_not.mpr hend)]
    rfl
  | cons n rest ih =>
    obtain ⟨fuel, rfl⟩ := Nat.exists_eq_add_of_lt hfuel
    obtain ⟨hn, hne, hrest⟩ := h
    rw [Ram.lastNode, if_pos (hn.trans_ne hne), hn, ih hrest (by rw [List.length_cons]; omega)]
    rfl

theorem Linked.countFrom {fuel : ℕ} (h : Linked m lst nodes) (hfuel : nodes.length < fuel) :
    Ram.countFrom m fuel lst = some nodes.length := by
  induction nodes generalizing lst fuel with
  | nil =>
    obtain ⟨fuel, rfl⟩ := Nat.exists_eq_add_of_lt hfuel
    have hend : m (lst + 4) = 0 := h
    rw [Ram.countFrom, if_neg (not_not.mpr hend)]
    rfl
  | cons n rest ih =>
    obtain ⟨fuel, rfl⟩ := Nat.exists_eq_add_of_lt hfuel
    obtain ⟨hn, hne, hrest⟩ := h
    rw [Ram.countFrom, if_pos (hn.trans_ne hne), hn, ih hrest (by rw [List.length_cons]; omega)]
    rfl

/-- A node is appended by a store to the last one. -/
theorem Linked.concat {t : ℕ} (h : Linked m lst nodes) (hnodup : (lst :: nodes).Nodup)
    (ht : t ≠ 0) (hend : m (t + 4) = 0) (hfresh : t ∉ lst :: nodes) :
    Linked (Function.update m ((lst :: nodes).getLast (List.cons_ne_nil _ _) + 4) t) lst
      (nodes ++ [t]) := by
  induction nodes generalizing lst with
  | nil =>
    refine ⟨Function.update_self _ _ _, ht, ?_⟩
    show Function.update m (lst + 4) t (t + 4) = 0
    rw [Function.update_of_ne]
    · exact hend
    · intro heq
      exact hfresh (by rw [Nat.add_right_cancel heq]; exact List.mem_cons_self)
  | cons n rest ih =>
    obtain ⟨hn, hne, hrest⟩ := h
    obtain ⟨hnot, hnodup'⟩ := List.nodup_cons.mp hnodup
    refine ⟨?_, hne, ih hrest hnodup' fun hmem => hfresh (List.mem_cons_of_mem _ hmem)⟩
    rw [List.getLast_cons (List.cons_ne_nil _ _), Function.update_of_ne]
    · exact hn
    · intro heq
      exact hnot (Nat.add_right_cancel heq ▸ List.getLast_mem _)

/-! ## Stores -/

namespace Ram

variable {s : Ram} {p i : ℕ} {l : List (ℕ × ℕ)} {bs : List ℕ}

@[simp] theorem storeAll_live : (s.storeAll p l).live = s.live := by
  induction l generalizing s with
  | nil => rfl
  | cons w l ih => exact ih (s := s.store p w.1 w.2)

@[simp] theorem storeAll_listTask : (s.storeAll p l).listTask = s.listTask := by
  induction l generalizing s with
  | nil => rfl
  | cons w l ih => exact ih (s := s.store p w.1 w.2)

@[simp] theorem storeAll_jmp : (s.storeAll p l).jmp = s.jmp := by
  induction l generalizing s with
  | nil => rfl
  | cons w l ih => exact ih (s := s.store p w.1 w.2)

theorem zero_mem_storeAt {a v : ℕ} : 0 ∈ (s.storeAt p a v).through ↔ 0 ∈ s.through ∨ p = 0 := by
  rw [storeAt, List.mem_cons, eq_comm, or_comm]

/-- Stores go through null if there are any and the pointer is null. -/
theorem zero_mem_storeAll : 0 ∈ (s.storeAll p l).through ↔ 0 ∈ s.through ∨ p = 0 ∧ l ≠ [] := by
  induction l generalizing s with
  | nil =>
    exact (or_iff_left fun h => h.2 rfl).symm
  | cons w l ih =>
    have hrest : 0 ∈ (s.storeAll p (w :: l)).through ↔
        0 ∈ (s.store p w.1 w.2).through ∨ p = 0 ∧ l ≠ [] := ih
    have hcons : w :: l ≠ [] := List.cons_ne_nil w l
    rw [hrest, store, zero_mem_storeAt]
    tauto

@[simp] theorem strncpy_live : (strncpy p i bs s).live = s.live := by
  induction bs generalizing s i with
  | nil => rfl
  | cons b bs ih => exact ih (s := s.storeByte p i b)

@[simp] theorem strncpy_listTask : (strncpy p i bs s).listTask = s.listTask := by
  induction bs generalizing s i with
  | nil => rfl
  | cons b bs ih => exact ih (s := s.storeByte p i b)

theorem zero_mem_strncpy : 0 ∈ (strncpy p i bs s).through ↔ 0 ∈ s.through ∨ p = 0 ∧ bs ≠ [] := by
  induction bs generalizing s i with
  | nil =>
    exact (or_iff_left fun h => h.2 rfl).symm
  | cons b bs ih =>
    have hrest : 0 ∈ (strncpy p i (b :: bs) s).through ↔
        0 ∈ (s.storeByte p i b).through ∨ p = 0 ∧ bs ≠ [] := ih
    have hcons : b :: bs ≠ [] := List.cons_ne_nil b bs
    rw [hrest, storeByte, zero_mem_storeAt]
    tauto

end Ram

/-! ## The pool -/

/-- The pool is in RAM, which begins at 0x40000000. -/
structure Pool (z len : ℕ) : Prop extends Zone z len where
  ram : 1073741824 ≤ z

/-- Memory with the list of tasks in it: its nodes, and the blocks behind `last_free`. -/
structure Wired (z len : ℕ) (s : Ram) (nodes : List ℕ) (suf : List Block) : Prop where
  arena : Arena z len s.heap s.live suf
  linked : Linked s.heap.mem s.listTask nodes
  owned : ∀ p ∈ s.listTask :: nodes, (p, 8) ∈ s.live
  nodup : (s.listTask :: nodes).Nodup

/-- What `malloc` changes besides memory. -/
structure Granted (o : Option ℕ) (n : ℕ) (s s' : Ram) : Prop where
  live : s'.live = grant o n s.live
  through : s'.through = s.through
  listTask : s'.listTask = s.listTask
  runningId : s'.runningId = s.runningId
  jmp : s'.jmp = s.jmp
  idleTask : s'.idleTask = s.idleTask

/-- What a block of `n` bytes may be stored through: null, or a live block that is not a node
of the list. -/
def Target (z : ℕ) (s : Ram) (nodes : List ℕ) (p n : ℕ) : Prop :=
  p = 0 ∧ n ≤ z ∨ (p, n) ∈ s.live ∧ p ∉ s.listTask :: nodes

namespace Wired

variable {z len fuel : ℕ} {s : Ram} {suf : List Block} {p n : ℕ}

/-- The list has fewer nodes than the zone has bytes. -/
theorem length_lt (hz : Zone z len) (h : Wired z len s nodes suf) : nodes.length < len := by
  obtain ⟨pre, hlayout, howned, -⟩ := h.arena
  have hsub : (s.listTask :: nodes) ⊆ (pre ++ suf).map fun b => b.start + 8 := by
    intro p hp
    obtain ⟨a, ha, hmem, -⟩ := howned.block (h.owned p hp)
    dsimp only at ha
    exact List.mem_map.mpr ⟨_, hmem, ha.symm⟩
  have hle := (h.nodup.subperm hsub).length_le
  have hlt := hlayout.length_lt hz
  rw [List.length_map, List.length_cons] at hle
  omega

theorem ne_zero (h : Wired z len s nodes suf) (hp : p ∈ s.listTask :: nodes) : p ≠ 0 := by
  have hin := (h.arena.inside (h.owned p hp)).1
  dsimp only at hin
  omega

/-- `malloc` keeps the list. -/
theorem alloc (hz : Pool z len) (h : Wired z len s nodes suf) (hsize : Fits32 n)
    (hfuel : len ≤ fuel) :
    ∃ s', s.alloc n fuel = some (s', pointer (serve (sentinel z len) (align4 n) suf).2) ∧
      Wired z len s' nodes (serve (sentinel z len) (align4 n) suf).1 ∧
      Granted (serve (sentinel z len) (align4 n) suf).2 n s s' := by
  obtain ⟨heap, hrun, harena, hframe⟩ := malloc_serve hz.toZone h.arena hsize hfuel
  refine ⟨{ s with heap, live := grant (serve (sentinel z len) (align4 n) suf).2 n s.live }, ?_,
    ⟨harena, h.linked.frame fun q hq => ?_, fun q hq => ?_, h.nodup⟩, rfl, rfl, rfl, rfl, rfl, rfl⟩
  · rw [Ram.alloc, hrun]
    rfl
  · exact hframe _ (h.owned q hq) (q + 4) (by show q ≤ q + 4; omega) (by show q + 4 < q + 8; omega)
  · show (q, 8) ∈ grant _ n s.live
    rw [grant]
    split
    · exact h.owned q hq
    · exact List.mem_cons_of_mem _ (h.owned q hq)

/-- The same for a size of whole words. -/
theorem allocWords (hz : Pool z len) (h : Wired z len s nodes suf) (hdvd : 4 ∣ n)
    (hsize : Fits32 n) (hfuel : len ≤ fuel) :
    ∃ s', s.alloc n fuel = some (s', pointer (serve (sentinel z len) n suf).2) ∧
      Wired z len s' nodes (serve (sentinel z len) n suf).1 ∧
      Granted (serve (sentinel z len) n suf).2 n s s' := by
  have halign : align4 n = n := by
    rw [Fits32] at hsize
    rw [align4_eq (by omega)]
    omega
  have halloc := h.alloc hz hsize hfuel
  rwa [halign] at halloc

/-- A store through a target keeps the list, to a word of the block. -/
theorem storeAt (hz : Pool z len) (h : Wired z len s nodes suf) (hp : Target z s nodes p n) {a : ℕ}
    (hlo : p ≤ a) (hhi : a < p + n) (v : ℕ) : Wired z len (s.storeAt p a v) nodes suf := by
  refine ⟨h.arena.store hz.toZone ?_ v, h.linked.frame fun q hq => ?_, h.owned, h.nodup⟩
  · rcases hp with ⟨rfl, hn⟩ | ⟨hlive, -⟩
    · exact .inr (by omega)
    · exact .inl ⟨_, hlive, hlo, hhi⟩
  · refine Function.update_of_ne ?_ _ _
    have hnode := h.owned q hq
    rcases hp with ⟨rfl, hn⟩ | ⟨hlive, hnot⟩
    · have hin := (h.arena.inside hnode).1
      dsimp only at hin
      omega
    · have hne : p ≠ q := fun heq => hnot (heq ▸ hq)
      have hsep := h.arena.disjoint hlive hnode hne
      dsimp only at hsep
      omega

/-- Stores to words of a block. -/
theorem storeAll (hz : Pool z len) {l : List (ℕ × ℕ)} (h : Wired z len s nodes suf)
    (hp : Target z s nodes p n) (hl : ∀ w ∈ l, w.1 < n) :
    Wired z len (s.storeAll p l) nodes suf := by
  induction l generalizing s with
  | nil => exact h
  | cons w l ih =>
    have hw := hl w List.mem_cons_self
    exact ih (h.storeAt hz hp (by omega) (by omega) w.2) hp
      fun u hu => hl u (List.mem_cons_of_mem w hu)

/-- The bytes of a string to a block. -/
theorem strncpy (hz : Pool z len) {bs : List ℕ} {i : ℕ} (h : Wired z len s nodes suf)
    (hp : Target z s nodes p n) (halign : 4 ∣ p) (hbs : i + bs.length ≤ n) :
    Wired z len (Ram.strncpy p i bs s) nodes suf := by
  induction bs generalizing s i with
  | nil => exact h
  | cons b bs ih =>
    rw [List.length_cons] at hbs
    exact ih (h.storeAt hz hp (by omega) (by omega) _) hp (by omega)

/-- The block that `malloc` has given, or null. -/
theorem target {s' : Ram} {o : Option ℕ} {suf' : List Block} (h : Wired z len s nodes suf)
    (h' : Wired z len s' nodes suf') (hs : Granted o n s s') (hn : n ≤ z) :
    Target z s' nodes (pointer o) n := by
  cases o with
  | none => exact .inl ⟨rfl, hn⟩
  | some q =>
    have hgrant : s'.live = (q + 8, n) :: s.live := hs.live
    refine .inr ⟨by rw [hgrant]; exact List.mem_cons_self, fun hmem => ?_⟩
    have hnodup := h'.arena.nodup
    rw [hgrant, List.map_cons, List.nodup_cons] at hnodup
    rw [hs.listTask] at hmem
    have hold := List.mem_map_of_mem (f := Prod.fst) (h.owned _ hmem)
    exact hnodup.1 hold

theorem aligned {s' : Ram} {o : Option ℕ} (h : Wired z len s' nodes suf) (hs : Granted o n s s') :
    4 ∣ pointer o := by
  cases o with
  | none => exact ⟨0, rfl⟩
  | some q =>
    have hgrant : s'.live = (q + 8, n) :: s.live := hs.live
    exact h.arena.aligned (p := (q + 8, n)) (by rw [hgrant]; exact List.mem_cons_self)

end Wired

/-- A target stays one when other blocks are given. -/
theorem Target.grant {z p n k : ℕ} {s s' : Ram} {o : Option ℕ} (h : Target z s nodes p n)
    (hs : Granted o k s s') : Target z s' nodes p n := by
  refine h.imp_right fun ⟨hmem, hnot⟩ => ⟨?_, by rw [hs.listTask]; exact hnot⟩
  rw [hs.live, Soft.grant]
  split
  · exact hmem
  · exact List.mem_cons_of_mem _ hmem

/-! ## The calls -/

variable {z len fuel : ℕ} {s : Ram} {suf : List Block}

/-- The last node of the list. -/
def lastOf (lst : ℕ) (nodes : List ℕ) : ℕ := (lst :: nodes).getLast (List.cons_ne_nil _ _)

theorem lastOf_mem : lastOf lst nodes ∈ lst :: nodes := List.getLast_mem _

/-- A fresh block behind the last node. -/
theorem Wired.concat (hz : Pool z len) (h : Wired z len s nodes suf) {t : ℕ} (ht : t ≠ 0)
    (hlive : (t, 8) ∈ s.live) (hfresh : t ∉ s.listTask :: nodes)
    (hend : s.heap.mem (t + 4) = 0) :
    Wired z len (s.store (lastOf s.listTask nodes) 4 t) (nodes ++ [t]) suf := by
  have hmem : ∀ p ∈ s.listTask :: (nodes ++ [t]), p ∈ s.listTask :: nodes ∨ p = t := by
    intro p hp
    rw [← List.cons_append, List.mem_append, List.mem_singleton] at hp
    exact hp
  refine ⟨h.arena.store hz.toZone (.inl ⟨_, h.owned _ lastOf_mem, ?_, ?_⟩) t,
    h.linked.concat h.nodup ht hend hfresh, fun p hp => ?_, ?_⟩
  · exact Nat.le_add_right _ _
  · show lastOf s.listTask nodes + 4 < lastOf s.listTask nodes + 8
    omega
  · rcases hmem p hp with hp | rfl
    · exact h.owned p hp
    · exact hlive
  · show (s.listTask :: (nodes ++ [t])).Nodup
    rw [← List.cons_append, List.nodup_append']
    refine ⟨h.nodup, List.nodup_singleton t, fun p hp hp' => ?_⟩
    rw [List.mem_singleton] at hp'
    exact hfresh (hp' ▸ hp)

/-- `list_append` appends a node if there is memory for it. -/
theorem Wired.listAppend (hz : Pool z len) (h : Wired z len s nodes suf) (hfuel : len ≤ fuel)
    (item : ℕ) :
    ∃ s', s.listAppend s.listTask item fuel =
        some (s', if (serve (sentinel z len) 8 suf).2 = none then -1 else 0) ∧
      Wired z len s' (nodes ++ ((serve (sentinel z len) 8 suf).2.map (· + 8)).toList)
        (serve (sentinel z len) 8 suf).1 ∧
      s'.live = grant (serve (sentinel z len) 8 suf).2 8 s.live ∧ s'.listTask = s.listTask ∧
      s'.runningId = s.runningId ∧ (0 ∈ s'.through ↔ 0 ∈ s.through) := by
  obtain ⟨s₁, hrun, h₁, hs₁⟩ := h.allocWords hz (by decide : 4 ∣ 8) (by decide) hfuel
  have hram := hz.ram
  have htarget := h.target h₁ hs₁ (by omega)
  rw [Ram.listAppend, hrun, Option.bind_eq_bind, Option.bind_some]
  cases hnode : (serve (sentinel z len) 8 suf).2 with
  | none =>
    rw [hnode] at hs₁
    refine ⟨s₁, rfl, ?_, hs₁.live, hs₁.listTask, hs₁.runningId, by rw [hs₁.through]⟩
    rw [Option.map_none, Option.toList_none, List.append_nil]
    exact h₁
  | some q =>
    rw [hnode] at hs₁ htarget
    have hne : q + 8 ≠ 0 := Nat.succ_ne_zero _
    obtain ⟨hlive, hfresh⟩ := htarget.resolve_left fun h => hne h.1
    -- The node is filled in, and found behind the last one.
    have h₂ : Wired z len (s₁.storeAll (q + 8) [(0, item), (4, 0)]) nodes
        (serve (sentinel z len) 8 suf).1 := h₁.storeAll hz htarget (by simp)
    have hlast := h₂.linked.lastNode ((h₂.length_lt hz.toZone).trans_le hfuel)
    have hlist : (s₁.storeAll (q + 8) [(0, item), (4, 0)]).listTask = s.listTask := hs₁.listTask
    have h₃ := h₂.concat hz hne (by rw [Ram.storeAll_live]; exact hlive) hfresh
      (Function.update_self _ _ _)
    rw [hlist] at hlast h₃
    refine ⟨_, ?_, h₃, hs₁.live, hlist, hs₁.runningId, ?_⟩
    · simp only [pointer_some, if_pos hne, hlast]
      rfl
    · have hnull : lastOf s.listTask nodes ≠ 0 := h.ne_zero lastOf_mem
      rw [Ram.store, Ram.zero_mem_storeAt, Ram.zero_mem_storeAll, hs₁.through]
      tauto

/-- What the three requests of `rt_add_task` get. -/
structure Gets where
  task : Option ℕ
  name : Option ℕ
  node : Option ℕ
  rest : List Block

/-- The requests for a task, its name and its node, from the blocks behind `last_free`. -/
def gets (e : ℕ) (q : Request ℕ) (suf : List Block) : Gets :=
  let r₁ := serve e 32 suf
  let r₂ := serve e (align4 q.bytes.length) r₁.1
  let r₃ := serve e 8 r₂.1
  ⟨r₁.2, r₂.2, r₃.2, r₃.1⟩

/-- A call with refused arguments changes nothing. -/
theorem addTask_of_not_valid {q : Request ℕ} (hq : ¬ q.Valid) (fuel : ℕ) :
    s.addTask q fuel = some (s, 0) := by
  rw [Ram.addTask]
  split
  · rfl
  rename_i hstate
  split
  · rfl
  rename_i hzero
  split
  · rfl
  rename_i hfits
  rw [not_and_or, not_ne_iff, not_ne_iff] at hstate
  rw [not_or] at hzero
  exact absurd ⟨hstate, hzero.1, hzero.2, not_lt.mp hfits⟩ hq

/-- Four stores, all but the third through one pointer. -/
theorem through_iff {t p n : Prop} : (((t ∨ p) ∨ p) ∨ n) ∨ p ↔ t ∨ p ∨ n := by
  tauto

/-- What `rt_add_task` does with accepted arguments. -/
structure Added (z len : ℕ) (q : Request ℕ) (nodes : List ℕ) (g : Gets) (s s' : Ram) : Prop where
  wired : Wired z len s' (nodes ++ (g.node.map (· + 8)).toList) g.rest
  live : s'.live = grant g.node 8 (grant g.name q.bytes.length (grant g.task 32 s.live))
  listTask : s'.listTask = s.listTask
  null : 0 ∈ s'.through ↔ 0 ∈ s.through ∨ g.task = none ∨ g.name = none ∧ q.bytes ≠ []

theorem Wired.addTask (hz : Pool z len) (h : Wired z len s nodes suf) (hfuel : len ≤ fuel)
    {q : Request ℕ} (hq : q.Valid) (hname : q.bytes.length < 268435456) :
    ∃ s', s.addTask q fuel =
        some (s', if (gets (sentinel z len) q suf).node = none then 0 else 1) ∧
      Added z len q nodes (gets (sentinel z len) q suf) s s' := by
  have hram := hz.ram
  obtain ⟨s₁, hrun₁, h₁, hs₁⟩ := h.allocWords hz (by decide : 4 ∣ 32) (by decide) hfuel
  have htask₁ := h.target h₁ hs₁ (by omega)
  set o₁ := (serve (sentinel z len) 32 suf).2 with ho₁
  -- The number is stored, and memory for the name asked for.
  have h₂ : Wired z len (s₁.store (pointer o₁) 4 (word s₁.runningId)) nodes _ :=
    h₁.storeAt hz htask₁ (by omega) (by omega) _
  obtain ⟨s₃, hrun₃, h₃, hs₃⟩ := h₂.alloc hz (n := q.bytes.length)
    (by rw [Fits32]; omega) hfuel
  set o₃ := (serve (sentinel z len) (align4 q.bytes.length)
    (serve (sentinel z len) 32 suf).1).2 with ho₃
  have htask₃ : Target z s₃ nodes (pointer o₁) 32 :=
    Target.grant (s := s₁.store (pointer o₁) 4 (word s₁.runningId)) htask₁ hs₃
  have hname₃ := h₂.target h₃ hs₃ (by omega)
  have halign := h₃.aligned hs₃
  have h₄ : Wired z len (s₃.store (pointer o₁) 8 (pointer o₃)) nodes _ :=
    h₃.storeAt hz htask₃ (by omega) (by omega) _
  set s₄ := s₃.store (pointer o₁) 8 (pointer o₃) with hs₄
  have hread : s₄.heap.mem (pointer o₁ + 8) = pointer o₃ := Function.update_self _ _ _
  -- The name is copied, and the other fields are stored.
  have h₅ : Wired z len (Ram.strncpy (pointer o₃) 0 q.bytes s₄) nodes _ :=
    h₄.strncpy hz (n := q.bytes.length) hname₃ halign (by omega)
  set s₅ := Ram.strncpy (pointer o₃) 0 q.bytes s₄ with hs₅
  have hlist₅ : s₅.listTask = s₄.listTask := Ram.strncpy_listTask
  have hlive₅ : s₅.live = s₄.live := Ram.strncpy_live
  have htask₅ : Target z s₅ nodes (pointer o₁) 32 := by
    rw [Target, hlist₅, hlive₅]
    exact htask₃
  have h₆ := h₅.storeAll hz (l := [(12, word q.period), (16, word q.capacity),
    (20, word q.deadline), (0, q.function), (24, q.state.code)]) htask₅ (by simp)
  set s₆ := s₅.storeAll (pointer o₁) [(12, word q.period), (16, word q.capacity),
    (20, word q.deadline), (0, q.function), (24, q.state.code)] with hs₆
  obtain ⟨s₇, hrun₇, h₇, hlive₇, hlist₇, hid₇, hnull₇⟩ := h₆.listAppend hz hfuel (pointer o₁)
  have hlive₆ : s₆.live = s₅.live := Ram.storeAll_live
  have hlist₆ : s₆.listTask = s₅.listTask := Ram.storeAll_listTask
  have hlive : s₇.live = grant (gets (sentinel z len) q suf).node 8
      (grant o₃ q.bytes.length (grant o₁ 32 s.live)) := by
    rw [hlive₇, hlive₆, hlive₅, hs₄]
    show grant _ 8 s₃.live = _
    rw [hs₃.live]
    show grant _ 8 (grant _ _ s₁.live) = _
    rw [hs₁.live]
    rfl
  have hlist : s₇.listTask = s.listTask := by
    rw [hlist₇, hlist₆, hlist₅, hs₄]
    show s₃.listTask = _
    rw [hs₃.listTask]
    exact hs₁.listTask
  have hnull : 0 ∈ s₇.through ↔ 0 ∈ s.through ∨ o₁ = none ∨ o₃ = none ∧ q.bytes ≠ [] := by
    rw [hnull₇, hs₆, Ram.zero_mem_storeAll, hs₅, Ram.zero_mem_strncpy, hs₄, Ram.store,
      Ram.zero_mem_storeAt, hs₃.through, Ram.store, Ram.zero_mem_storeAt, hs₁.through,
      pointer_eq_zero, pointer_eq_zero]
    simp only [ne_eq, not_false_eq_true, and_true, reduceCtorEq]
    exact through_iff
  have hrun : s.addTask q fuel = (s₆.listAppend s₆.listTask (pointer o₁) fuel).bind fun r =>
      if r.2 ≠ 0 then some (r.1, 0) else some ({ r.1 with runningId := r.1.runningId + 1 }, 1) := by
    rw [Ram.addTask, if_neg (fun h => hq.state.elim h.1 h.2),
      if_neg (not_or.mpr ⟨hq.period, hq.capacity⟩), if_neg (not_lt.mpr hq.fits), hrun₁,
      Option.bind_eq_bind, Option.bind_some]
    simp only [hrun₃, Option.bind_eq_bind, Option.bind_some, ← hs₄, hread, ← hs₅, ← hs₆]
  rw [hrun, hrun₇, Option.bind_some]
  by_cases hnode : (gets (sentinel z len) q suf).node = none
  · have hnone : (serve (sentinel z len) 8 (serve (sentinel z len) (align4 q.bytes.length)
      (serve (sentinel z len) 32 suf).1).1).2 = none := hnode
    rw [if_pos hnode, if_pos hnone]
    exact ⟨s₇, rfl, h₇, hlive, hlist, hnull⟩
  · have hsome : ¬ (serve (sentinel z len) 8 (serve (sentinel z len) (align4 q.bytes.length)
      (serve (sentinel z len) 32 suf).1).1).2 = none := hnode
    rw [if_neg hnode, if_neg hsome]
    exact ⟨{ s₇ with runningId := s₇.runningId + 1 }, rfl,
      ⟨h₇.arena, h₇.linked, h₇.owned, h₇.nodup⟩, hlive, hlist, hnull⟩

/-- `rt_create` makes an empty list, if there is memory for its header. -/
theorem create_spec (hz : Pool z len) (hfuel : len ≤ fuel) (hroom : 32 ≤ len) (m : ℕ → ℕ) :
    ∃ s suf, Ram.create m z len fuel = some s ∧ Wired z len s [] suf ∧
      Tail (sentinel z len) (len - 32) suf := by
  have harena := arena_init hz.toZone m
  have hend := Layout.sentinel_eq hz.toZone
  have htail : Tail (sentinel z len) (len - 16) [⟨z, false⟩] :=
    ⟨[], z, rfl, nofun, by omega⟩
  obtain ⟨htail', hnull⟩ := htail.serve 8
  obtain ⟨heap, hrun, harena', -⟩ := malloc_serve hz.toZone harena (by decide : Fits32 8) hfuel
  rw [show align4 8 = 8 from rfl] at hrun harena'
  obtain ⟨q, hq⟩ := Option.ne_none_iff_exists'.mp (fun h => hnull.mp h (by omega))
  have hspend : spend (len - 16) 8 = len - 32 := by
    rw [spend, if_pos (by omega)]
    omega
  rw [hspend] at htail'
  rw [hq] at hrun harena'
  have hlive : grant (some q) 8 [] = [(q + 8, 8)] := rfl
  rw [hlive] at harena'
  have hmem : ((q + 8, 8) : ℕ × ℕ) ∈ [((q + 8, 8) : ℕ × ℕ)] := List.mem_singleton_self _
  have hstore₁ := harena'.store hz.toZone (a := q + 8 + 4)
    (.inl ⟨_, hmem, by show q + 8 ≤ _; omega, by show _ < q + 8 + 8; omega⟩) 0
  have hstore₂ := hstore₁.store hz.toZone (a := q + 8 + 0)
    (.inl ⟨_, hmem, by show q + 8 ≤ _; omega, by show _ < q + 8 + 8; omega⟩) 0
  refine ⟨⟨{ heap with mem := Function.update (Function.update heap.mem (q + 8 + 4) 0) (q + 8) 0 },
    [(q + 8, 8)], [q + 8, q + 8], q + 8, 0, 0, 0, 0, 0⟩, _, ?_, ⟨hstore₂, ?_, fun p hp => ?_,
    List.nodup_singleton _⟩, htail'⟩
  · have halloc : Ram.alloc ⟨heapInit m z len, [], [], 0, 0, 0, 0, 0, 0⟩ 8 fuel =
        some (⟨heap, [(q + 8, 8)], [], 0, 0, 0, 0, 0, 0⟩, q + 8) := by
      rw [Ram.alloc, hrun]
      rfl
    rw [Ram.create, Ram.listInit, halloc]
    rfl
  · show Function.update (Function.update heap.mem (q + 8 + 4) 0) (q + 8) 0 (q + 8 + 4) = 0
    rw [Function.update_of_ne (by omega), Function.update_self]
  · rw [List.mem_singleton.mp hp]
    exact hmem

/-- What the requests of `rt_start` get for `rt_jmp` and `rt_idle_task`. -/
structure StartGets where
  jmp : Option ℕ
  idleTask : Option ℕ
  rest : List Block

def startGets (e count : ℕ) (suf : List Block) : StartGets :=
  let r₁ := serve e 32 suf
  let r₂ := serve e 32 r₁.1
  let r₃ := serve e ((count + 2) * 80) r₂.1
  let r₄ := serve e 32 r₃.1
  let r₅ := serve e 32 r₄.1
  ⟨r₃.2, r₅.2, r₅.1⟩

/-- What `rt_start` has asked for. -/
structure Reserved (z len : ℕ) (nodes : List ℕ) (g : StartGets) (s s' : Ram) : Prop where
  wired : Wired z len s' nodes g.rest
  through : s'.through = s.through
  jmp : s'.jmp = pointer g.jmp
  jmpTarget : Target z s' nodes s'.jmp ((nodes.length + 2) * 80)
  idleTask : s'.idleTask = pointer g.idleTask
  idleTarget : Target z s' nodes s'.idleTask 32

theorem Wired.startMemory (hz : Pool z len) (h : Wired z len s nodes suf) (hfuel : len ≤ fuel)
    (hcount : nodes.length < 1048576) :
    ∃ s', s.startMemory fuel = some s' ∧
      Reserved z len nodes (startGets (sentinel z len) nodes.length suf) s s' := by
  have hram := hz.ram
  have hwords : 4 ∣ 32 := by decide
  have hfits : Fits32 32 := by decide
  obtain ⟨s₁, hrun₁, h₁, hs₁⟩ := h.allocWords hz hwords hfits hfuel
  obtain ⟨s₂, hrun₂, h₂, hs₂⟩ := h₁.allocWords hz hwords hfits hfuel
  have hcountFrom := h₂.linked.countFrom ((h₂.length_lt hz.toZone).trans_le hfuel)
  obtain ⟨s₃, hrun₃, h₃, hs₃⟩ := h₂.allocWords hz (n := (nodes.length + 2) * 80) (by omega)
    (by rw [Fits32]; omega) hfuel
  have hjmp₃ := h₂.target h₃ hs₃ (by omega)
  set jmp := pointer (serve (sentinel z len) ((nodes.length + 2) * 80) _).2 with hjmp
  have h₃' : Wired z len { s₃ with jmp } nodes _ := ⟨h₃.arena, h₃.linked, h₃.owned, h₃.nodup⟩
  obtain ⟨s₄, hrun₄, h₄, hs₄⟩ := h₃'.allocWords hz hwords hfits hfuel
  set running := pointer (serve (sentinel z len) 32 (serve (sentinel z len)
    ((nodes.length + 2) * 80) _).1).2
  have h₄' : Wired z len { s₄ with runningTask := running } nodes _ :=
    ⟨h₄.arena, h₄.linked, h₄.owned, h₄.nodup⟩
  obtain ⟨s₅, hrun₅, h₅, hs₅⟩ := h₄'.allocWords hz hwords hfits hfuel
  have hidle₅ := h₄'.target h₅ hs₅ (by omega)
  have hjmp₄ : Target z s₄ nodes jmp ((nodes.length + 2) * 80) :=
    Target.grant (s := { s₃ with jmp }) hjmp₃ hs₄
  have hjmp₅ : Target z s₅ nodes jmp ((nodes.length + 2) * 80) :=
    Target.grant (s := { s₄ with runningTask := running }) hjmp₄ hs₅
  have hsame : s₅.jmp = jmp := hs₅.jmp.trans hs₄.jmp
  refine ⟨{ s₅ with idleTask := pointer (startGets (sentinel z len) nodes.length suf).idleTask },
    ?_, ⟨h₅.arena, h₅.linked, h₅.owned, h₅.nodup⟩, ?_, hsame, ?_, rfl, hidle₅⟩
  · simp only [Ram.startMemory, hrun₁, hrun₂, hcountFrom, hrun₃, hrun₄, hrun₅, Option.bind_eq_bind,
      Option.bind_some]
    rfl
  · show s₅.through = _
    rw [hs₅.through]
    show s₄.through = _
    rw [hs₄.through]
    show s₃.through = _
    rw [hs₃.through, hs₂.through, hs₁.through]
  · show Target z s₅ nodes s₅.jmp _
    rw [hsame]
    exact hjmp₅

/-- `rt_start` stores through null if and only if `rt_jmp` or `rt_idle_task` is null. -/
theorem Wired.start (hz : Pool z len) (h : Wired z len s nodes suf) (hfuel : len ≤ fuel)
    (hcount : nodes.length < 1048576) (function name : ℕ) (regs : ℕ → ℕ) :
    ∃ s', s.start function name fuel regs = some s' ∧
      Wired z len s' nodes (startGets (sentinel z len) nodes.length suf).rest ∧
      (0 ∈ s'.through ↔ 0 ∈ s.through ∨
        (startGets (sentinel z len) nodes.length suf).jmp = none ∨
        (startGets (sentinel z len) nodes.length suf).idleTask = none) := by
  obtain ⟨s₁, hrun, h₁, hthrough, hjmp, hjmpTarget, hidle, hidleTarget⟩ :=
    h.startMemory hz hfuel hcount
  have h₂ := h₁.storeAll hz (l := [(4, word (-1)), (8, name), (12, 65535), (16, word (-1)),
    (0, function), (24, State.sys.code)]) hidleTarget (by simp)
  set s₂ := s₁.storeAll s₁.idleTask [(4, word (-1)), (8, name), (12, 65535), (16, word (-1)),
    (0, function), (24, State.sys.code)] with hs₂
  have hjmp₂ : s₂.jmp = s₁.jmp := Ram.storeAll_jmp
  have hlive₂ : s₂.live = s₁.live := Ram.storeAll_live
  have hlist₂ : s₂.listTask = s₁.listTask := Ram.storeAll_listTask
  have htarget : Target z (s₁.startIdle function name) nodes s₂.jmp ((nodes.length + 2) * 80) := by
    show s₂.jmp = 0 ∧ _ ∨ (s₂.jmp, _) ∈ s₂.live ∧ s₂.jmp ∉ s₂.listTask :: nodes
    rw [hjmp₂, hlive₂, hlist₂]
    exact hjmpTarget
  have h₃ : Wired z len (s₁.startIdle function name) nodes _ :=
    ⟨h₂.arena, h₂.linked, h₂.owned, h₂.nodup⟩
  have h₄ := h₃.storeAll hz (l := Ram.saved.map fun o => (o, regs o)) htarget (by
    intro w hw
    obtain ⟨o, ho, rfl⟩ := List.mem_map.mp hw
    have hbound : ∀ o ∈ Ram.saved, o < 80 := by decide
    have hlt := hbound o ho
    show o < _
    omega)
  refine ⟨_, ?_, h₄, ?_⟩
  · rw [Ram.start, hrun]
    rfl
  · rw [Ram.zero_mem_storeAll, hjmp₂]
    show (0 ∈ s₂.through ∨ _) ↔ _
    rw [hs₂, Ram.zero_mem_storeAll, hjmp, hidle, hthrough, pointer_eq_zero, pointer_eq_zero,
      or_assoc, or_comm (a := _ ∧ _)]
    simp [Ram.saved]

end HfRisc.Rt
