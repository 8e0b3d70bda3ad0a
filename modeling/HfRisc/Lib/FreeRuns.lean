import Mathlib.Data.List.TakeWhile
import Mathlib.Data.Nat.Notation

/-!
# Free runs and first fit

A zone of memory as its blocks in order, used or free, with its end. Adjacent free blocks
make up a run; `search` joins the runs it meets until one fits. It finds the first run
that fits (`search_target`), leaves the used blocks as they are (`search_used`), and every
run it has skipped is one block (`search_follows`).
-/

namespace HfRisc.Lib

/-- A block, which ends where the next one starts. -/
structure Block where
  start : ℕ
  used : Bool
deriving DecidableEq, Repr

/-- Where the first of the blocks starts, or the end of the zone. -/
def nextOf (e : ℕ) : List Block → ℕ
  | [] => e
  | b :: _ => b.start

@[simp] theorem nextOf_nil (e : ℕ) : nextOf e [] = e := rfl

@[simp] theorem nextOf_cons (e : ℕ) (b : Block) (bs : List Block) : nextOf e (b :: bs) = b.start :=
  rfl

/-- The maximal runs of free blocks, from start to end; a run may be open already. -/
def runs (e : ℕ) : Option ℕ → List Block → List (ℕ × ℕ)
  | none, [] => []
  | some q, [] => [(q, e)]
  | none, b :: rest => if b.used then runs e none rest else runs e (some b.start) rest
  | some q, b :: rest => if b.used then (q, b.start) :: runs e none rest else runs e (some q) rest

/-- What a search leaves: the blocks before and behind a run that fits, or all of them. -/
inductive Search
  | found (pre : List Block) (q : ℕ) (post : List Block)
  | full (all : List Block)

namespace Search

def push (b : Block) : Search → Search
  | found pre q post => found (b :: pre) q post
  | full all => full (b :: all)

/-- The blocks, with the run that was found as one of them. -/
def blocks : Search → List Block
  | found pre q post => pre ++ ⟨q, false⟩ :: post
  | full all => all

/-- The start of the run that was found. -/
def target : Search → Option ℕ
  | found _ q _ => some q
  | full _ => none

@[simp] theorem blocks_found (pre : List Block) (q : ℕ) (post : List Block) :
    (found pre q post).blocks = pre ++ ⟨q, false⟩ :: post := rfl

@[simp] theorem blocks_full (all : List Block) : (full all).blocks = all := rfl

@[simp] theorem target_found (pre : List Block) (q : ℕ) (post : List Block) :
    (found pre q post).target = some q := rfl

@[simp] theorem target_full (all : List Block) : (full all).target = none := rfl

@[simp] theorem blocks_push (b : Block) (r : Search) : (r.push b).blocks = b :: r.blocks := by
  cases r <;> rfl

@[simp] theorem target_push (b : Block) (r : Search) : (r.push b).target = r.target := by
  cases r <;> rfl

end Search

/-- Join the free blocks of each run up to the first run that fits. -/
def search (fits : ℕ → ℕ → Bool) (e : ℕ) : Option ℕ → List Block → Search
  | none, [] => .full []
  | some q, [] => if fits q e then .found [] q [] else .full [⟨q, false⟩]
  | none, b :: rest =>
    if b.used then (search fits e none rest).push b else search fits e (some b.start) rest
  | some q, b :: rest =>
    if b.used then
      if fits q b.start then .found [] q (b :: rest)
      else ((search fits e none rest).push b).push ⟨q, false⟩
    else search fits e (some q) rest

variable {fits : ℕ → ℕ → Bool} {e : ℕ}

/-- The first run that fits is found. -/
theorem search_target (cur : Option ℕ) (bs : List Block) :
    (search fits e cur bs).target =
      ((runs e cur bs).find? fun r => fits r.1 r.2).map Prod.fst := by
  induction bs generalizing cur with
  | nil =>
    cases cur with
    | none => rfl
    | some q => by_cases hfit : fits q e <;> simp [search, runs, hfit]
  | cons b rest ih =>
    cases cur with
    | none => by_cases hb : b.used <;> simp [search, runs, hb, ih]
    | some q =>
      by_cases hb : b.used
      · by_cases hfit : fits q b.start
        · simp [search, runs, hb, hfit]
        · simp [search, runs, hb, hfit, ih]
      · simp [search, runs, hb, ih]

/-- The used blocks stay. -/
theorem search_used (cur : Option ℕ) (bs : List Block) (a : ℕ) :
    ⟨a, true⟩ ∈ (search fits e cur bs).blocks ↔ ⟨a, true⟩ ∈ bs := by
  induction bs generalizing cur with
  | nil =>
    cases cur with
    | none => rfl
    | some q => by_cases hfit : fits q e <;> simp [search, hfit]
  | cons b rest ih =>
    obtain ⟨s, u⟩ := b
    cases cur with
    | none => cases u <;> simp [search, ih]
    | some q =>
      cases u with
      | false => simp [search, ih]
      | true =>
        by_cases hfit : fits q s
        · simp [search, hfit]
        · simp [search, hfit, ih]

/-- They begin where they began. -/
theorem nextOf_search (cur : Option ℕ) (bs : List Block) :
    nextOf e (search fits e cur bs).blocks = cur.getD (nextOf e bs) := by
  induction bs generalizing cur with
  | nil =>
    cases cur with
    | none => rfl
    | some q => by_cases hfit : fits q e <;> simp [search, hfit]
  | cons b rest ih =>
    cases cur with
    | none =>
      by_cases hb : b.used
      · simp [search, hb]
      · simp [search, hb, ih]
    | some q =>
      by_cases hb : b.used
      · by_cases hfit : fits q b.start <;> simp [search, hb, hfit]
      · simp [search, hb, ih]

/-- The free block at `a` ends at `b`. -/
def Follows (e : ℕ) (bs : List Block) (a b : ℕ) : Prop :=
  ∃ l₁ l₂, bs = l₁ ++ ⟨a, false⟩ :: l₂ ∧ nextOf e l₂ = b

theorem Follows.cons {bs : List Block} {a b : ℕ} (h : Follows e bs a b) (c : Block) :
    Follows e (c :: bs) a b := by
  obtain ⟨l₁, l₂, rfl, hnext⟩ := h
  exact ⟨c :: l₁, l₂, rfl, hnext⟩

/-- The blocks that the search has passed, and where the next one starts. -/
def Search.passed (e : ℕ) : Search → List Block × ℕ
  | .found pre q _ => (pre, q)
  | .full all => (all, e)

theorem Search.passed_push (b : Block) (r : Search) :
    (r.push b).passed e = (b :: (r.passed e).1, (r.passed e).2) := by
  cases r <;> rfl

/-- Every run before the one that is found is one block. -/
theorem search_follows (cur : Option ℕ) (bs : List Block) :
    ∀ r ∈ (runs e cur bs).takeWhile fun r => !fits r.1 r.2,
      Follows ((search fits e cur bs).passed e).2 ((search fits e cur bs).passed e).1 r.1 r.2 := by
  induction bs generalizing cur with
  | nil =>
    cases cur with
    | none => exact nofun
    | some q =>
      intro r hr
      by_cases hfit : fits q e
      · simp [runs, hfit] at hr
      · simp only [runs, List.takeWhile_cons, hfit, Bool.not_false, if_true, List.takeWhile_nil,
          List.mem_singleton] at hr
        subst hr
        simp only [search, hfit, if_false, Bool.false_eq_true]
        exact ⟨[], [], rfl, rfl⟩
  | cons b rest ih =>
    cases cur with
    | none =>
      by_cases hb : b.used
      · simp only [runs, search, hb, if_true, Search.passed_push]
        exact fun r hr => (ih none r hr).cons b
      · simp only [runs, search, hb, if_false, Bool.false_eq_true]
        exact ih (some b.start)
    | some q =>
      by_cases hb : b.used
      · by_cases hfit : fits q b.start
        · intro r hr
          simp [runs, hb, hfit] at hr
        · intro r hr
          simp only [runs, hb, if_true, List.takeWhile_cons, hfit, Bool.not_false,
            List.mem_cons] at hr
          simp only [search, hb, if_true, hfit, if_false, Bool.false_eq_true,
            Search.passed_push]
          rcases hr with rfl | hr
          · exact ⟨[], _, rfl, rfl⟩
          · exact ((ih none r hr).cons b).cons _
      · simp only [runs, search, hb, if_false, Bool.false_eq_true]
        exact ih (some q)

theorem search_eq_nil {cur : Option ℕ} {bs : List Block}
    (h : (search fits e cur bs).blocks = []) : bs = [] := by
  induction bs generalizing cur with
  | nil => rfl
  | cons b rest ih =>
    have hnext := @nextOf_search fits e (some b.start) rest
    cases cur with
    | none =>
      by_cases hb : b.used
      · simp [search, hb] at h
      · simp only [search, hb, if_false, Bool.false_eq_true] at h
        have hrest := ih h
        subst hrest
        by_cases hfit : fits b.start e <;> simp [search, hfit] at h
    | some q =>
      by_cases hb : b.used
      · by_cases hfit : fits q b.start <;> simp [search, hb, hfit] at h
      · simp only [search, hb, if_false, Bool.false_eq_true] at h
        have hrest := ih h
        subst hrest
        by_cases hfit : fits q e <;> simp [search, hfit] at h

/-- The last block stays free where another free block is in front of the same ones. -/
theorem getLast?_replace {l₁ l₁' l₂ : List Block} {x y : Block}
    (h : ∀ b ∈ (l₁ ++ x :: l₂).getLast?, b.used = false) (hy : y.used = false) :
    ∀ b ∈ (l₁' ++ y :: l₂).getLast?, b.used = false := by
  intro b hb
  cases l₂ with
  | nil =>
    rw [List.getLast?_append, List.getLast?_singleton] at hb
    cases hb
    exact hy
  | cons c l₂ =>
    refine h b ?_
    rw [List.getLast?_append, List.getLast?_cons_cons] at hb ⊢
    exact hb

theorem getLast?_tail {b : Block} {rest : List Block}
    (h : ∀ c ∈ (b :: rest).getLast?, c.used = false) : ∀ c ∈ rest.getLast?, c.used = false := by
  intro c hc
  refine h c ?_
  rw [List.getLast?_cons, Option.mem_def.mp hc]
  rfl

/-- Behind a used block the search goes on, and there is a block left to be the last. -/
theorem getLast?_search_used {b : Block} {rest : List Block} (hb : b.used = true)
    (hlast : ∀ c ∈ (b :: rest).getLast?, c.used = false)
    (hrest : ∀ c ∈ (search fits e none rest).blocks.getLast?, c.used = false) :
    ∀ c ∈ (b :: (search fits e none rest).blocks).getLast?, c.used = false := by
  intro c hc
  cases hcase : (search fits e none rest).blocks.getLast? with
  | none =>
    have hnil := search_eq_nil (List.getLast?_eq_none_iff.mp hcase)
    rw [hlast b (by rw [hnil]; rfl)] at hb
    cases hb
  | some d =>
    rw [List.getLast?_cons, hcase] at hc
    cases hc
    exact hrest d hcase

/-- The last block stays free. -/
theorem search_getLast {cur : Option ℕ} {bs : List Block}
    (h : ∀ b ∈ bs.getLast?, b.used = false) :
    ∀ b ∈ (search fits e cur bs).blocks.getLast?, b.used = false := by
  induction bs generalizing cur with
  | nil =>
    intro b hb
    cases cur with
    | none => cases hb
    | some q =>
      rw [search] at hb
      split at hb
      · cases hb
        rfl
      · cases hb
        rfl
  | cons b rest ih =>
    intro c hc
    cases cur with
    | none =>
      rw [search] at hc
      split at hc
      · rename_i hb
        rw [Search.blocks_push] at hc
        exact getLast?_search_used hb h (ih (getLast?_tail h)) c hc
      · exact ih (getLast?_tail h) c hc
    | some q =>
      rw [search] at hc
      split at hc
      · rename_i hb
        split at hc
        · rw [Search.blocks_found, List.nil_append, List.getLast?_cons_cons] at hc
          exact h c hc
        · rw [Search.blocks_push, Search.blocks_push, List.getLast?_cons_cons] at hc
          exact getLast?_search_used hb h (ih (getLast?_tail h)) c hc
      · exact ih (getLast?_tail h) c hc

theorem Search.found_of_push {b : Block} {r : Search} {pre post : List Block} {q : ℕ}
    (h : r.push b = .found pre q post) : ∃ pre', r = .found pre' q post := by
  cases r with
  | found pre' q' post' =>
    cases h
    exact ⟨pre', rfl⟩
  | full all => cases h

theorem Search.full_of_push {b : Block} {r : Search} {all : List Block}
    (h : r.push b = .full all) : ∃ rest, r = .full rest ∧ all = b :: rest := by
  cases r with
  | found pre q post => cases h
  | full rest =>
    cases h
    exact ⟨rest, rfl, rfl⟩

/-- The run that is found fits. -/
theorem search_fits {cur : Option ℕ} {bs pre post : List Block} {q : ℕ}
    (h : search fits e cur bs = .found pre q post) : fits q (nextOf e post) = true := by
  induction bs generalizing cur pre with
  | nil =>
    cases cur with
    | none => cases h
    | some q' =>
      rw [search] at h
      split at h
      · rename_i hfit
        cases h
        exact hfit
      · cases h
  | cons b rest ih =>
    cases cur with
    | none =>
      rw [search] at h
      split at h
      · obtain ⟨pre', hr⟩ := Search.found_of_push h
        exact ih hr
      · exact ih h
    | some q' =>
      rw [search] at h
      split at h
      · split at h
        · rename_i hfit
          cases h
          exact hfit
        · -- the run does not fit: it is left behind, as one block, with the used one
          obtain ⟨pre', hr⟩ := Search.found_of_push h
          obtain ⟨pre'', hr⟩ := Search.found_of_push hr
          exact ih hr
      · exact ih h

/-- A search that has found nothing finds nothing in what it leaves. -/
theorem search_full {cur : Option ℕ} {bs all : List Block}
    (h : search fits e cur bs = .full all) : search fits e none all = .full all := by
  induction bs generalizing cur all with
  | nil =>
    cases cur with
    | none =>
      cases h
      rfl
    | some q =>
      rw [search] at h
      split at h
      · cases h
      · rename_i hfit
        cases h
        rw [search, if_neg Bool.false_ne_true, search, if_neg hfit]
  | cons b rest ih =>
    cases cur with
    | none =>
      rw [search] at h
      split at h
      · rename_i hb
        obtain ⟨all', hr, rfl⟩ := Search.full_of_push h
        rw [search, if_pos hb, ih hr]
        rfl
      · exact ih h
    | some q =>
      rw [search] at h
      split at h
      · rename_i hb
        split at h
        · cases h
        · rename_i hfit
          obtain ⟨all', hr, rfl⟩ := Search.full_of_push h
          obtain ⟨all'', hrest, rfl⟩ := Search.full_of_push hr
          rw [search, if_neg Bool.false_ne_true, search, if_pos hb, if_neg hfit, ih hrest]
          rfl
      · exact ih h

/-! ## Decomposition -/

/-- Used blocks are passed over. -/
theorem search_used_append {us : List Block} (hus : ∀ b ∈ us, b.used = true) (bs : List Block) :
    search fits e none (us ++ bs) = us.foldr Search.push (search fits e none bs) := by
  induction us with
  | nil => rfl
  | cons b us ih =>
    rw [List.cons_append, search, if_pos (hus b List.mem_cons_self),
      ih fun c hc => hus c (List.mem_cons_of_mem b hc), List.foldr_cons]

/-- Free blocks behind an open run are joined to it. -/
theorem search_free_append {fs : List Block} (hfs : ∀ b ∈ fs, b.used = false) (q : ℕ)
    (bs : List Block) : search fits e (some q) (fs ++ bs) = search fits e (some q) bs := by
  induction fs with
  | nil => rfl
  | cons b fs ih =>
    rw [List.cons_append, search, if_neg (by simp [hfs b List.mem_cons_self]),
      ih fun c hc => hfs c (List.mem_cons_of_mem b hc)]

/-- The first run of a list of blocks: it is found, or it is joined and the search goes on. -/
theorem search_run {us fs rest : List Block} {f : Block} (hus : ∀ b ∈ us, b.used = true)
    (hf : f.used = false) (hfs : ∀ b ∈ fs, b.used = false)
    (hrest : ∀ b ∈ rest.head?, b.used = true) :
    search fits e none (us ++ f :: (fs ++ rest)) = us.foldr Search.push
      (if fits f.start (nextOf e rest) then .found [] f.start rest
      else (search fits e none rest).push ⟨f.start, false⟩) := by
  rw [search_used_append hus, search, if_neg (by simp [hf]), search_free_append hfs]
  cases rest with
  | nil => rfl
  | cons b rest =>
    rw [search, if_pos (hrest b rfl)]
    rw [search, if_pos (hrest b rfl)]
    rfl

theorem foldr_push_found (us pre post : List Block) (q : ℕ) :
    us.foldr Search.push (.found pre q post) = .found (us ++ pre) q post := by
  induction us with
  | nil => rfl
  | cons b us ih =>
    rw [List.foldr_cons, ih]
    rfl

theorem foldr_push_full (us all : List Block) :
    us.foldr Search.push (.full all) = .full (us ++ all) := by
  induction us with
  | nil => rfl
  | cons b us ih =>
    rw [List.foldr_cons, ih]
    rfl

theorem blocks_foldr_push (us : List Block) (r : Search) :
    (us.foldr Search.push r).blocks = us ++ r.blocks := by
  induction us with
  | nil => rfl
  | cons b us ih => rw [List.foldr_cons, Search.blocks_push, ih, List.cons_append]

theorem target_foldr_push (us : List Block) (r : Search) :
    (us.foldr Search.push r).target = r.target := by
  induction us with
  | nil => rfl
  | cons b us ih => rw [List.foldr_cons, Search.target_push, ih]

/-- A list with a free block, cut at its first run. -/
theorem exists_run {bs : List Block} (h : ∃ b ∈ bs, b.used = false) :
    ∃ us f fs rest, bs = us ++ f :: (fs ++ rest) ∧ (∀ b ∈ us, b.used = true) ∧ f.used = false ∧
      (∀ b ∈ fs, b.used = false) ∧ ∀ b ∈ rest.head?, b.used = true := by
  induction bs with
  | nil =>
    obtain ⟨b, hb, -⟩ := h
    cases hb
  | cons b bs ih =>
    by_cases hb : b.used = true
    · obtain ⟨c, hc, hfree⟩ := h
      have htail : ∃ b ∈ bs, b.used = false := by
        rcases List.mem_cons.mp hc with rfl | hc
        · rw [hb] at hfree
          cases hfree
        · exact ⟨c, hc, hfree⟩
      obtain ⟨us, f, fs, rest, rfl, hus, hf, hfs, hrest⟩ := ih htail
      refine ⟨b :: us, f, fs, rest, rfl, fun c hc => ?_, hf, hfs, hrest⟩
      rcases List.mem_cons.mp hc with rfl | hc
      · exact hb
      · exact hus c hc
    · refine ⟨[], b, bs.takeWhile (fun c => !c.used), bs.dropWhile (fun c => !c.used), ?_, nofun,
        by simpa using hb, fun c hc => ?_, fun c hc => ?_⟩
      · rw [List.nil_append, List.takeWhile_append_dropWhile]
      · simpa using List.mem_takeWhile_imp hc
      · have hhead := List.head?_dropWhile_not (fun c => !c.used) bs
        rw [Option.mem_def.mp hc] at hhead
        simpa using hhead

/-- The runs of a list, cut at a used block. -/
theorem runs_append (cur : Option ℕ) (pre : List Block) (a : ℕ) (bs : List Block) :
    runs e cur (pre ++ ⟨a, true⟩ :: bs) = runs a cur pre ++ runs e none bs := by
  induction pre generalizing cur with
  | nil => cases cur <;> simp [runs]
  | cons b pre ih =>
    cases cur with
    | none => by_cases hb : b.used <;> simp [runs, hb, ih]
    | some q => by_cases hb : b.used <;> simp [runs, hb, ih]

/-- A run starts at one of its blocks. -/
theorem runs_start (cur : Option ℕ) (bs : List Block) :
    ∀ r ∈ runs e cur bs, cur = some r.1 ∨ ⟨r.1, false⟩ ∈ bs := by
  induction bs generalizing cur with
  | nil =>
    cases cur with
    | none => exact nofun
    | some q =>
      intro r hr
      rw [runs, List.mem_singleton] at hr
      exact .inl (by rw [hr])
  | cons b rest ih =>
    obtain ⟨s, u⟩ := b
    intro r hr
    cases cur with
    | none =>
      cases u with
      | true =>
        rcases ih none r hr with hcur | hmem
        · cases hcur
        · exact .inr (List.mem_cons_of_mem _ hmem)
      | false =>
        rcases ih (some s) r hr with hcur | hmem
        · rw [Option.some.inj hcur]
          exact .inr List.mem_cons_self
        · exact .inr (List.mem_cons_of_mem _ hmem)
    | some q =>
      cases u with
      | true =>
        rcases List.mem_cons.mp hr with rfl | hr
        · exact .inl rfl
        · rcases ih none r hr with hcur | hmem
          · cases hcur
          · exact .inr (List.mem_cons_of_mem _ hmem)
      | false =>
        exact (ih (some q) r hr).imp_right (List.mem_cons_of_mem _)

end HfRisc.Lib
