import HfRisc.Soft.HeapRun

/-!
# The blocks behind `last_free`

`malloc` searches from `last_free` to the end of the heap, so what it finds, now and later,
is decided by the blocks there (`serve`, `malloc_serve`). A store into the payload of a live
block, or below the heap, changes nothing of this (`Arena.store`).
-/

namespace HfRisc.Soft

open HfRisc.Lib

variable {z len fuel size : ℕ} {s : Heap} {suf : List Block} {live : List (ℕ × ℕ)}

/-- What a request for `n` bytes makes of the blocks from `last_free` on, and the block that
is given to it. -/
def serve (e n : ℕ) (suf : List Block) : List Block × Option ℕ :=
  match search (fits n) e none suf with
  | .found _ q post => (⟨q, true⟩ :: ⟨q + n + 8, false⟩ :: post, some q)
  | .full all => (all, none)

/-- The pointer to the payload of a block, or null. -/
def pointer (o : Option ℕ) : ℕ := o.elim 0 (· + 8)

@[simp] theorem pointer_some (q : ℕ) : pointer (some q) = q + 8 := rfl

@[simp] theorem pointer_none : pointer none = 0 := rfl

theorem pointer_eq_zero {o : Option ℕ} : pointer o = 0 ↔ o = none := by
  cases o <;> simp

/-- The live blocks with the one that was given. -/
def grant (o : Option ℕ) (size : ℕ) (live : List (ℕ × ℕ)) : List (ℕ × ℕ) :=
  if pointer o = 0 then live else (pointer o, size) :: live

/-- A heap with its live blocks, and the blocks from `last_free` on. -/
def Arena (z len : ℕ) (s : Heap) (live : List (ℕ × ℕ)) (suf : List Block) : Prop :=
  ∃ pre, Layout s z len (pre ++ suf) ∧ Owned s (pre ++ suf) live ∧
    nextOf (sentinel z len) suf = s.lastFree

/-- Every heap reached is one. -/
theorem Reach.arena (hz : Zone z len) (hfuel : len ≤ fuel) (h : Reach z len fuel s live) :
    ∃ suf, Arena z len s live suf := by
  obtain ⟨bs, hlayout, howned⟩ := h.layout hz hfuel
  obtain ⟨pre, suf, rfl, hstart, -⟩ := hlayout.split
  exact ⟨suf, pre, hlayout, howned, hstart⟩

/-- The whole heap after `heap_init`. -/
theorem arena_init (hz : Zone z len) (m : ℕ → ℕ) :
    Arena z len (heapInit m z len) [] [⟨z, false⟩] := by
  refine ⟨[], heapInit_layout hz m, ⟨List.nodup_nil, fun a => ?_, nofun⟩, rfl⟩
  simp

/-- A program has stored into its live blocks. -/
structure Touches (live : List (ℕ × ℕ)) (s s' : Heap) : Prop where
  firstFree : s'.firstFree = s.firstFree
  lastFree : s'.lastFree = s.lastFree
  mem : ∀ a, (∀ p ∈ live, ¬ (p.1 ≤ a ∧ a < p.1 + p.2)) → s'.mem a = s.mem a

theorem Touches.refl (live : List (ℕ × ℕ)) (s : Heap) : Touches live s s :=
  ⟨rfl, rfl, fun _ _ => rfl⟩

namespace Arena

/-! ## Live blocks -/

/-- A live block lies inside the heap, behind the header at its start. -/
theorem inside (h : Arena z len s live suf) {p : ℕ × ℕ} (hp : p ∈ live) :
    z + 8 ≤ p.1 ∧ p.1 + p.2 ≤ sentinel z len := by
  obtain ⟨pre, hlayout, howned, -⟩ := h
  obtain ⟨a, ha, hmem, hroom⟩ := howned.block hp
  have hlo := (hlayout.laid.bounds.2 _ hmem).1
  rw [hlayout.start] at hlo
  obtain ⟨l₁, l₂, hsplit⟩ := List.append_of_mem hmem
  have hhi := (hsplit ▸ hlayout.laid).around.2.2.1
  dsimp only at hlo hhi
  omega

theorem aligned (h : Arena z len s live suf) {p : ℕ × ℕ} (hp : p ∈ live) : 4 ∣ p.1 := by
  obtain ⟨pre, hlayout, howned, -⟩ := h
  obtain ⟨a, ha, hmem, -⟩ := howned.block hp
  obtain ⟨l₁, l₂, hsplit⟩ := List.append_of_mem hmem
  rw [hsplit] at hlayout
  have hdvd : 4 ∣ a := (laid_append.mp hlayout.laid).2.1.2.2.1
  omega

/-- Two live blocks do not overlap. -/
theorem disjoint (h : Arena z len s live suf) {p q : ℕ × ℕ} (hp : p ∈ live) (hq : q ∈ live)
    (hne : p.1 ≠ q.1) : p.1 + p.2 ≤ q.1 ∨ q.1 + q.2 ≤ p.1 := by
  obtain ⟨pre, hlayout, howned, -⟩ := h
  obtain ⟨a, ha, hmem, hroom⟩ := howned.block hp
  obtain ⟨b, hb, hmem', hroom'⟩ := howned.block hq
  have hsep := hlayout.laid.disjoint hmem hmem' (by simp; omega)
  dsimp only at hsep
  omega

theorem nodup (h : Arena z len s live suf) : (live.map Prod.fst).Nodup := by
  obtain ⟨_, _, howned, _⟩ := h
  exact howned.nodup

/-! ## Operations -/

/-- A store into the payload of a live block, or below the heap. -/
theorem store (hz : Zone z len) (h : Arena z len s live suf) {a : ℕ}
    (ha : (∃ p ∈ live, p.1 ≤ a ∧ a < p.1 + p.2) ∨ a < z) (v : ℕ) :
    Arena z len { s with mem := Function.update s.mem a v } live suf := by
  have hend := Layout.sentinel_eq hz
  have hroom := hz.room
  have hin : a < sentinel z len := by
    rcases ha with ⟨p, hp, hlo, hhi⟩ | hlow
    · have hp' := (h.inside hp).2
      omega
    · omega
  obtain ⟨pre, hlayout, howned, hstart⟩ := h
  have hheader : ∀ c ∈ pre ++ suf, a ≠ c.start ∧ a ≠ c.start + 4 := by
    intro c hc
    rcases ha with ⟨p, hp, hlo, hhi⟩ | hlow
    · obtain ⟨b, hb, hmem, hb'⟩ := howned.block hp
      exact hlayout.laid.header_ne hmem hc (by show b + 8 ≤ a; omega)
        (by show a < s.mem b; omega)
    · have hc' := (hlayout.laid.bounds.2 c hc).1
      rw [hlayout.start] at hc'
      omega
  exact ⟨pre, hlayout.store hheader ⟨by omega, by omega⟩, howned.store hheader, hstart⟩

/-- Stores into live blocks. -/
theorem touch {s' : Heap} (hz : Zone z len) (h : Arena z len s live suf) (ht : Touches live s s') :
    Arena z len s' live suf := by
  have hroom := hz.room
  have hinside : ∀ p ∈ live, p.1 + p.2 ≤ sentinel z len := fun p hp => (h.inside hp).2
  obtain ⟨pre, hlayout, howned, hstart⟩ := h
  have hheader : ∀ c ∈ pre ++ suf, s'.mem c.start = s.mem c.start ∧
      s'.mem (c.start + 4) = s.mem (c.start + 4) := by
    intro c hc
    have hout : ∀ a, a = c.start ∨ a = c.start + 4 → s'.mem a = s.mem a := by
      refine fun a ha => ht.mem a fun p hp ⟨hlo, hhi⟩ => ?_
      obtain ⟨b, hb, hmem, hb'⟩ := howned.block hp
      have hne := hlayout.laid.header_ne hmem hc (a := a) (by show b + 8 ≤ a; omega)
        (by show a < s.mem b; omega)
      exact ha.elim hne.1 hne.2
    exact ⟨hout _ (.inl rfl), hout _ (.inr rfl)⟩
  have hend : ∀ a, sentinel z len ≤ a → s'.mem a = s.mem a := by
    refine fun a ha => ht.mem a fun p hp ⟨hlo, hhi⟩ => ?_
    have hp' := hinside p hp
    omega
  refine ⟨pre, ⟨ht.firstFree.trans hlayout.first, hlayout.start, hlayout.laid.frame hheader,
    (hend _ (le_refl _)).trans hlayout.next, ?_, hlayout.openEnd, ?_⟩,
    ⟨howned.nodup, howned.known, fun p hp => ?_⟩, hstart.trans ht.lastFree.symm⟩
  · rw [hend _ (Nat.le_add_right _ 4)]
    exact hlayout.size
  · rw [ht.lastFree]
    exact hlayout.lastFree
  · obtain ⟨b, hb, hmem, hroom⟩ := howned.block hp
    exact ⟨b, hb, hroom.trans_eq (hheader _ hmem).1.symm⟩

end Arena

/-- `malloc` either leaves `last_free`, or leaves it at the block it gives. -/
theorem malloc_lastFree {s' : Heap} {ptr : ℕ} (h : malloc s size fuel = some (s', ptr)) :
    ptr = 0 ∧ s'.lastFree = s.lastFree ∨ ptr = add32 s'.lastFree 8 := by
  rw [malloc] at h
  cases hloop : searchLoop (align4 size) fuel fuel s.mem s.lastFree s.lastFree with
  | none => simp [hloop] at h
  | some r =>
    simp only [hloop, Option.bind_eq_bind, Option.bind_some] at h
    split at h
    · cases h
      exact .inl ⟨rfl, rfl⟩
    · cases h
      exact .inr rfl

theorem lastFree_le (hz : Zone z len) {bs : List Block} (h : Layout s z len bs) :
    s.lastFree + 8 ≤ sentinel z len := by
  have hend := Layout.sentinel_eq hz
  have hroom := hz.room
  rcases h.lastFree with heq | hmem
  · omega
  · exact (h.laid.bounds.2 _ hmem).2

/-- The block that `malloc` gives is that of `serve`. -/
theorem malloc_serve (hz : Zone z len) (h : Arena z len s live suf) (hsize : Fits32 size)
    (hfuel : len ≤ fuel) :
    ∃ s', malloc s size fuel =
        some (s', pointer (serve (sentinel z len) (align4 size) suf).2) ∧
      Arena z len s' (grant (serve (sentinel z len) (align4 size) suf).2 size live)
        (serve (sentinel z len) (align4 size) suf).1 ∧
      ∀ p ∈ live, ∀ a, p.1 ≤ a → a < p.1 + p.2 → s'.mem a = s.mem a := by
  have hend := Layout.sentinel_eq hz
  have hhigh := hz.high
  obtain ⟨pre, hlayout, howned, hstart⟩ := h
  obtain ⟨s', hrun, hlayout', hkeep⟩ := malloc_layout hz hlayout hstart hsize hfuel
  have howned' := owned_alloc howned (align4_spec hsize).2.1 hlayout'.laid hkeep
  have hlast := malloc_lastFree hrun
  have hframe : ∀ p ∈ live, ∀ a, p.1 ≤ a → a < p.1 + p.2 → s'.mem a = s.mem a := by
    intro p hp a hlo hhi
    obtain ⟨b, hb, hmem, hroom⟩ := howned.block hp
    exact (hkeep _ hmem rfl).2 a (by show b + 8 ≤ a; omega) (by show a < s.mem b; omega)
  rw [serve]
  cases hr : search (fits (align4 size)) (sentinel z len) none suf with
  | full all =>
    -- `last_free` stays, in front of the blocks that the search has joined
    rw [hr] at hrun hlayout' howned' hlast
    refine ⟨s', hrun, ⟨pre, hlayout', howned', ?_⟩, hframe⟩
    have hle := lastFree_le hz hlayout'
    have hsame : s'.lastFree = s.lastFree := by
      rcases hlast with ⟨-, heq⟩ | heq
      · exact heq
      · rw [add32_eq (by omega)] at heq
        cases heq
    have hnext := @nextOf_search (fits (align4 size)) (sentinel z len) none suf
    rw [hr, Search.blocks_full, Option.getD_none, hstart] at hnext
    exact hnext.trans hsame.symm
  | found pre' q post =>
    rw [hr] at hrun hlayout' howned' hlast
    refine ⟨s', hrun, ⟨pre ++ pre', ?_, ?_, ?_⟩, hframe⟩
    · rw [List.append_assoc]
      exact hlayout'
    · rw [List.append_assoc]
      exact howned'
    · have hle := lastFree_le hz hlayout'
      rcases hlast with ⟨hnull, -⟩ | heq
      · cases hnull
      · rw [add32_eq (by omega)] at heq
        exact Nat.add_right_cancel heq

/-- A request gets nothing if and only if no run of free blocks is large enough. -/
theorem serve_eq_none {e n : ℕ} :
    (serve e n suf).2 = none ↔ ∀ r ∈ runs e none suf, r.2 < r.1 + n + 16 := by
  have htarget : (serve e n suf).2 = (search (fits n) e none suf).target := by
    rw [serve]
    cases search (fits n) e none suf <;> rfl
  rw [htarget, search_target, Option.map_eq_none_iff, List.find?_eq_none]
  refine forall₂_congr fun r _ => ?_
  rw [fits_iff, not_le]

/-- Nor does the next one of the same size. -/
theorem serve_again {e n : ℕ} (h : (serve e n suf).2 = none) :
    (serve e n (serve e n suf).1).2 = none := by
  cases hr : search (fits n) e none suf with
  | found pre q post =>
    rw [serve, hr] at h
    cases h
  | full all =>
    have hrest : (serve e n suf).1 = all := by
      rw [serve, hr]
    rw [hrest, serve, search_full hr]

/-! ## Requests alone -/

/-- What a request for `n` bytes leaves of a free block with a payload of `R` bytes. -/
def spend (R n : ℕ) : ℕ := if n + 8 ≤ R then R - (n + 8) else R

/-- Behind `last_free` there are used blocks, and one free block with a payload of `R`
bytes. -/
def Tail (e R : ℕ) (suf : List Block) : Prop :=
  ∃ us b, suf = us ++ [⟨b, false⟩] ∧ (∀ u ∈ us, u.used = true) ∧ b + 8 + R = e

/-- While nothing is released all blocks come from the last one. -/
theorem Tail.serve {e R : ℕ} (h : Tail e R suf) (n : ℕ) :
    Tail e (spend R n) (serve e n suf).1 ∧ ((serve e n suf).2 = none ↔ ¬ n + 8 ≤ R) := by
  obtain ⟨us, b, rfl, hus, hb⟩ := h
  have hrun : search (fits n) e none (us ++ ⟨b, false⟩ :: ([] ++ [])) =
      us.foldr Search.push (if fits n b (nextOf e []) then .found [] b []
        else (search (fits n) e none []).push ⟨b, false⟩) :=
    search_run hus rfl (fun _ hc => by cases hc) fun _ hc => by cases hc
  rw [List.nil_append, nextOf_nil] at hrun
  have hfit : fits n b e = true ↔ n + 8 ≤ R := by
    rw [fits_iff]
    omega
  by_cases hroom : n + 8 ≤ R
  · have hfound : search (fits n) e none (us ++ [⟨b, false⟩]) = .found us b [] := by
      rw [hrun, if_pos (hfit.mpr hroom), foldr_push_found, List.append_nil]
    rw [Soft.serve, hfound, spend, if_pos hroom]
    refine ⟨⟨[⟨b, true⟩], b + n + 8, rfl, by simp, by omega⟩, ?_⟩
    simp [hroom]
  · have hfull : search (fits n) e none (us ++ [⟨b, false⟩]) = .full (us ++ [⟨b, false⟩]) := by
      rw [hrun, if_neg fun h => hroom (hfit.mp h)]
      exact foldr_push_full us _
    rw [Soft.serve, hfull, spend, if_neg hroom]
    exact ⟨⟨us, b, rfl, hus, hb⟩, iff_of_true rfl hroom⟩

end HfRisc.Soft
