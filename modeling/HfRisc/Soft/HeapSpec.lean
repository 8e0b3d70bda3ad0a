import HfRisc.Lib.FreeRuns
import HfRisc.Soft.Malloc
import Mathlib.Data.List.Basic

/-!
# The blocks of the heap

The headers in memory lay out a list of blocks (`Laid`): each leads to the next one, and the
size of a used block is the distance to it less the header. The size of a free block says
no more than that it is free. Over such a memory the loops of `malloc` are the search over
the list (`searchLoop_spec`).
-/

namespace HfRisc.Soft

open HfRisc.Lib

variable {m m' : ℕ → ℕ} {e : ℕ} {bs l₁ l₂ : List Block} {b : Block}

/-- The size word of a block that ends at `next`. -/
def SizeOk (m : ℕ → ℕ) (b : Block) (next : ℕ) : Prop :=
  if b.used then m (b.start + 4) = next - b.start - 8 + 1 else m (b.start + 4) % 2 = 0

/-- The memory holds the headers of the blocks, up to the sentinel at `e`. -/
def Laid (m : ℕ → ℕ) (e : ℕ) : List Block → Prop
  | [] => True
  | b :: rest => (m b.start = nextOf e rest ∧ b.start + 8 ≤ nextOf e rest ∧ 4 ∣ b.start ∧
      SizeOk m b (nextOf e rest)) ∧ Laid m e rest

instance (m : ℕ → ℕ) (b : Block) (next : ℕ) : Decidable (SizeOk m b next) :=
  inferInstanceAs (Decidable (if b.used then _ else _))

instance decidableLaid (m : ℕ → ℕ) (e : ℕ) : (bs : List Block) → Decidable (Laid m e bs)
  | [] => isTrue trivial
  | _ :: rest =>
    have := decidableLaid m e rest
    inferInstanceAs (Decidable (_ ∧ _))

theorem nextOf_append : nextOf e (l₁ ++ l₂) = nextOf (nextOf e l₂) l₁ := by
  cases l₁ <;> rfl

theorem laid_append : Laid m e (l₁ ++ l₂) ↔ Laid m (nextOf e l₂) l₁ ∧ Laid m e l₂ := by
  induction l₁ with
  | nil => exact ⟨fun h => ⟨trivial, h⟩, fun h => h.2⟩
  | cons b l₁ ih => simp only [List.cons_append, Laid, ih, nextOf_append, and_assoc]

/-- The blocks are in order. -/
theorem Laid.bounds (h : Laid m e bs) : nextOf e bs ≤ e ∧
    ∀ b ∈ bs, nextOf e bs ≤ b.start ∧ b.start + 8 ≤ e := by
  induction bs with
  | nil => exact ⟨Nat.le_refl e, nofun⟩
  | cons b rest ih =>
    obtain ⟨⟨-, hroom, -⟩, hrest⟩ := h
    obtain ⟨hle, hmem⟩ := ih hrest
    rw [nextOf_cons]
    refine ⟨by omega, fun c hc => ?_⟩
    rcases List.mem_cons.mp hc with rfl | hc
    · omega
    · have hbounds := hmem c hc
      omega

theorem Laid.dvd (h : Laid m e bs) (he : 4 ∣ e) : 4 ∣ nextOf e bs := by
  cases bs with
  | nil => exact he
  | cons b rest => exact h.1.2.2.1

/-- The headers of other blocks do not matter. -/
theorem Laid.frame (h : Laid m e bs)
    (hsame : ∀ b ∈ bs, m' b.start = m b.start ∧ m' (b.start + 4) = m (b.start + 4)) :
    Laid m' e bs := by
  induction bs with
  | nil => trivial
  | cons b rest ih =>
    obtain ⟨⟨hnext, hroom, hdvd, hsize⟩, hrest⟩ := h
    obtain ⟨hb, hb'⟩ := hsame b List.mem_cons_self
    refine ⟨⟨hb.trans hnext, hroom, hdvd, ?_⟩,
      ih hrest fun c hc => hsame c (List.mem_cons_of_mem b hc)⟩
    rw [SizeOk, hb']
    exact hsize

theorem setBlock_next (m : ℕ → ℕ) (p next size : ℕ) : setBlock m p next size p = next :=
  Function.update_self _ _ _

theorem setBlock_size (m : ℕ → ℕ) (p next size : ℕ) : setBlock m p next size (p + 4) = size := by
  rw [setBlock, Function.update_of_ne (by omega), Function.update_self]

theorem setBlock_of_ne {p next size a : ℕ} (h : a ≠ p) (h' : a ≠ p + 4) :
    setBlock m p next size a = m a := by
  rw [setBlock, Function.update_of_ne h, Function.update_of_ne h']

/-- A header written between the blocks. -/
theorem Laid.setBlock {p next size : ℕ} (h : Laid m e bs)
    (hout : ∀ b ∈ bs, b.start + 8 ≤ p ∨ p + 8 ≤ b.start) :
    Laid (Soft.setBlock m p next size) e bs := by
  refine h.frame fun b hb => ?_
  have hb' := hout b hb
  exact ⟨setBlock_of_ne (by omega) (by omega), setBlock_of_ne (by omega) (by omega)⟩

/-! ## The loops -/

variable {q fuel : ℕ}

theorem used_iff (h : SizeOk m b (nextOf e l₂)) (hdvd : 4 ∣ b.start) (hnext : 4 ∣ nextOf e l₂) :
    m (b.start + 4) &&& 1 ≠ 0 ↔ b.used = true := by
  rw [Nat.and_one_is_mod]
  rw [SizeOk] at h
  split at h
  · rename_i hused
    exact ⟨fun _ => hused, fun _ => by omega⟩
  · rename_i hfree
    exact ⟨fun hne => absurd h hne, fun hused => absurd hused hfree⟩

/-- Used blocks are skipped, up to a free block or the sentinel. -/
theorem skipUsed_eq (h : Laid m e (l₁ ++ l₂)) (he : 4 ∣ e) (hend : m (e + 4) % 2 = 0)
    (hused : ∀ b ∈ l₁, b.used = true) (hfree : ∀ b ∈ l₂.head?, b.used = false)
    (hfuel : l₁.length < fuel) :
    skipUsed m fuel (nextOf e (l₁ ++ l₂)) q =
      some (nextOf e l₂, if l₁ = [] then q else nextOf e l₂) := by
  induction l₁ generalizing fuel q with
  | nil =>
    obtain ⟨fuel, rfl⟩ := Nat.exists_eq_add_of_lt hfuel
    rw [skipUsed, if_neg]
    · rfl
    · rw [List.nil_append] at h ⊢
      cases l₂ with
      | nil =>
        rw [nextOf_nil, Nat.and_one_is_mod, hend]
        exact fun hne => hne rfl
      | cons b rest =>
        rw [nextOf_cons, used_iff h.1.2.2.2 h.1.2.2.1 (h.2.dvd he), hfree b rfl]
        intro h
        cases h
  | cons b l₁ ih =>
    obtain ⟨fuel, rfl⟩ := Nat.exists_eq_add_of_lt hfuel
    obtain ⟨⟨hnext, -, hdvd, hsize⟩, hrest⟩ := h
    have hb := (used_iff hsize hdvd (hrest.dvd he)).mpr (hused b List.mem_cons_self)
    rw [List.cons_append, nextOf_cons, skipUsed, if_pos hb]
    have hnext' : m b.start = nextOf e (l₁ ++ l₂) := hnext
    rw [hnext', ih hrest (fun c hc => hused c (List.mem_cons_of_mem b hc))
      (by rw [List.length_cons]; omega), if_neg (List.cons_ne_nil b l₁)]
    split
    · rename_i hnil
      rw [hnil, List.nil_append]
    · rfl

/-- Free blocks are skipped, up to a used block or the sentinel. -/
theorem skipFree_eq (h : Laid m e (l₁ ++ l₂)) (he : 4 ∣ e) (hend : m e = 0)
    (hfree : ∀ b ∈ l₁, b.used = false) (hused : ∀ b ∈ l₂.head?, b.used = true)
    (hfuel : l₁.length < fuel) : skipFree m fuel (nextOf e (l₁ ++ l₂)) = some (nextOf e l₂) := by
  induction l₁ generalizing fuel with
  | nil =>
    obtain ⟨fuel, rfl⟩ := Nat.exists_eq_add_of_lt hfuel
    rw [List.nil_append] at h ⊢
    rw [skipFree, if_neg]
    cases l₂ with
    | nil => exact fun hboth => hboth.2 hend
    | cons b rest =>
      rintro ⟨heven, -⟩
      exact (used_iff h.1.2.2.2 h.1.2.2.1 (h.2.dvd he)).mpr (hused b rfl) heven
  | cons b l₁ ih =>
    obtain ⟨fuel, rfl⟩ := Nat.exists_eq_add_of_lt hfuel
    obtain ⟨⟨hnext, hroom, hdvd, hsize⟩, hrest⟩ := h
    have hnext' : m b.start = nextOf e (l₁ ++ l₂) := hnext
    have hroom' : b.start + 8 ≤ nextOf e (l₁ ++ l₂) := hroom
    have hb : m (b.start + 4) &&& 1 = 0 := by
      by_contra hne
      have hused' := (used_iff hsize hdvd (hrest.dvd he)).mp hne
      rw [hfree b List.mem_cons_self] at hused'
      cases hused'
    rw [List.cons_append, nextOf_cons, skipFree, if_pos ⟨hb, by omega⟩, hnext']
    exact ih hrest (fun c hc => hfree c (List.mem_cons_of_mem b hc))
      (by rw [List.length_cons]; omega)

/-! ## The search -/

/-- A run has room for a payload of `n` bytes and another header. -/
def fits (n q stop : ℕ) : Bool := decide (n + 8 ≤ stop - q - 8)

/-- A run of at least `t` bytes behind its header. `fits n` is `holds (n + 8)`. -/
def holds (t q stop : ℕ) : Bool := decide (t ≤ stop - q - 8)

theorem fits_iff {n q stop : ℕ} : fits n q stop = true ↔ q + n + 16 ≤ stop := by
  rw [fits, decide_eq_true_iff]
  omega

/-- `m'` differs from `m` in the headers of free blocks only. -/
def SameBut (bs : List Block) (m m' : ℕ → ℕ) : Prop :=
  ∀ a, (∀ b ∈ bs, b.used = false → a ≠ b.start ∧ a ≠ b.start + 4) → m' a = m a

/-- A run is joined into its first block. -/
theorem Laid.join {us fs rest : List Block} {f : Block}
    (h : Laid m e (us ++ f :: (fs ++ rest))) (he : 4 ∣ e) :
    f.start + 8 ≤ nextOf e rest ∧
      Laid (Soft.setBlock m f.start (nextOf e rest) (nextOf e rest - f.start - 8)) e
        (us ++ ⟨f.start, false⟩ :: rest) := by
  obtain ⟨hus, hf⟩ := laid_append.mp h
  rw [← List.cons_append] at hf
  obtain ⟨hrun, hrest⟩ := laid_append.mp hf
  obtain ⟨-, hroom⟩ := hrun.bounds
  obtain ⟨-, hbefore⟩ := hus.bounds
  obtain ⟨-, hbehind⟩ := hrest.bounds
  have hstop := (hroom f List.mem_cons_self).2
  have hdvd := hrun.1.2.2.1
  have hdvd' := hrest.dvd he
  refine ⟨hstop, laid_append.mpr ⟨hus.setBlock fun b hb => ?_, ⟨?_, hstop, hdvd, ?_⟩,
    hrest.setBlock fun b hb => ?_⟩⟩
  · exact .inl (hbefore b hb).2
  · exact setBlock_next _ _ _ _
  · show _ % 2 = 0
    rw [setBlock_size]
    omega
  · right
    have hb' := (hbehind b hb).1
    omega

/-- The outer loop of `malloc` is the search over the blocks for a run that holds what `n` and
the header come to on 32 bits. -/
theorem searchLoop_spec {n t k : ℕ} (ht : add32 n 8 = t) (he : 4 ∣ e) (hmax : e < 4294967296)
    (h : Laid m e bs) (hnext : m e = 0) (hsize : m (e + 4) % 2 = 0)
    (hlast : ∀ b ∈ bs.getLast?, b.used = false) (hk : bs.length < k) (hfuel : bs.length < fuel)
    (hq : ∀ b ∈ bs.head?, b.used = false → q = b.start) :
    ∃ m', searchLoop n fuel k m (nextOf e bs) q =
        some (m', (search (holds t) e none bs).target.getD e) ∧
      Laid m' e (search (holds t) e none bs).blocks ∧ SameBut bs m m' := by
  induction k generalizing bs m q with
  | zero => exact absurd hk (Nat.not_lt_zero _)
  | succ k ih =>
    rcases List.eq_nil_or_concat bs with rfl | ⟨bs₀, last, hconcat⟩
    · refine ⟨m, ?_, trivial, fun _ _ => rfl⟩
      rw [nextOf_nil, searchLoop, if_neg fun hne => hne hnext]
      rfl
    have hmem : last ∈ bs := by rw [hconcat]; simp
    have hfree : last.used = false := hlast last (by rw [hconcat]; simp)
    obtain ⟨us, f, fs, rest, rfl, hus, hf, hfs, hrest⟩ := exists_run ⟨last, hmem, hfree⟩
    obtain ⟨hstop, hjoined⟩ := h.join he
    have hrun := (laid_append.mp h).2
    have hrest' : Laid m e rest := (laid_append.mp hrun.2).2
    obtain ⟨hle, hbehind⟩ := hrest'.bounds
    have hassoc : us ++ f :: (fs ++ rest) = (us ++ f :: fs) ++ rest := by simp
    simp only [List.length_append, List.length_cons] at hk hfuel
    -- The first block is not the sentinel.
    have hstart : m (nextOf e (us ++ f :: (fs ++ rest))) ≠ 0 := by
      cases hbs : us ++ f :: (fs ++ rest) with
      | nil => simp at hbs
      | cons b tail =>
        rw [hbs] at h
        obtain ⟨⟨hb, hroom, -⟩, -⟩ := h
        rw [nextOf_cons, hb]
        omega
    have hskip := skipUsed_eq (q := q) h he hsize hus (fun b hb => by cases hb; exact hf)
      (by omega : us.length < fuel)
    have hq' : (if us = [] then q else nextOf e (f :: (fs ++ rest))) = f.start := by
      split
      · rename_i hnil
        exact hq f (by rw [hnil]; rfl) hf
      · rfl
    rw [hq', nextOf_cons] at hskip
    have hrun' : Laid m e (f :: fs ++ rest) := hrun
    have hskip' := skipFree_eq hrun' he hnext
      (fun b hb => (List.mem_cons.mp hb).elim (fun heq => heq ▸ hf) (hfs b)) hrest
      (by rw [List.length_cons]; omega : (f :: fs).length < fuel)
    rw [List.cons_append, nextOf_cons] at hskip'
    have hlen : sub32 (sub32 (nextOf e rest) f.start) 8 = nextOf e rest - f.start - 8 := by
      rw [sub32_eq (x := nextOf e rest) (by omega) (by omega), sub32_eq (by omega) (by omega)]
    set m₁ := setBlock m f.start (nextOf e rest) (nextOf e rest - f.start - 8) with hm₁
    have hsame : SameBut (us ++ f :: (fs ++ rest)) m m₁ := by
      intro a ha
      obtain ⟨hne, hne'⟩ := ha f (by simp) hf
      exact setBlock_of_ne hne hne'
    have hfit : add32 n 8 ≤ m₁ (f.start + 4) ↔ holds t f.start (nextOf e rest) = true := by
      rw [ht, hm₁, setBlock_size, holds, decide_eq_true_iff]
    have hloop : searchLoop n fuel (k + 1) m (nextOf e (us ++ f :: (fs ++ rest))) q =
        if add32 n 8 ≤ m₁ (f.start + 4) then some (m₁, f.start)
        else searchLoop n fuel k m₁ (nextOf e rest) f.start := by
      rw [searchLoop, if_pos hstart, hskip, Option.bind_eq_bind, Option.bind_some]
      simp only [hskip', Option.bind_eq_bind, Option.bind_some, hlen,
        if_pos (show nextOf e rest ≠ 0 by omega), ← hm₁]
    rw [search_run hus hf hfs hrest, hloop, target_foldr_push, blocks_foldr_push]
    by_cases hfits : holds t f.start (nextOf e rest) = true
    · rw [if_pos (hfit.mpr hfits), if_pos hfits]
      exact ⟨m₁, rfl, hjoined, hsame⟩
    · rw [if_neg fun hle => hfits (hfit.mp hle), if_neg hfits]
      obtain ⟨hus₁, hf₁, hrest₁⟩ := laid_append.mp hjoined
      have hend : ∀ a, nextOf e rest ≤ a → m₁ a = m a :=
        fun a ha => setBlock_of_ne (by omega) (by omega)
      obtain ⟨m', heq, hlaid, hframe⟩ := ih (m := m₁) (q := f.start) hrest₁
        ((hend e hle).trans hnext) (by rw [hend (e + 4) (by omega)]; exact hsize)
        (fun b hb => hlast b (hassoc ▸ List.mem_getLast?_append_of_mem_getLast? hb)) (by omega)
        (by omega)
        (fun b hb hfree' => by rw [hrest b hb] at hfree'; cases hfree')
      -- The rest of the search does not reach back before the run.
      have hback : ∀ a, a < nextOf e rest → m' a = m₁ a := fun a ha => hframe a fun b hb _ => by
        have hb' := (hbehind b hb).1
        omega
      refine ⟨m', ?_, ?_, fun a ha => ?_⟩
      · rw [heq, Search.target_push]
      · rw [Search.blocks_push]
        refine laid_append.mpr ⟨hus₁.frame fun b hb => ?_, ?_, hlaid⟩
        · have hb' := (hus₁.bounds.2 b hb).2
          rw [nextOf_cons] at hb'
          exact ⟨hback _ (by omega), hback _ (by omega)⟩
        · obtain ⟨hf₂, hroom, hdvd, hsize₂⟩ := hf₁
          rw [nextOf_search, Option.getD_none]
          refine ⟨(hback _ (by omega)).trans hf₂, hroom, hdvd, ?_⟩
          rw [SizeOk] at hsize₂ ⊢
          rw [hback _ (by omega)]
          exact hsize₂
      · rw [hframe a fun b hb => ha b (by simp [hb]), hsame a ha]

end HfRisc.Soft
