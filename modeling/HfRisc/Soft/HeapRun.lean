import HfRisc.Soft.HeapInvariant
import Mathlib.Data.List.Nodup

/-!
# Runs of `malloc` and `free`

The heaps that a program can reach: it calls `malloc` and `free`, and writes to the payloads
it has been given. The used blocks are the live pointers (`Owned`).
-/

namespace HfRisc.Soft

open HfRisc.Lib

variable {z len fuel : ℕ} {s s' : Heap} {bs : List Block} {live : List (ℕ × ℕ)}

/-- Runs from `heap_init`, with the pointers that are live and the sizes they were asked
with. -/
inductive Reach (z len fuel : ℕ) : Heap → List (ℕ × ℕ) → Prop
  | init (m : ℕ → ℕ) : Reach z len fuel (heapInit m z len) []
  | alloc {s s' : Heap} {live : List (ℕ × ℕ)} {size ptr : ℕ} (h : Reach z len fuel s live)
      (hsize : size ≤ len) (hrun : malloc s size fuel = some (s', ptr)) :
      Reach z len fuel s' (if ptr = 0 then live else (ptr, size) :: live)
  | release {s : Heap} {live : List (ℕ × ℕ)} {p : ℕ × ℕ} (h : Reach z len fuel s live)
      (hp : p ∈ live) : Reach z len fuel (free s p.1) (live.erase p)
  | write {s : Heap} {live : List (ℕ × ℕ)} {p : ℕ × ℕ} (h : Reach z len fuel s live)
      (hp : p ∈ live) (a v : ℕ) (hword : 4 ∣ a) (hlo : p.1 ≤ a) (hhi : a < p.1 + p.2) :
      Reach z len fuel { s with mem := Function.update s.mem a v } live

/-- The live pointers are those to the payloads of the used blocks, with room for what was
asked. -/
structure Owned (s : Heap) (bs : List Block) (live : List (ℕ × ℕ)) : Prop where
  nodup : (live.map Prod.fst).Nodup
  known : ∀ a, ⟨a, true⟩ ∈ bs ↔ a + 8 ∈ live.map Prod.fst
  room : ∀ p ∈ live, ∃ a, p.1 = a + 8 ∧ p.1 + p.2 ≤ s.mem a

theorem Owned.block (h : Owned s bs live) {p : ℕ × ℕ} (hp : p ∈ live) :
    ∃ a, p.1 = a + 8 ∧ ⟨a, true⟩ ∈ bs ∧ p.1 + p.2 ≤ s.mem a := by
  obtain ⟨a, ha, hroom⟩ := h.room p hp
  exact ⟨a, ha, (h.known a).mpr (ha ▸ List.mem_map_of_mem hp), hroom⟩

/-- A block starts nowhere else. -/
theorem Laid.notMem {m : ℕ → ℕ} {e : ℕ} {b c : Block} {l₁ l₂ : List Block}
    (h : Laid m e (l₁ ++ b :: l₂)) (heq : c.start = b.start) : c ∉ l₁ ++ l₂ := by
  intro hc
  obtain ⟨hbefore, hroom, -, hbehind⟩ := h.around
  rcases List.mem_append.mp hc with hc | hc
  · have hle := hbefore c hc
    rw [heq] at hle
    omega
  · have hle := hbehind c hc
    rw [heq] at hle
    omega

/-- The used blocks behind a search, with the one it has found. -/
theorem mem_done {n a : ℕ} {r : Search} :
    ⟨a, true⟩ ∈ done n r ↔ ⟨a, true⟩ ∈ r.blocks ∨ r.target = some a := by
  cases r with
  | full all => simp [done]
  | found pre q post =>
    simp only [done, Search.blocks_found, Search.target_found, List.mem_append, List.mem_cons,
      Block.mk.injEq, Option.some_inj, reduceCtorEq, and_true, and_false, false_or]
    constructor
    · rintro (h | h | h)
      · exact .inl (.inl h)
      · exact .inr h.symm
      · exact .inl (.inr h)
    · rintro ((h | h) | h)
      · exact .inl h
      · exact .inr (.inr h)
      · exact .inr (.inl h.symm)

theorem owned_alloc {pre suf : List Block} {n size : ℕ} {e : ℕ}
    (h : Owned s (pre ++ suf) live) (hsize : size ≤ n)
    (hlaid : Laid s'.mem e (pre ++ done n (search (fits n) e none suf)))
    (hkeep : KeepsUsed (pre ++ suf) s.mem s'.mem) :
    Owned s' (pre ++ done n (search (fits n) e none suf))
      (if (search (fits n) e none suf).target.elim 0 (· + 8) = 0 then live
      else ((search (fits n) e none suf).target.elim 0 (· + 8), size) :: live) := by
  have hused : ∀ a, ⟨a, true⟩ ∈ pre ++ done n (search (fits n) e none suf) ↔
      ⟨a, true⟩ ∈ pre ++ suf ∨ (search (fits n) e none suf).target = some a := fun a => by
    rw [List.mem_append, List.mem_append, mem_done, search_used, or_assoc]
  have hroom : ∀ p ∈ live, ∃ a, p.1 = a + 8 ∧ p.1 + p.2 ≤ s'.mem a := fun p hp => by
    obtain ⟨a, ha, hmem, hle⟩ := h.block hp
    exact ⟨a, ha, (hkeep _ hmem rfl).1 ▸ hle⟩
  cases hr : search (fits n) e none suf with
  | full all =>
    rw [hr] at hused
    refine ⟨h.nodup, fun a => ?_, hroom⟩
    rw [hused, h.known]
    simp
  | found pre' q post =>
    rw [hr, done, ← List.append_assoc] at hlaid
    rw [hr] at hused
    have hblock := (laid_append.mp hlaid).2.1
    -- The pointer is not one of the live ones.
    have hnew : q + 8 ∉ live.map Prod.fst := by
      rw [← h.known]
      intro hmem
      have hmem' : ⟨q, true⟩ ∈ pre ++ (search (fits n) e none suf).blocks := by
        rw [List.mem_append, search_used, ← List.mem_append]
        exact hmem
      rw [hr] at hmem'
      refine hlaid.notMem (c := ⟨q, true⟩) rfl ?_
      simp only [Search.blocks_found, List.mem_append, List.mem_cons, Block.mk.injEq,
        reduceCtorEq, and_false, false_or] at hmem' ⊢
      rcases hmem' with hm | hm | hm
      · exact .inl (.inl hm)
      · exact .inl (.inr hm)
      · exact .inr hm
    rw [Search.target_found, Option.elim_some, if_neg (Nat.succ_ne_zero _)]
    refine ⟨?_, fun a => ?_, fun p hp => ?_⟩
    · rw [List.map_cons, List.nodup_cons]
      exact ⟨hnew, h.nodup⟩
    · rw [hused, h.known, List.map_cons, List.mem_cons, Search.target_found, Option.some_inj,
        or_comm]
      show q = a ∨ _ ↔ a + 8 = q + 8 ∨ _
      rw [Nat.add_right_cancel_iff, eq_comm]
    · rcases List.mem_cons.mp hp with rfl | hp
      · refine ⟨q, rfl, ?_⟩
        have hnext : s'.mem q = q + n + 8 := hblock.1
        show q + 8 + size ≤ s'.mem q
        omega
      · exact hroom p hp

/-- A store that hits no header. -/
theorem Layout.store (h : Layout s z len bs) {a v : ℕ}
    (hne : ∀ b ∈ bs, a ≠ b.start ∧ a ≠ b.start + 4)
    (hend : a ≠ sentinel z len ∧ a ≠ sentinel z len + 4) :
    Layout { s with mem := Function.update s.mem a v } z len bs where
  first := h.first
  start := h.start
  laid := h.laid.frame fun b hb =>
    ⟨Function.update_of_ne (hne b hb).1.symm _ _, Function.update_of_ne (hne b hb).2.symm _ _⟩
  next := (Function.update_of_ne hend.1.symm _ _).trans h.next
  size := (congrArg (· % 2) (Function.update_of_ne hend.2.symm _ _)).trans h.size
  openEnd := h.openEnd
  lastFree := h.lastFree

theorem Owned.store (h : Owned s bs live) {a v : ℕ}
    (hne : ∀ b ∈ bs, a ≠ b.start ∧ a ≠ b.start + 4) :
    Owned { s with mem := Function.update s.mem a v } bs live := by
  refine ⟨h.nodup, h.known, fun p hp => ?_⟩
  obtain ⟨b, hb, hmem, hroom⟩ := h.block hp
  exact ⟨b, hb, hroom.trans_eq (Function.update_of_ne (hne _ hmem).1.symm v s.mem).symm⟩

/-- A layout whose used blocks are the live pointers. -/
def Kept (z len : ℕ) (s : Heap) (live : List (ℕ × ℕ)) : Prop :=
  ∃ bs, Layout s z len bs ∧ Owned s bs live

namespace Kept

theorem init (hz : Zone z len) (m : ℕ → ℕ) : Kept z len (heapInit m z len) [] := by
  refine ⟨_, heapInit_layout hz m, List.nodup_nil, fun a => ?_, nofun⟩
  simp

/-- A request that does not wrap around. -/
theorem alloc (hz : Zone z len) (hfuel : len ≤ fuel) {size ptr : ℕ} (h : Kept z len s live)
    (hsize : Fits32 size) (hrun : malloc s size fuel = some (s', ptr)) :
    Kept z len s' (if ptr = 0 then live else (ptr, size) :: live) := by
  obtain ⟨bs, hlayout, howned⟩ := h
  obtain ⟨pre, suf, rfl, hstart, -⟩ := hlayout.split
  obtain ⟨s'', hrun', hlayout', hkeep⟩ := malloc_layout hz hlayout hstart hsize hfuel
  obtain ⟨rfl, rfl⟩ := Prod.mk.inj (Option.some.inj (hrun.symm.trans hrun'))
  exact ⟨_, hlayout', owned_alloc howned (align4_spec hsize).2.1 hlayout'.laid hkeep⟩

theorem release (hz : Zone z len) {p : ℕ × ℕ} (h : Kept z len s live) (hp : p ∈ live) :
    Kept z len (free s p.1) (live.erase p) := by
  obtain ⟨bs, hlayout, howned⟩ := h
  obtain ⟨a, ha, hmem, -⟩ := howned.block hp
  obtain ⟨l₁, l₂, rfl⟩ := List.append_of_mem hmem
  obtain ⟨hlayout', hframe⟩ := free_layout hz hlayout
  rw [← ha] at hlayout' hframe
  have hnot := hlayout.laid.notMem (c := ⟨a, true⟩) rfl
  have hnodup : live.Nodup := howned.nodup.of_map
  have herase : ∀ q ∈ live.erase p, q ∈ live ∧ q.1 ≠ p.1 := fun q hq => by
    obtain ⟨hne, hq⟩ := hnodup.mem_erase_iff.mp hq
    exact ⟨hq, fun heq => hne (List.inj_on_of_nodup_map howned.nodup hq hp heq)⟩
  refine ⟨_, hlayout', ?_, fun c => ?_, fun q hq => ?_⟩
  · exact howned.nodup.sublist ((List.erase_sublist).map Prod.fst)
  · -- the block is not used any more, and the others are as before
    have hc : ⟨c, true⟩ ∈ l₁ ++ ⟨a, false⟩ :: l₂ ↔
        ⟨c, true⟩ ∈ l₁ ++ ⟨a, true⟩ :: l₂ ∧ c ≠ a := by
      simp only [List.mem_append, List.mem_cons, Block.mk.injEq, reduceCtorEq, and_false,
        false_or, and_true]
      constructor
      · intro hmem'
        refine ⟨hmem'.imp_right .inr, ?_⟩
        rintro rfl
        exact hnot (List.mem_append.mpr hmem')
      · rintro ⟨h₁ | h₂ | h₃, hne⟩
        · exact .inl h₁
        · exact absurd h₂ hne
        · exact .inr h₃
    rw [hc, howned.known]
    constructor
    · rintro ⟨hmem', hne⟩
      obtain ⟨q, hq, hqc⟩ := List.mem_map.mp hmem'
      refine List.mem_map.mpr ⟨q, hnodup.mem_erase_iff.mpr ⟨?_, hq⟩, hqc⟩
      rintro rfl
      omega
    · intro hmem'
      obtain ⟨q, hq, hqc⟩ := List.mem_map.mp hmem'
      obtain ⟨hq', hne⟩ := herase q hq
      exact ⟨List.mem_map.mpr ⟨q, hq', hqc⟩, by omega⟩
  · -- only the header of the released block is written
    obtain ⟨hq', hne⟩ := herase q hq
    obtain ⟨c, hc, hcmem, hroom⟩ := howned.block hq'
    refine ⟨c, hc, ?_⟩
    have hsep := hlayout.laid.disjoint hcmem hmem (by simp; omega)
    obtain ⟨l₃, l₄, hsplit⟩ := List.append_of_mem hcmem
    have hc' := (hsplit ▸ hlayout.laid).around.2.1
    have ha' := hlayout.laid.around.2.1
    dsimp only at hsep hc' ha'
    rw [hframe c (by omega)]
    exact hroom

theorem write {p : ℕ × ℕ} (h : Kept z len s live) (hp : p ∈ live) {a : ℕ} (v : ℕ)
    (hlo : p.1 ≤ a) (hhi : a < p.1 + p.2) :
    Kept z len { s with mem := Function.update s.mem a v } live := by
  obtain ⟨bs, hlayout, howned⟩ := h
  obtain ⟨b, hb, hmem, hroom⟩ := howned.block hp
  have hlo' : b + 8 ≤ a := by omega
  have hhi' : a < s.mem b := by omega
  have hheader : ∀ c ∈ bs, a ≠ c.start ∧ a ≠ c.start + 4 := fun c hc =>
    hlayout.laid.header_ne hmem hc hlo' hhi'
  obtain ⟨l₁, l₂, hsplit⟩ := List.append_of_mem hmem
  have hend := (hsplit ▸ hlayout.laid).around.2.2.1
  dsimp only at hend
  exact ⟨bs, hlayout.store hheader ⟨by omega, by omega⟩, howned.store hheader⟩

end Kept

/-- Every heap reached has a layout whose used blocks are the live pointers. -/
theorem Reach.layout (hz : Zone z len) (hfuel : len ≤ fuel) (h : Reach z len fuel s live) :
    ∃ bs, Layout s z len bs ∧ Owned s bs live := by
  induction h with
  | init m => exact Kept.init hz m
  | alloc h hsize hrun ih => exact Kept.alloc hz hfuel ih (fits32_of_le hz hsize) hrun
  | release h hp ih => exact Kept.release hz ih hp
  | write h hp a v hword hlo hhi ih => exact Kept.write ih hp v hlo hhi

end HfRisc.Soft
