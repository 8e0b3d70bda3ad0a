import HfRisc.Soft.HeapRun
import Mathlib.Data.List.Chain

/-!
# The heap

What holds of the heap after every call (`heap_sound`), and what `malloc` finds: from the
start of the heap the first run that fits, if the last call was `heap_init` or `free`
(`malloc_first_fit`); in general only what lies behind `last_free`, where the search
starts and does not wrap around (`malloc_null_iff`).

`align4` and the header are added on 32 bits, so a request close to `2 ^ 32` is compared with
the free runs as one of 8, 0 or 4 bytes. `malloc` refuses it only when no run holds even
that.
-/

namespace HfRisc.Results

open HfRisc.Lib HfRisc.Soft

variable {z len fuel size : ℕ} {s : Heap} {bs : List Block} {live : List (ℕ × ℕ)}

/-! ## After every call -/

/-- The size field of the block of a pointer, without its used bit. -/
def payload (s : Heap) (ptr : ℕ) : ℕ := clearUsed (s.mem (ptr - 8 + 4))

/-- The chain of blocks, and the live pointers with the sizes they were asked with. -/
structure Sound (z len : ℕ) (s : Heap) (live : List (ℕ × ℕ)) : Prop where
  first : s.firstFree = z
  chain : ∃ ps : List ℕ, ps.head? = some s.firstFree ∧
    ps.IsChain (fun a b => s.mem a = b ∧ a < b) ∧ ps.getLast? = some (sentinel z len) ∧
    s.mem (sentinel z len) = 0 ∧ s.lastFree ∈ ps ∧ ∀ p ∈ live, p.1 - 8 ∈ ps
  size : ∀ p ∈ live, payload s p.1 = s.mem (p.1 - 8) - (p.1 - 8) - 8
  aligned : ∀ p ∈ live, 4 ∣ p.1
  room : ∀ p ∈ live, p.2 ≤ payload s p.1
  inside : ∀ p ∈ live, z ≤ p.1 ∧ p.1 + payload s p.1 ≤ z + len
  disjoint : live.Pairwise fun p q =>
    p.1 + payload s p.1 ≤ q.1 ∨ q.1 + payload s q.1 ≤ p.1

/-- The addresses of the blocks and of the sentinel are a chain. -/
theorem isChain_of_laid {m : ℕ → ℕ} {e : ℕ} (h : Laid m e bs) :
    (bs.map Block.start ++ [e]).IsChain (fun a b => m a = b ∧ a < b) ∧
      (bs.map Block.start ++ [e]).head? = some (nextOf e bs) := by
  induction bs with
  | nil => exact ⟨List.isChain_singleton e, rfl⟩
  | cons b rest ih =>
    obtain ⟨⟨hnext, hroom, -⟩, hrest⟩ := h
    obtain ⟨hchain, hhead⟩ := ih hrest
    refine ⟨?_, rfl⟩
    rw [List.map_cons, List.cons_append, List.isChain_cons]
    refine ⟨fun a ha => ?_, hchain⟩
    rw [hhead] at ha
    cases ha
    exact ⟨hnext, by omega⟩

/-- The block of a live pointer. -/
theorem payload_eq (hz : Zone z len) (hlayout : Layout s z len bs) (howned : Owned s bs live)
    {p : ℕ × ℕ} (hp : p ∈ live) :
    ∃ a, p.1 = a + 8 ∧ ⟨a, true⟩ ∈ bs ∧ a + 8 + payload s p.1 = s.mem a ∧
      p.1 + p.2 ≤ s.mem a := by
  obtain ⟨a, ha, hmem, hroom⟩ := howned.block hp
  refine ⟨a, ha, hmem, ?_, hroom⟩
  have hend := Layout.sentinel_eq hz
  have hhigh := hz.high
  obtain ⟨l₁, l₂, rfl⟩ := List.append_of_mem hmem
  obtain ⟨-, ⟨hnext, hstop, hdvd, hsize⟩, h₂⟩ := laid_append.mp hlayout.laid
  have hle := h₂.bounds.1
  have hdvd' := h₂.dvd (Layout.dvd_sentinel hz)
  change s.mem a = _ at hnext
  change a + 8 ≤ _ at hstop
  change 4 ∣ a at hdvd
  change s.mem (a + 4) = _ - a - 8 + 1 at hsize
  rw [payload, ha, Nat.add_sub_cancel, hsize, hnext, clearUsed_eq (by omega)]
  omega

theorem sound_of_layout (hz : Zone z len) (hlayout : Layout s z len bs)
    (howned : Owned s bs live) : Sound z len s live := by
  have hend := Layout.sentinel_eq hz
  obtain ⟨hchain, hhead⟩ := isChain_of_laid hlayout.laid
  have hbounds := hlayout.laid.bounds.2
  rw [hlayout.start] at hbounds
  refine ⟨hlayout.first, ⟨_, ?_, hchain, ?_, hlayout.next, ?_, fun p hp => ?_⟩, fun p hp => ?_,
    fun p hp => ?_, fun p hp => ?_, fun p hp => ?_, ?_⟩
  · rw [hhead, hlayout.start, hlayout.first]
  · rw [List.getLast?_append]
    rfl
  · -- `last_free` is the first block or one of the others
    rcases hlayout.lastFree with heq | hmem
    · rw [hlayout.start] at hhead
      exact List.mem_of_mem_head? (heq ▸ hhead)
    · exact List.mem_append_left _ (List.mem_map_of_mem (f := Block.start) hmem)
  · obtain ⟨a, ha, hmem, -⟩ := howned.block hp
    rw [ha, Nat.add_sub_cancel]
    exact List.mem_append_left _ (List.mem_map_of_mem (f := Block.start) hmem)
  · obtain ⟨a, ha, -, hsize, -⟩ := payload_eq hz hlayout howned hp
    rw [ha] at hsize ⊢
    rw [Nat.add_sub_cancel]
    omega
  · obtain ⟨a, ha, hmem, -⟩ := howned.block hp
    obtain ⟨l₁, l₂, rfl⟩ := List.append_of_mem hmem
    have hdvd : 4 ∣ a := (laid_append.mp hlayout.laid).2.1.2.2.1
    omega
  · obtain ⟨a, ha, -, hsize, hroom⟩ := payload_eq hz hlayout howned hp
    omega
  · obtain ⟨a, ha, hmem, hsize, -⟩ := payload_eq hz hlayout howned hp
    have hlo := (hbounds _ hmem).1
    obtain ⟨l₁, l₂, rfl⟩ := List.append_of_mem hmem
    have hhi := hlayout.laid.around.2.2.1
    dsimp only at hlo hhi
    omega
  · have hnodup : live.Pairwise fun p q => p.1 ≠ q.1 := List.pairwise_map.mp howned.nodup
    refine hnodup.imp_of_mem fun hp hq hne => ?_
    obtain ⟨a, ha, hmem, hsize, -⟩ := payload_eq hz hlayout howned hp
    obtain ⟨b, hb, hmem', hsize', -⟩ := payload_eq hz hlayout howned hq
    have hsep := hlayout.laid.disjoint hmem hmem' (by simp; omega)
    dsimp only at hsep
    omega

/-- After every call of a run the heap is sound, the next `malloc` ends, and neither it nor a
`free` writes into the payload of a live block. -/
theorem heap_sound (hz : Zone z len) (hfuel : len ≤ fuel) (h : Reach z len fuel s live) :
    Sound z len s live ∧
      (∀ size ≤ len, ∃ s' ptr, malloc s size fuel = some (s', ptr) ∧
        ∀ p ∈ live, ∀ a, p.1 ≤ a → a < p.1 + payload s p.1 → s'.mem a = s.mem a) ∧
      ∀ q ∈ live, ∀ p ∈ live, ∀ a, p.1 ≤ a → a < p.1 + payload s p.1 →
        (free s q.1).mem a = s.mem a := by
  obtain ⟨bs, hlayout, howned⟩ := h.layout hz hfuel
  refine ⟨sound_of_layout hz hlayout howned, fun size hsize => ?_, fun q hq p hp a hlo hhi => ?_⟩
  · obtain ⟨pre, suf, rfl, hstart, -⟩ := hlayout.split
    obtain ⟨s', hrun, -, hkeep⟩ := malloc_layout hz hlayout hstart (fits32_of_le hz hsize) hfuel
    refine ⟨s', _, hrun, fun p hp a hlo hhi => ?_⟩
    obtain ⟨b, hb, hmem, hend, -⟩ := payload_eq hz hlayout howned hp
    exact (hkeep _ hmem rfl).2 a (by show b + 8 ≤ a; omega) (by show a < s.mem b; omega)
  · obtain ⟨b, hb, hmem, hend, -⟩ := payload_eq hz hlayout howned hp
    obtain ⟨c, hc, hmem', -⟩ := howned.block hq
    have hne := hlayout.laid.header_ne hmem hmem' (a := a) (by show b + 8 ≤ a; omega)
      (by show a < s.mem b; omega)
    obtain ⟨l₁, l₂, rfl⟩ := List.append_of_mem hmem'
    rw [hc]
    exact (free_layout hz hlayout).2 a hne.2

/-- The heap of 72 bytes at address 16. -/
def heap₀ : Heap := heapInit (fun _ => 0) 16 72

theorem zone₀ : Zone 16 72 := ⟨by decide, by decide, by decide, by decide, by decide⟩

/-- What `malloc` leaves there. -/
def alloc₀ (s : Heap) (size : ℕ) : Heap := ((malloc s size 72).map Prod.fst).getD s

theorem malloc_eq_alloc₀ {ptr : ℕ} (h : (malloc s size 72).map Prod.snd = some ptr) :
    malloc s size 72 = some (alloc₀ s size, ptr) := by
  rw [alloc₀]
  cases hm : malloc s size 72 with
  | none =>
    rw [hm] at h
    cases h
  | some r =>
    rw [hm] at h
    cases h
    rfl

theorem reach_alloc₀ (size ptr : ℕ) (h : Reach 16 72 72 s live) (hsize : size ≤ 72)
    (hptr : (malloc s size 72).map Prod.snd = some ptr) :
    Reach 16 72 72 (alloc₀ s size) (if ptr = 0 then live else (ptr, size) :: live) :=
  h.alloc hsize (malloc_eq_alloc₀ hptr)

/-- One live block. -/
theorem reach_one : Reach 16 72 72 (alloc₀ heap₀ 8) [(24, 8)] :=
  reach_alloc₀ 8 24 (Reach.init fun _ => 0) (by decide) (by decide +kernel)

theorem heap_sound_one : Sound 16 72 (alloc₀ heap₀ 8) [(24, 8)] :=
  (heap_sound zone₀ (le_refl 72) reach_one).1

/-! ## After `heap_init` and `free` -/

/-- Runs whose last call was `heap_init` or `free`. -/
inductive Rested (z len fuel : ℕ) : Heap → List (ℕ × ℕ) → Prop
  | init (m : ℕ → ℕ) : Rested z len fuel (heapInit m z len) []
  | release {s : Heap} {live : List (ℕ × ℕ)} {p : ℕ × ℕ} (h : Reach z len fuel s live)
      (hp : p ∈ live) : Rested z len fuel (free s p.1) (live.erase p)
  | write {s : Heap} {live : List (ℕ × ℕ)} {p : ℕ × ℕ} (h : Rested z len fuel s live)
      (hp : p ∈ live) (a v : ℕ) (hword : 4 ∣ a) (hlo : p.1 ≤ a) (hhi : a < p.1 + p.2) :
      Rested z len fuel { s with mem := Function.update s.mem a v } live

theorem Rested.reach (h : Rested z len fuel s live) :
    Reach z len fuel s live ∧ s.lastFree = s.firstFree := by
  induction h with
  | init m => exact ⟨.init m, rfl⟩
  | release h hp => exact ⟨.release h hp, rfl⟩
  | write h hp a v hword hlo hhi ih => exact ⟨.write ih.1 hp a v hword hlo hhi, ih.2⟩

/-- The runs that a search has passed are blocks of what it leaves. -/
theorem next_of_passed {n e : ℕ} {m : ℕ → ℕ} {r : Search} (hlaid : Laid m e (done n r))
    {a b : ℕ} (h : Follows (r.passed e).2 (r.passed e).1 a b) :
    m a = b ∧ m (a + 4) % 2 = 0 := by
  obtain ⟨l₁, l₂, hsplit, hnext⟩ := h
  have hpassed : Laid m (r.passed e).2 (r.passed e).1 := by
    cases r with
    | full all => exact hlaid
    | found pre q post => exact (laid_append.mp hlaid).1
  rw [hsplit] at hpassed
  obtain ⟨-, ⟨hm, -, -, hsize⟩, -⟩ := laid_append.mp hpassed
  exact ⟨hm.trans hnext, hsize⟩

/-- When the last call was `heap_init` or `free`, `malloc` returns the payload of the first
run of free blocks that fits, or null if there is none; the runs before it are one block
each, and no other block becomes used or free. -/
theorem malloc_first_fit (hz : Zone z len) (hfuel : len ≤ fuel) (h : Rested z len fuel s live)
    (hsize : size ≤ len) :
    ∃ bs, Layout s z len bs ∧ Owned s bs live ∧ ∃ s' ptr, malloc s size fuel = some (s', ptr) ∧
      ptr = ((runs (sentinel z len) none bs).find? fun r =>
        fits (align4 size) r.1 r.2).elim 0 (·.1 + 8) ∧
      ∃ bs', Layout s' z len bs' ∧ (∀ a, ⟨a, true⟩ ∈ bs' ↔ ⟨a, true⟩ ∈ bs ∨ ptr = a + 8) ∧
        ∀ r ∈ (runs (sentinel z len) none bs).takeWhile fun r => !fits (align4 size) r.1 r.2,
          s'.mem r.1 = r.2 ∧ s'.mem (r.1 + 4) % 2 = 0 := by
  obtain ⟨hreach, hlast⟩ := h.reach
  obtain ⟨bs, hlayout, howned⟩ := hreach.layout hz hfuel
  have hstart : nextOf (sentinel z len) bs = s.lastFree := by
    rw [hlast, hlayout.first, hlayout.start]
  have hempty : Layout s z len ([] ++ bs) := hlayout
  obtain ⟨s', hrun, hlayout', -⟩ := malloc_layout hz hempty hstart (fits32_of_le hz hsize) hfuel
  rw [List.nil_append] at hlayout'
  refine ⟨bs, hlayout, howned, s', _, hrun, ?_, _, hlayout', fun a => ?_, fun r hr => ?_⟩
  · rw [search_target]
    cases (runs (sentinel z len) none bs).find? fun r => fits (align4 size) r.1 r.2 <;> rfl
  · rw [mem_done, search_used]
    cases (search (fits (align4 size)) (sentinel z len) none bs).target with
    | none => simp
    | some q => simp
  · exact next_of_passed hlayout'.laid (search_follows none bs r hr)

/-- Two blocks are allocated and the first is released. -/
def holed : Heap := free (alloc₀ (alloc₀ heap₀ 8) 8) 24

/-- The hole is too small for 12 bytes, which are taken behind the live block. -/
theorem malloc_first_fit_holed :
    (malloc holed 12 72).map Prod.snd = some 56 ∧
      ∃ bs, Layout holed 16 72 bs ∧ Owned holed bs [(40, 8)] ∧
      ∃ s' ptr, malloc holed 12 72 = some (s', ptr) ∧
      ptr = ((runs (sentinel 16 72) none bs).find? fun r =>
        fits (align4 12) r.1 r.2).elim 0 (·.1 + 8) ∧
      ∃ bs', Layout s' 16 72 bs' ∧ (∀ a, ⟨a, true⟩ ∈ bs' ↔ ⟨a, true⟩ ∈ bs ∨ ptr = a + 8) ∧
        ∀ r ∈ (runs (sentinel 16 72) none bs).takeWhile fun r => !fits (align4 12) r.1 r.2,
          s'.mem r.1 = r.2 ∧ s'.mem (r.1 + 4) % 2 = 0 := by
  have htwo : Reach 16 72 72 (alloc₀ (alloc₀ heap₀ 8) 8) [(40, 8), (24, 8)] :=
    reach_alloc₀ 8 40 reach_one (by decide) (by decide +kernel)
  have hrested : Rested 16 72 72 holed [(40, 8)] := .release (p := (24, 8)) htwo (by decide)
  exact ⟨by decide +kernel, malloc_first_fit zone₀ (le_refl 72) hrested (by decide)⟩

/-! ## In general -/

/-- The runs that the search sees are those at or behind its first block. -/
theorem mem_runs_iff {e lf : ℕ} {m : ℕ → ℕ} {pre suf : List Block}
    (hlaid : Laid m e (pre ++ suf)) (hstart : nextOf e suf = lf)
    (hpre : pre = [] ∨ ∃ rest, suf = ⟨lf, true⟩ :: rest) (r : ℕ × ℕ) :
    r ∈ runs e none suf ↔ r ∈ runs e none (pre ++ suf) ∧ lf ≤ r.1 := by
  have hmem : ∀ {e' : ℕ} {l : List Block}, r ∈ runs e' none l → ⟨r.1, false⟩ ∈ l :=
    fun {e' l} hr => (runs_start (e := e') none l r hr).resolve_left nofun
  obtain ⟨hlaid₁, hlaid₂⟩ := laid_append.mp hlaid
  have hbehind : r ∈ runs e none suf → lf ≤ r.1 := fun hr =>
    hstart ▸ (hlaid₂.bounds.2 _ (hmem hr)).1
  rcases hpre with rfl | ⟨rest, rfl⟩
  · exact ⟨fun hr => ⟨hr, hbehind hr⟩, fun hr => hr.1⟩
  · rw [runs_append, List.mem_append]
    have hsuf : runs e none (⟨lf, true⟩ :: rest) = runs e none rest := by simp [runs]
    rw [hsuf] at hbehind ⊢
    constructor
    · exact fun hr => ⟨.inr hr, hbehind hr⟩
    · rintro ⟨hr | hr, hle⟩
      · have hbefore := (hlaid₁.bounds.2 _ (hmem hr)).2
        rw [nextOf_cons] at hbefore
        dsimp only at hbefore
        omega
      · exact hr

/-- `malloc` returns null if and only if no run of free blocks at or behind `last_free`
fits. -/
theorem malloc_null_iff (hz : Zone z len) (hfuel : len ≤ fuel) (h : Reach z len fuel s live)
    (hsize : size ≤ len) :
    ∃ bs, Layout s z len bs ∧ Owned s bs live ∧ ∃ s' ptr, malloc s size fuel = some (s', ptr) ∧
      (ptr = 0 ↔ ∀ r ∈ runs (sentinel z len) none bs, s.lastFree ≤ r.1 →
        ¬ fits (align4 size) r.1 r.2 = true) := by
  obtain ⟨bs, hlayout, howned⟩ := h.layout hz hfuel
  obtain ⟨pre, suf, rfl, hstart, hpre⟩ := hlayout.split
  obtain ⟨s', hrun, -⟩ := malloc_layout hz hlayout hstart (fits32_of_le hz hsize) hfuel
  refine ⟨_, hlayout, howned, s', _, hrun, ?_⟩
  have hnone : (search (fits (align4 size)) (sentinel z len) none suf).target.elim 0 (· + 8) = 0 ↔
      ∀ r ∈ runs (sentinel z len) none suf, ¬ fits (align4 size) r.1 r.2 = true := by
    rw [search_target, ← List.find?_eq_none]
    cases (runs (sentinel z len) none suf).find? fun r => fits (align4 size) r.1 r.2 <;> simp
  rw [hnone]
  constructor
  · intro hall r hr hle
    exact hall r ((mem_runs_iff hlayout.laid hstart hpre r).mpr ⟨hr, hle⟩)
  · intro hall r hr
    obtain ⟨hr', hle⟩ := (mem_runs_iff hlayout.laid hstart hpre r).mp hr
    exact hall r hr' hle

theorem malloc_null_iff_one :
    ∃ bs, Layout (alloc₀ heap₀ 8) 16 72 bs ∧ Owned (alloc₀ heap₀ 8) bs [(24, 8)] ∧
      ∃ s' ptr, malloc (alloc₀ heap₀ 8) 16 72 = some (s', ptr) ∧
        (ptr = 0 ↔ ∀ r ∈ runs (sentinel 16 72) none bs, (alloc₀ heap₀ 8).lastFree ≤ r.1 →
          ¬ fits (align4 16) r.1 r.2 = true) :=
  malloc_null_iff zone₀ (le_refl 72) reach_one (by decide)

/-- Two blocks of 8 bytes, of which the first is released, and one of 16 bytes behind them. -/
def fragmented : Heap := alloc₀ (free (alloc₀ (alloc₀ heap₀ 8) 8) 24) 16

/-- The released block fits a request of 0 bytes, which gets null: the search starts at the
block of 16 bytes. -/
theorem malloc_null_fragmented :
    Reach 16 72 72 fragmented [(56, 16), (40, 8)] ∧
      (∃ bs, Layout fragmented 16 72 bs ∧ (16, 32) ∈ runs (sentinel 16 72) none bs) ∧
      fits (align4 0) 16 32 = true ∧ ∃ s', malloc fragmented 0 72 = some (s', 0) := by
  have htwo : Reach 16 72 72 (alloc₀ (alloc₀ heap₀ 8) 8) [(40, 8), (24, 8)] :=
    reach_alloc₀ 8 40 reach_one (by decide) (by decide +kernel)
  have hfreed : Reach 16 72 72 (free (alloc₀ (alloc₀ heap₀ 8) 8) 24) [(40, 8)] :=
    htwo.release (p := (24, 8)) (by decide)
  refine ⟨reach_alloc₀ 16 56 hfreed (by decide) (by decide +kernel),
    ⟨[⟨16, false⟩, ⟨32, true⟩, ⟨48, true⟩, ⟨72, false⟩], ?_, by decide⟩, by decide,
    _, malloc_eq_alloc₀ (by decide +kernel)⟩
  exact ⟨by decide +kernel, by decide, by decide +kernel, by decide +kernel, by decide +kernel,
    by decide, by decide +kernel⟩

end HfRisc.Results

/-! ## Requests of any size -/

namespace HfRisc.Results

open HfRisc.Lib HfRisc.Soft

variable {z len fuel size ptr : ℕ} {s s' : Heap} {bs pre suf : List Block}
  {live : List (ℕ × ℕ)}

/-- What the search of `malloc` compares the size of a run with. -/
def asked (size : ℕ) : ℕ := add32 (align4 size) 8

/-- No free run at or behind `last_free` holds what the search asks for. -/
def NoRun (z len : ℕ) (s : Heap) (size : ℕ) : Prop :=
  ∀ bs, Layout s z len bs → ∀ r ∈ runs (sentinel z len) none bs, s.lastFree ≤ r.1 →
    r.2 - r.1 - 8 < asked size

/-- A request that does not wrap around, or that no run holds even so. -/
def Guarded (z len : ℕ) (s : Heap) (size : ℕ) : Prop := Fits32 size ∨ NoRun z len s size

/-- Runs from `heap_init` with requests of any size, each of them guarded. -/
inductive Reach32 (z len fuel : ℕ) : Heap → List (ℕ × ℕ) → Prop
  | init (m : ℕ → ℕ) : Reach32 z len fuel (heapInit m z len) []
  | alloc {s s' : Heap} {live : List (ℕ × ℕ)} {size ptr : ℕ} (h : Reach32 z len fuel s live)
      (hsize : size < 4294967296) (hguard : Guarded z len s size)
      (hrun : malloc s size fuel = some (s', ptr)) :
      Reach32 z len fuel s' (if ptr = 0 then live else (ptr, size) :: live)
  | release {s : Heap} {live : List (ℕ × ℕ)} {p : ℕ × ℕ} (h : Reach32 z len fuel s live)
      (hp : p ∈ live) : Reach32 z len fuel (free s p.1) (live.erase p)
  | write {s : Heap} {live : List (ℕ × ℕ)} {p : ℕ × ℕ} (h : Reach32 z len fuel s live)
      (hp : p ∈ live) (a v : ℕ) (hword : 4 ∣ a) (hlo : p.1 ≤ a) (hhi : a < p.1 + p.2) :
      Reach32 z len fuel { s with mem := Function.update s.mem a v } live

/-! ## The search of any request -/

section Search

variable (hz : Zone z len) (hfuel : len ≤ fuel) (h : Layout s z len (pre ++ suf))
  (hstart : nextOf (sentinel z len) suf = s.lastFree)
include hz hfuel h hstart

theorem malloc_of_full {all : List Block}
    (hr : search (holds (asked size)) (sentinel z len) none suf = .full all) :
    ∃ m', malloc s size fuel = some ({ s with mem := m' }, 0) ∧
      Layout { s with mem := m' } z len (pre ++ all) ∧ KeepsUsed (pre ++ suf) s.mem m' := by
  obtain ⟨m', hloop, hlayout, hkeep⟩ :=
    search_layout hz h hstart (t := asked size) (n := align4 size) rfl hfuel
  rw [hr] at hloop hlayout
  refine ⟨m', ?_, hlayout, hkeep⟩
  simp only [malloc, hloop, Option.bind_eq_bind, Option.bind_some]
  exact if_pos hlayout.next

/-- The run that is found lies in the zone, and its payload is returned. -/
theorem malloc_of_found {pre' post : List Block} {q : ℕ}
    (hr : search (holds (asked size)) (sentinel z len) none suf = .found pre' q post) :
    ∃ s', malloc s size fuel = some (s', q + 8) ∧ z ≤ q ∧ q + 8 + asked size ≤ sentinel z len := by
  obtain ⟨m', hloop, hlayout, -⟩ :=
    search_layout hz h hstart (t := asked size) (n := align4 size) rfl hfuel
  rw [hr] at hloop hlayout
  rw [Search.blocks_found, ← List.append_assoc] at hlayout
  have hend := Layout.sentinel_eq hz
  have hhigh := hz.high
  obtain ⟨-, hbounds⟩ := hlayout.laid.bounds
  have hlo := (hbounds ⟨q, false⟩ (by simp)).1
  rw [hlayout.start] at hlo
  obtain ⟨-, hblock, hpost⟩ := laid_append.mp hlayout.laid
  have hnext : m' q = nextOf (sentinel z len) post := hblock.1
  have hroom : q + 8 ≤ nextOf (sentinel z len) post := hblock.2.1
  have hle := hpost.bounds.1
  have hfit : asked size ≤ nextOf (sentinel z len) post - q - 8 :=
    of_decide_eq_true (search_fits hr)
  have hptr : add32 q 8 = q + 8 := add32_eq (by omega)
  have hrun : ∃ s', malloc s size fuel = some (s', add32 q 8) := by
    simp only [malloc, hloop, Option.bind_eq_bind, Option.bind_some, Search.target_found,
      Option.getD_some]
    exact ⟨_, if_neg (by omega)⟩
  obtain ⟨s', hrun⟩ := hrun
  exact ⟨s', hptr ▸ hrun, hlo, by omega⟩

end Search

/-- `malloc` returns null if and only if no run holds what is asked. -/
theorem malloc_zero_iff (hz : Zone z len) (hfuel : len ≤ fuel) (h : Layout s z len bs)
    (hrun : malloc s size fuel = some (s', ptr)) :
    ptr = 0 ↔ ∀ r ∈ runs (sentinel z len) none bs, s.lastFree ≤ r.1 →
      r.2 - r.1 - 8 < asked size := by
  obtain ⟨pre, suf, rfl, hstart, hpre⟩ := h.split
  have hseen : (∀ r ∈ runs (sentinel z len) none (pre ++ suf), s.lastFree ≤ r.1 →
      r.2 - r.1 - 8 < asked size) ↔
      (search (holds (asked size)) (sentinel z len) none suf).target = none := by
    rw [search_target, Option.map_eq_none_iff, List.find?_eq_none]
    constructor
    · intro hall r hr hholds
      obtain ⟨hr', hle⟩ := (mem_runs_iff h.laid hstart hpre r).mp hr
      exact Nat.not_le.mpr (hall r hr' hle) (of_decide_eq_true hholds)
    · intro hall r hr hle
      have hr' := (mem_runs_iff h.laid hstart hpre r).mpr ⟨hr, hle⟩
      exact Nat.not_le.mp fun hholds => hall r hr' (decide_eq_true hholds)
  rw [hseen]
  cases hr : search (holds (asked size)) (sentinel z len) none suf with
  | full all =>
    obtain ⟨m', hrun', -⟩ := malloc_of_full hz hfuel h hstart hr
    obtain ⟨-, rfl⟩ := Prod.mk.inj (Option.some.inj (hrun.symm.trans hrun'))
    exact ⟨fun _ => rfl, fun _ => rfl⟩
  | found pre' q post =>
    obtain ⟨s'', hrun', -⟩ := malloc_of_found hz hfuel h hstart hr
    obtain ⟨-, rfl⟩ := Prod.mk.inj (Option.some.inj (hrun.symm.trans hrun'))
    exact ⟨fun heq => absurd heq (Nat.succ_ne_zero _), fun heq => by cases heq⟩

/-- A request that is refused leaves the live blocks as they are. -/
theorem kept_of_noRun (hz : Zone z len) (hfuel : len ≤ fuel) (h : Kept z len s live)
    (hno : NoRun z len s size) (hrun : malloc s size fuel = some (s', ptr)) :
    ptr = 0 ∧ Kept z len s' live := by
  obtain ⟨bs, hlayout, howned⟩ := h
  have hzero := (malloc_zero_iff hz hfuel hlayout hrun).mpr (hno bs hlayout)
  refine ⟨hzero, ?_⟩
  obtain ⟨pre, suf, rfl, hstart, -⟩ := hlayout.split
  cases hr : search (holds (asked size)) (sentinel z len) none suf with
  | found pre' q post =>
    obtain ⟨s'', hrun', -⟩ := malloc_of_found hz hfuel hlayout hstart hr
    obtain ⟨-, rfl⟩ := Prod.mk.inj (Option.some.inj (hrun.symm.trans hrun'))
    cases hzero
  | full all =>
    obtain ⟨m', hrun', hlayout', hkeep⟩ := malloc_of_full hz hfuel hlayout hstart hr
    obtain ⟨rfl, -⟩ := Prod.mk.inj (Option.some.inj (hrun.symm.trans hrun'))
    have hused : ∀ a, ⟨a, true⟩ ∈ all ↔ ⟨a, true⟩ ∈ suf := fun a => by
      have hmem : ⟨a, true⟩ ∈ (search (holds (asked size)) (sentinel z len) none suf).blocks ↔
          ⟨a, true⟩ ∈ suf := search_used none suf a
      rw [hr] at hmem
      exact hmem
    refine ⟨_, hlayout', howned.nodup, fun a => ?_, fun p hp => ?_⟩
    · rw [List.mem_append, hused, ← List.mem_append]
      exact howned.known a
    · obtain ⟨a, ha, hmem, hle⟩ := howned.block hp
      exact ⟨a, ha, hle.trans_eq (hkeep _ hmem rfl).1.symm⟩

/-! ## Runs -/

theorem Reach32.kept (hz : Zone z len) (hfuel : len ≤ fuel) (h : Reach32 z len fuel s live) :
    Kept z len s live := by
  induction h with
  | init m => exact Kept.init hz m
  | alloc h hsize hguard hrun ih =>
    rcases hguard with hfits | hno
    · exact Kept.alloc hz hfuel ih hfits hrun
    · obtain ⟨hzero, hkept⟩ := kept_of_noRun hz hfuel ih hno hrun
      rw [if_pos hzero]
      exact hkept
  | release h hp ih => exact Kept.release hz ih hp
  | write h hp a v hword hlo hhi ih => exact Kept.write ih hp v hlo hhi

/-- In every heap reached by guarded requests, `malloc` ends, and for every 32-bit size what it
returns is null or the start of that many bytes of the zone before the sentinel if and only if
the request is guarded, too. -/
theorem malloc_inside_iff (hz : Zone z len) (hfuel : len ≤ fuel)
    (h : Reach32 z len fuel s live) (hsize : size < 4294967296) :
    ∃ s' ptr, malloc s size fuel = some (s', ptr) ∧
      ((ptr ≠ 0 → z ≤ ptr ∧ ptr + size ≤ sentinel z len) ↔ Guarded z len s size) := by
  obtain ⟨bs, hlayout, -⟩ := h.kept hz hfuel
  obtain ⟨pre, suf, rfl, hstart, -⟩ := hlayout.split
  cases hr : search (holds (asked size)) (sentinel z len) none suf with
  | full all =>
    obtain ⟨m', hrun, -⟩ := malloc_of_full hz hfuel hlayout hstart hr
    refine ⟨_, 0, hrun, fun _ => .inr fun bs' hlayout' => ?_, fun _ hne => absurd rfl hne⟩
    exact (malloc_zero_iff hz hfuel hlayout' hrun).mp rfl
  | found pre' q post =>
    obtain ⟨s', hrun, hlo, hroom⟩ := malloc_of_found hz hfuel hlayout hstart hr
    have hend := Layout.sentinel_eq hz
    have hhigh := hz.high
    have hlow := hz.low
    refine ⟨s', q + 8, hrun, fun hinside => ?_, fun hguard _ => ?_⟩
    · obtain ⟨-, hle⟩ := hinside (Nat.succ_ne_zero _)
      left
      rw [Fits32]
      omega
    · rcases hguard with hfits | hno
      · obtain ⟨-, hsix, hlt⟩ := align4_spec hfits
        rw [asked, add32_eq hlt] at hroom
        omega
      · have hzero := (malloc_zero_iff hz hfuel hlayout hrun).mpr (hno _ hlayout)
        cases hzero

/-- A request that is larger than the zone is refused. -/
theorem malloc_inside_iff_large :
    ∃ s' ptr, malloc heap₀ 100 72 = some (s', ptr) ∧
      ((ptr ≠ 0 → 16 ≤ ptr ∧ ptr + 100 ≤ sentinel 16 72) ↔ Guarded 16 72 heap₀ 100) :=
  malloc_inside_iff zone₀ (le_refl 72) (Reach32.init fun _ => 0) (by decide)

/-- The largest size but two is rounded to zero, and gets a block of the zone of 72 bytes. -/
theorem malloc_inside_wrapped :
    ¬ ∀ (z len fuel : ℕ) (s : Heap) (live : List (ℕ × ℕ)) (size : ℕ), Zone z len → len ≤ fuel →
      Reach z len fuel s live → size < 4294967296 → ∀ s' ptr,
        malloc s size fuel = some (s', ptr) → ptr ≠ 0 → ptr + size ≤ sentinel z len := by
  intro h
  have hle := h 16 72 72 heap₀ [] 0xfffffffd zone₀ (le_refl 72) (Reach.init fun _ => 0)
    (by decide) _ 24 (malloc_eq_alloc₀ (by decide +kernel)) (by decide)
  exact absurd hle (by decide)

end HfRisc.Results
