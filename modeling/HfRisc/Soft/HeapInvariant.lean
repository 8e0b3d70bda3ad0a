import HfRisc.Soft.HeapSpec

/-!
# The heap over a run

What every call keeps (`Layout`): the blocks are laid out from the start of the zone to the
sentinel, the last of them is free, and `last_free` is the first block or a used one. So
the search never starts inside a run, and never skips used blocks into the sentinel.
-/

namespace HfRisc.Soft

open HfRisc.Lib

/-- A zone that `heap_init` is called with: whole words, room for two headers, inside the
address space, and not at the bottom of it, where the sizes of requests would wrap. -/
structure Zone (z len : ℕ) : Prop where
  aligned : 4 ∣ z
  low : 8 < z
  words : 4 ∣ len
  room : 16 ≤ len
  high : z + len ≤ 4294967296

/-- The header at the end of the zone. -/
def sentinel (z len : ℕ) : ℕ := z + len - 8

structure Layout (s : Heap) (z len : ℕ) (bs : List Block) : Prop where
  first : s.firstFree = z
  start : nextOf (sentinel z len) bs = z
  laid : Laid s.mem (sentinel z len) bs
  next : s.mem (sentinel z len) = 0
  size : s.mem (sentinel z len + 4) % 2 = 0
  openEnd : ∀ b ∈ bs.getLast?, b.used = false
  lastFree : s.lastFree = z ∨ ⟨s.lastFree, true⟩ ∈ bs

variable {z len size fuel : ℕ} {s : Heap} {bs l₁ l₂ : List Block} {m : ℕ → ℕ} {e : ℕ}

/-! ## Order -/

/-- The blocks take up the zone. -/
theorem Laid.length (h : Laid m e bs) : nextOf e bs + 8 * bs.length ≤ e := by
  induction bs with
  | nil => simp
  | cons b rest ih =>
    obtain ⟨⟨-, hroom, -⟩, hrest⟩ := h
    have hle := ih hrest
    rw [nextOf_cons, List.length_cons]
    omega

/-- A block and those around it. -/
theorem Laid.around {b : Block} (h : Laid m e (l₁ ++ b :: l₂)) :
    (∀ c ∈ l₁, m c.start ≤ b.start) ∧ b.start + 8 ≤ m b.start ∧ m b.start ≤ e ∧
      ∀ c ∈ l₂, m b.start ≤ c.start := by
  obtain ⟨h₁, ⟨hnext, hroom, -⟩, h₂⟩ := laid_append.mp h
  obtain ⟨hle, hmem⟩ := h₂.bounds
  refine ⟨fun c hc => ?_, by omega, by omega, fun c hc => ?_⟩
  · obtain ⟨l, l', rfl⟩ := List.append_of_mem hc
    obtain ⟨-, ⟨hc', -⟩, hl'⟩ := laid_append.mp h₁
    rw [hc']
    exact hl'.bounds.1
  · rw [hnext]
    exact (hmem c hc).1

/-- A header is not in the payload of a block. -/
theorem Laid.header_ne {b c : Block} (h : Laid m e bs) (hb : b ∈ bs) (hc : c ∈ bs) {a : ℕ}
    (hlo : b.start + 8 ≤ a) (hhi : a < m b.start) : a ≠ c.start ∧ a ≠ c.start + 4 := by
  obtain ⟨l₁, l₂, rfl⟩ := List.append_of_mem hb
  obtain ⟨hbefore, -, -, hbehind⟩ := h.around
  rcases List.mem_append.mp hc with hc | hc
  · have hle := hbefore c hc
    obtain ⟨l, l', rfl⟩ := List.append_of_mem hc
    have hc' := (laid_append.mp h).1.around.2.1
    omega
  · rcases List.mem_cons.mp hc with rfl | hc
    · omega
    · have hle := hbehind c hc
      omega

/-- Two blocks do not overlap. -/
theorem Laid.disjoint {b c : Block} (h : Laid m e bs) (hb : b ∈ bs) (hc : c ∈ bs) (hne : b ≠ c) :
    m b.start ≤ c.start ∨ m c.start ≤ b.start := by
  obtain ⟨l₁, l₂, rfl⟩ := List.append_of_mem hb
  obtain ⟨hbefore, -, -, hbehind⟩ := h.around
  rcases List.mem_append.mp hc with hc | hc
  · exact .inr (hbefore c hc)
  · rcases List.mem_cons.mp hc with rfl | hc
    · exact absurd rfl hne
    · exact .inl (hbehind c hc)

namespace Layout

theorem sentinel_eq (hz : Zone z len) : sentinel z len + 8 = z + len := by
  have hroom := hz.room
  rw [sentinel]
  omega

theorem dvd_sentinel (hz : Zone z len) : 4 ∣ sentinel z len := by
  have heq := sentinel_eq hz
  have haligned := hz.aligned
  have hwords := hz.words
  omega

/-- A search from any block has fuel enough. -/
theorem length_lt (hz : Zone z len) (h : Layout s z len bs) : bs.length < len := by
  have hlen := h.laid.length
  have heq := sentinel_eq hz
  have hroom := hz.room
  rw [h.start] at hlen
  omega

/-- `last_free` is a place to start from. -/
theorem split (h : Layout s z len bs) :
    ∃ pre suf, bs = pre ++ suf ∧ nextOf (sentinel z len) suf = s.lastFree ∧
      (pre = [] ∨ ∃ rest, suf = ⟨s.lastFree, true⟩ :: rest) := by
  rcases h.lastFree with heq | hmem
  · exact ⟨[], bs, rfl, h.start.trans heq.symm, .inl rfl⟩
  · obtain ⟨pre, rest, rfl⟩ := List.append_of_mem hmem
    exact ⟨pre, _, rfl, rfl, .inr ⟨rest, rfl⟩⟩

end Layout

/-! ## Initialisation -/

theorem heapInit_layout (hz : Zone z len) (m : ℕ → ℕ) :
    Layout (heapInit m z len) z len [⟨z, false⟩] := by
  obtain ⟨haligned, hlow, hwords, hroom, hhigh⟩ := hz
  have hq : sub32 (add32 z len) 8 = sentinel z len := by
    rw [sub32, add32, sentinel]
    omega
  have halign : align4 len = len := by
    rw [align4_eq (by omega)]
    omega
  have hsize : sub32 (sub32 len 8) 8 = len - 16 := by
    rw [sub32_eq (x := len) (by omega) (by omega), sub32_eq (by omega) (by omega)]
    omega
  have hmem : (heapInit m z len).mem =
      setBlock (setBlock m z (sentinel z len) (len - 16)) (sentinel z len) 0 0 := by
    simp only [heapInit, hq, halign, hsize]
  have hlt : z + 8 ≤ sentinel z len := by
    rw [sentinel]
    omega
  refine ⟨rfl, rfl, ?_, ?_, ?_, ?_, .inl rfl⟩
  · rw [hmem]
    refine ⟨⟨?_, hlt, haligned, ?_⟩, trivial⟩
    · exact (setBlock_of_ne (by show z ≠ _; omega) (by show z ≠ _; omega)).trans
        (setBlock_next _ _ _ _)
    · show setBlock _ _ _ _ (z + 4) % 2 = 0
      rw [setBlock_of_ne (by omega) (by omega), setBlock_size]
      omega
  · rw [hmem, setBlock_next]
  · rw [hmem, setBlock_size]
  · rintro b hb
    cases hb
    rfl

/-! ## Release -/

/-- The block at `a`, released. -/
theorem free_layout (hz : Zone z len) {a : ℕ} (h : Layout s z len (l₁ ++ ⟨a, true⟩ :: l₂)) :
    Layout (free s (a + 8)) z len (l₁ ++ ⟨a, false⟩ :: l₂) ∧
      ∀ c, c ≠ a + 4 → (free s (a + 8)).mem c = s.mem c := by
  have hend := Layout.sentinel_eq hz
  have hhigh := hz.high
  obtain ⟨h₁, hblock, h₂⟩ := laid_append.mp h.laid
  obtain ⟨hnext, hroom, hdvd, hsize⟩ := hblock
  have hle := h₂.bounds.1
  change a + 8 ≤ _ at hroom
  change 4 ∣ a at hdvd
  change s.mem (a + 4) = _ - a - 8 + 1 at hsize
  have hptr : sub32 (a + 8) 8 = a := by
    rw [sub32_eq (by omega) (by omega)]
    omega
  have hmem : (free s (a + 8)).mem =
      Function.update s.mem (a + 4) (s.mem (a + 4) / 2 * 2) := by
    have hclear := clearUsed_eq (x := s.mem (a + 4)) (by omega)
    simp only [free, hptr, hclear]
  have hframe : ∀ c, c ≠ a + 4 → (free s (a + 8)).mem c = s.mem c := fun c hc => by
    rw [hmem, Function.update_of_ne hc]
  refine ⟨⟨h.first, ?_, laid_append.mpr ⟨h₁.frame fun b hb => ?_, ⟨?_, hroom, hdvd, ?_⟩,
    h₂.frame fun b hb => ?_⟩, ?_, ?_, getLast?_replace h.openEnd rfl, .inl h.first⟩, hframe⟩
  · rw [← h.start, nextOf_append, nextOf_append]
    rfl
  · have hb' := (h₁.bounds.2 b hb).2
    change b.start + 8 ≤ a at hb'
    exact ⟨hframe _ (by omega), hframe _ (by omega)⟩
  · exact (hframe a (by omega)).trans hnext
  · show (free s (a + 8)).mem (a + 4) % 2 = 0
    rw [hmem, Function.update_self]
    omega
  · have hb' := (h₂.bounds.2 b hb).1
    exact ⟨hframe _ (by omega), hframe _ (by omega)⟩
  · rw [hframe _ (by omega)]
    exact h.next
  · rw [hframe _ (by omega)]
    exact h.size

/-! ## Allocation -/

/-- The blocks after a search: the run that was found is split behind a payload of `n`
bytes. -/
def done (n : ℕ) : Search → List Block
  | .found pre q post => pre ++ ⟨q, true⟩ :: ⟨q + n + 8, false⟩ :: post
  | .full all => all

/-- What `malloc` does to the header of the run that was found. -/
theorem Laid.split {n q : ℕ} (h : Laid m e (l₁ ++ ⟨q, false⟩ :: l₂))
    (hfit : fits n q (nextOf e l₂) = true) (hn : 4 ∣ n) :
    Laid (Soft.setBlock (Soft.setBlock m q (q + n + 8) (n + 1)) (q + n + 8) (nextOf e l₂)
        4294967288) e
      (l₁ ++ ⟨q, true⟩ :: ⟨q + n + 8, false⟩ :: l₂) := by
  rw [fits_iff] at hfit
  obtain ⟨h₁, hblock, h₂⟩ := laid_append.mp h
  have hdvd : 4 ∣ q := hblock.2.2.1
  refine laid_append.mpr ⟨?_, ⟨?_, ?_, hdvd, ?_⟩, ⟨?_, ?_, ?_, ?_⟩, ?_⟩
  · refine (h₁.setBlock fun b hb => ?_).setBlock fun b hb => ?_
    · exact .inl (h₁.bounds.2 b hb).2
    · have hb' : b.start + 8 ≤ q := (h₁.bounds.2 b hb).2
      exact .inl (by omega)
  · show Soft.setBlock _ _ _ _ q = q + n + 8
    rw [setBlock_of_ne (by omega) (by omega), setBlock_next]
  · show q + 8 ≤ q + n + 8
    omega
  · show Soft.setBlock _ _ _ _ (q + 4) = q + n + 8 - q - 8 + 1
    rw [setBlock_of_ne (by omega) (by omega), setBlock_size]
    omega
  · exact setBlock_next _ _ _ _
  · show q + n + 8 + 8 ≤ _
    omega
  · show 4 ∣ q + n + 8
    omega
  · show Soft.setBlock _ _ _ _ (q + n + 8 + 4) % 2 = 0
    rw [setBlock_size]
  · refine (h₂.setBlock fun b hb => ?_).setBlock fun b hb => ?_
    · have hb' := (h₂.bounds.2 b hb).1
      exact .inr (by omega)
    · have hb' := (h₂.bounds.2 b hb).1
      exact .inr (by omega)

/-- A request that does not wrap around in `malloc`. -/
def Fits32 (size : ℕ) : Prop := size + 11 < 4294967296

instance (size : ℕ) : Decidable (Fits32 size) := inferInstanceAs (Decidable (_ < _))

theorem fits32_of_le (hz : Zone z len) (hsize : size ≤ len) : Fits32 size := by
  obtain ⟨haligned, hlow, -, -, hhigh⟩ := hz
  rw [Fits32]
  omega

theorem align4_spec (hsize : Fits32 size) :
    4 ∣ align4 size ∧ size ≤ align4 size ∧ align4 size + 8 < 4294967296 := by
  rw [Fits32] at hsize
  rw [align4_eq (by omega)]
  omega

/-- No payload of a used block is written, and none gets another end. -/
def KeepsUsed (bs : List Block) (m m' : ℕ → ℕ) : Prop :=
  ∀ b ∈ bs, b.used = true → m' b.start = m b.start ∧
    ∀ a, b.start + 8 ≤ a → a < m b.start → m' a = m a

/-- The search of `malloc` starts at `last_free` and keeps the layout. -/
theorem search_layout (hz : Zone z len) {pre suf : List Block} (h : Layout s z len (pre ++ suf))
    (hstart : nextOf (sentinel z len) suf = s.lastFree) {n t : ℕ} (ht : add32 n 8 = t)
    (hfuel : len ≤ fuel) :
    ∃ m', searchLoop n fuel fuel s.mem s.lastFree s.lastFree = some (m',
        (search (holds t) (sentinel z len) none suf).target.getD (sentinel z len)) ∧
      Layout { s with mem := m' } z len
        (pre ++ (search (holds t) (sentinel z len) none suf).blocks) ∧
      KeepsUsed (pre ++ suf) s.mem m' := by
  have hend := Layout.sentinel_eq hz
  have hdvd := Layout.dvd_sentinel hz
  have hlen := h.length_lt hz
  have hhigh := hz.high
  have hlow := hz.low
  obtain ⟨hlaid₁, hlaid₂⟩ := laid_append.mp h.laid
  rw [List.length_append] at hlen
  have hopen : ∀ b ∈ suf.getLast?, b.used = false :=
    fun b hb => h.openEnd b (List.mem_getLast?_append_of_mem_getLast? hb)
  obtain ⟨m', hloop, hlaid, hsame⟩ := searchLoop_spec (n := n) (k := fuel)
    (q := s.lastFree) ht hdvd (by omega) hlaid₂ h.next h.size hopen (by omega)
    (by omega : suf.length < fuel)
    (fun b hb _ => by
      cases suf with
      | nil => cases hb
      | cons c rest =>
        cases hb
        exact hstart.symm)
  rw [hstart] at hloop
  -- The search writes headers of free blocks behind the first ones, before the sentinel.
  have hbehind : ∀ c ∈ suf, nextOf (sentinel z len) suf ≤ c.start ∧ c.start + 8 ≤ sentinel z len :=
    hlaid₂.bounds.2
  have hout : ∀ a, a < nextOf (sentinel z len) suf ∨ sentinel z len ≤ a → m' a = s.mem a :=
    fun a ha => hsame a fun c hc _ => by
      have hc' := hbehind c hc
      omega
  have hpre : Laid m' (nextOf (sentinel z len) suf) pre := by
    refine hlaid₁.frame fun b hb => ?_
    have hb' := (hlaid₁.bounds.2 b hb).2
    exact ⟨hout _ (.inl (by omega)), hout _ (.inl (by omega))⟩
  refine ⟨m', hloop, ⟨h.first, ?_, laid_append.mpr ⟨?_, hlaid⟩, (hout _ (.inr (by omega))).trans
    h.next, ?_, fun b hb => ?_, ?_⟩, fun b hb hused => ⟨?_, fun a hlo hhi => ?_⟩⟩
  · have hstart' := h.start
    rw [nextOf_append] at hstart' ⊢
    rw [nextOf_search]
    exact hstart'
  · rw [nextOf_search, Option.getD_none]
    exact hpre
  · show m' (sentinel z len + 4) % 2 = 0
    rw [hout (sentinel z len + 4) (.inr (by omega))]
    exact h.size
  · cases hcase : (search (holds t) (sentinel z len) none suf).blocks.getLast? with
    | none =>
      have hsuf := search_eq_nil (List.getLast?_eq_none_iff.mp hcase)
      refine h.openEnd b ?_
      rw [List.getLast?_append, hcase] at hb
      rw [hsuf, List.append_nil]
      exact hb
    | some c =>
      rw [List.getLast?_append, hcase] at hb
      cases hb
      exact search_getLast hopen b hcase
  · refine h.lastFree.imp_right fun hmem => ?_
    rw [List.mem_append] at hmem ⊢
    exact hmem.imp_right (search_used none suf _).mpr
  · -- Two blocks do not begin at one address.
    refine hsame _ fun c hc hfree => ?_
    have hne : b ≠ c := fun heq => by
      rw [heq, hfree] at hused
      cases hused
    have hc' := List.mem_append_right pre hc
    have hsep := h.laid.disjoint hb hc' hne
    obtain ⟨l₁, l₂, hsplit⟩ := List.append_of_mem hb
    have hb' := (hsplit ▸ h.laid).around.2.1
    obtain ⟨l₃, l₄, hsplit'⟩ := List.append_of_mem hc'
    have hc'' := (hsplit' ▸ h.laid).around.2.1
    omega
  · exact hsame a fun c hc _ => h.laid.header_ne hb (List.mem_append_right pre hc) hlo hhi

/-- The split of the run that was found keeps the layout. -/
theorem split_layout {n q : ℕ} {post : List Block}
    (h : Layout s z len (l₁ ++ ⟨q, false⟩ :: post))
    (hfit : fits n q (nextOf (sentinel z len) post) = true) (hn : 4 ∣ n) :
    Layout ⟨setBlock (setBlock s.mem q (q + n + 8) (n + 1)) (q + n + 8)
        (nextOf (sentinel z len) post) 4294967288, s.firstFree, q⟩ z len
        (l₁ ++ ⟨q, true⟩ :: ⟨q + n + 8, false⟩ :: post) ∧
      KeepsUsed (l₁ ++ ⟨q, false⟩ :: post) s.mem
        (setBlock (setBlock s.mem q (q + n + 8) (n + 1)) (q + n + 8)
          (nextOf (sentinel z len) post) 4294967288) := by
  have hroom := fits_iff.mp hfit
  obtain ⟨-, hblock, hpost⟩ := laid_append.mp h.laid
  have hnext : s.mem q = nextOf (sentinel z len) post := hblock.1
  have hle := hpost.bounds.1
  have hframe : ∀ a, a < q ∨ q + n + 16 ≤ a → setBlock (setBlock s.mem q (q + n + 8) (n + 1))
      (q + n + 8) (nextOf (sentinel z len) post) 4294967288 a = s.mem a := fun a ha => by
    rw [setBlock_of_ne (by omega) (by omega), setBlock_of_ne (by omega) (by omega)]
  refine ⟨⟨h.first, ?_, h.laid.split hfit hn, ?_, ?_, ?_, ?_⟩, fun b hb hused => ?_⟩
  · rw [← h.start, nextOf_append, nextOf_append]
    rfl
  · exact (hframe _ (.inr (by omega))).trans h.next
  · exact (congrArg (· % 2) (hframe _ (.inr (by omega)))).trans h.size
  · rw [List.append_cons]
    exact getLast?_replace h.openEnd rfl
  · exact .inr (by simp)
  · have hne : b ≠ ⟨q, false⟩ := fun heq => by
      rw [heq] at hused
      cases hused
    have hsep := h.laid.disjoint hb (List.mem_append_right l₁ List.mem_cons_self) hne
    obtain ⟨l₃, l₄, hsplit⟩ := List.append_of_mem hb
    have hb' := (hsplit ▸ h.laid).around.2.1
    change s.mem b.start ≤ q ∨ s.mem q ≤ b.start at hsep
    exact ⟨hframe _ (by omega), fun a hlo hhi => hframe a (by omega)⟩

/-- `malloc`: from `last_free` on it is the search, and no payload of a used block is
written. -/
theorem malloc_layout (hz : Zone z len) {pre suf : List Block} (h : Layout s z len (pre ++ suf))
    (hstart : nextOf (sentinel z len) suf = s.lastFree) (hsize : Fits32 size)
    (hfuel : len ≤ fuel) :
    ∃ s', malloc s size fuel = some (s',
        (search (fits (align4 size)) (sentinel z len) none suf).target.elim 0 (· + 8)) ∧
      Layout s' z len (pre ++ done (align4 size)
        (search (fits (align4 size)) (sentinel z len) none suf)) ∧
      KeepsUsed (pre ++ suf) s.mem s'.mem := by
  obtain ⟨hn, -, hnlen⟩ := align4_spec hsize
  have hend := Layout.sentinel_eq hz
  have hhigh := hz.high
  have hlow := hz.low
  obtain ⟨m', hloop, hlayout, hkeep⟩ := search_layout hz h hstart (add32_eq hnlen) hfuel
  change searchLoop _ _ _ _ _ _ = some (m',
    (search (fits (align4 size)) (sentinel z len) none suf).target.getD (sentinel z len)) at hloop
  change Layout _ z len
    (pre ++ (search (fits (align4 size)) (sentinel z len) none suf).blocks) at hlayout
  cases hr : search (fits (align4 size)) (sentinel z len) none suf with
  | full all =>
    -- The search only joins free neighbours.
    rw [hr] at hloop hlayout
    refine ⟨{ s with mem := m' }, ?_, hlayout, hkeep⟩
    simp only [malloc, hloop, Option.bind_eq_bind, Option.bind_some]
    exact if_pos hlayout.next
  | found pre' q post =>
    have hused : ∀ a, ⟨a, true⟩ ∈ pre ++ suf → ⟨a, true⟩ ∈ pre ++ (pre' ++ ⟨q, false⟩ :: post) := by
      intro a ha
      have hmem : ⟨a, true⟩ ∈ (search (fits (align4 size)) (sentinel z len) none suf).blocks ↔
          ⟨a, true⟩ ∈ suf := search_used none suf a
      rw [hr] at hmem
      rw [List.mem_append] at ha ⊢
      exact ha.imp_right hmem.mpr
    rw [hr] at hloop hlayout
    rw [Search.blocks_found, ← List.append_assoc] at hlayout
    rw [← List.append_assoc] at hused
    have hfit := search_fits hr
    have hroom := fits_iff.mp hfit
    obtain ⟨hlayout', hkeep'⟩ := split_layout hlayout hfit hn
    obtain ⟨-, hblock, hpost⟩ := laid_append.mp hlayout.laid
    have hnext : m' q = nextOf (sentinel z len) post := hblock.1
    have hle := hpost.bounds.1
    set n := align4 size with hn_def
    -- The block is cut behind the `n` bytes, and nothing wraps.
    have hnew : add32 (add32 q n) 8 = q + n + 8 := by
      rw [add32_eq (x := q) (by omega), add32_eq (by omega)]
    have hset : setUsed n = n + 1 := setUsed_eq (by omega)
    have hrest : sub32 (sub32 (clearUsed (n + 1)) n) 8 = 4294967288 := by
      rw [clearUsed_eq (by omega), sub32_eq (x := (n + 1) / 2 * 2) (by omega) (by omega)]
      rw [show (n + 1) / 2 * 2 - n = 0 by omega]
      rfl
    refine ⟨_, ?_, by rw [done, ← List.append_assoc]; exact hlayout', fun b hb hb' => ?_⟩
    · simp only [malloc, ← hn_def, hloop, Option.bind_eq_bind, Option.bind_some,
        Search.target_found, Option.getD_some, hnext, hnew, hset, setBlock_size, setBlock_next,
        hrest]
      rw [if_neg (by omega), add32_eq (by omega)]
      rfl
    · obtain ⟨hb₁, hb₂⟩ := hkeep b hb hb'
      obtain ⟨start, used⟩ := b
      cases hb'
      obtain ⟨hb₃, hb₄⟩ := hkeep' _ (hused start hb) rfl
      exact ⟨hb₃.trans hb₁, fun a hlo hhi =>
        (hb₄ a hlo (hhi.trans_eq hb₁.symm)).trans (hb₂ a hlo hhi)⟩

end HfRisc.Soft
