import HfRisc.Soft.Strings

/-!
# Repeated calls of `strtok`

The calls return the segments between the delimiters one after the other, and then `NULL`. A call
overwrites the delimiter behind its token, so that the delimiters of the next call are others where
they are a part of the string that begins there.
-/

namespace HfRisc.Soft

namespace Strtok

open HfRisc.Lib (IsSegment)
open HfRisc.Lib.IsSegment (Listed First)

variable {mem mem' mem'' : Bytes} {a d m i j n fuel : ℕ} {xs ds : List (BitVec 8)}
  {segs : List (ℕ × ℕ)} {toks : List (Option ℕ)}

/-! ## What is written -/

/-- Zeros are written over delimiters, and nothing else. -/
def Overwritten (a : ℕ) (xs ds : List (BitVec 8)) (mem mem' : Bytes) : Prop :=
  ∀ q, mem' q = mem q ∨ mem' q = some 0 ∧ ∃ k, Separator xs ds k ∧ q = a + k

theorem Overwritten.refl : Overwritten a xs ds mem mem := fun _ => .inl rfl

theorem Overwritten.trans (h : Overwritten a xs ds mem mem')
    (h' : Overwritten a xs ds mem' mem'') : Overwritten a xs ds mem mem'' := by
  intro q
  rcases h' q with heq | hzero
  · rw [heq]
    exact h q
  · exact .inr hzero

theorem overwritten_write (hj : Separator xs ds j) :
    Overwritten a xs ds mem (write mem (a + j) 0) := by
  intro q
  by_cases hq : q = a + j
  · rw [hq]
    exact .inr ⟨Function.update_self _ _ _, j, hj, rfl⟩
  · exact .inl (Function.update_of_ne hq _ _)

theorem Overwritten.eq_of_not_separator (h : Overwritten a xs ds mem mem')
    (hnot : ¬Separator xs ds i) : mem' (a + i) = mem (a + i) := by
  rcases h (a + i) with heq | ⟨-, k, hk, heq⟩
  · exact heq
  · obtain rfl : i = k := Nat.add_left_cancel heq
    exact absurd hk hnot

theorem Overwritten.zero (h : Overwritten a xs ds mem mem') (hzero : mem i = some 0) :
    mem' i = some 0 := by
  rcases h i with heq | ⟨hzero', -⟩
  · exact heq.trans hzero
  · exact hzero'

/-- What `n` calls return, and what stands in memory after them. -/
structure Tokenised (mem : Bytes) (a : ℕ) (xs ds : List (BitVec 8)) (segs : List (ℕ × ℕ)) (n : ℕ)
    (mem' : Bytes) (toks : List (Option ℕ)) : Prop where
  toks : toks = (segs.map fun x => some (a + x.1)).take n ++ List.replicate (n - segs.length) none
  token : ∀ x ∈ segs.take n, StringAt mem' (a + x.1) ((xs.take x.2).drop x.1)
  written : Overwritten a xs ds mem mem'

/-- A segment is a string where a zero is behind it. -/
theorem stringAt_segment (hr : RestAt mem a xs m) (hxs : 0 ∉ xs)
    (h : First (Separator xs ds) xs.length m i j) (hw : Overwritten a xs ds mem mem')
    (hend : mem' (a + j) = some 0) : StringAt mem' (a + i) ((xs.take j).drop i) := by
  have hseg := h.segment
  have hlt := hseg.lt
  have hle := hseg.le
  have hlength : ((xs.take j).drop i).length = j - i := by
    rw [List.length_drop, List.length_take, Nat.min_eq_left hle]
  have hnonzero : 0 ∉ (xs.take j).drop i := fun hzero =>
    hxs (List.mem_of_mem_take (List.mem_of_mem_drop hzero))
  refine .of_char (fun k hk => ?_) hnonzero
  rw [hlength] at hk
  rcases Nat.lt_or_eq_of_le hk with hinside | rfl
  · have hfree := hseg.free (i + k) (by omega) (by omega)
    have hstart := h.start
    rw [Nat.add_assoc, hw.eq_of_not_separator hfree, hr (i + k) (by omega) (by omega),
      List.getD_eq_getElem?_getD, List.getD_eq_getElem?_getD, List.getElem?_drop,
      List.getElem?_take_of_lt (by omega)]
  · rw [Nat.add_assoc, Nat.add_sub_cancel' hlt.le, hend, List.getD_eq_default _ _ hlength.le]

theorem Tokenised.nil : Tokenised mem a xs ds [] n mem (List.replicate n none) where
  toks := by simp
  token x hx := by simp at hx
  written := .refl

/-- The first token, and those of the calls behind it. -/
theorem Tokenised.cons (hr : RestAt mem a xs m) (hxs : 0 ∉ xs)
    (h : First (Separator xs ds) xs.length m i j) (hw : Overwritten a xs ds mem mem')
    (hend : mem' (a + j) = some 0) (hrest : Tokenised mem' a xs ds segs n mem'' toks) :
    Tokenised mem a xs ds ((i, j) :: segs) (n + 1) mem'' (some (a + i) :: toks) where
  toks := by
    rw [hrest.toks, List.map_cons, List.take_succ_cons, List.length_cons, Nat.succ_sub_succ]
    rfl
  token x hx := by
    rw [List.take_succ_cons, List.mem_cons] at hx
    rcases hx with rfl | hx
    · exact stringAt_segment hr hxs h (hw.trans hrest.written) (hrest.written.zero hend)
    · exact hrest.token x hx
  written := hw.trans hrest.written

/-! ## The delimiters of the next call -/

/-- Where the delimiters begin in the string, two or more of them, they do not begin behind a
character that is none of them. -/
def Undisturbed (a d : ℕ) (xs ds : List (BitVec 8)) : Prop :=
  ∀ k, k + 2 < xs.length → d = a + (k + 1) → Separator xs ds k

theorem undisturbed_of_apart (h : a + xs.length < d ∨ d + ds.length < a) :
    Undisturbed a d xs ds := fun k hk heq => by omega

/-- The delimiters are overwritten only where nothing is left of the string. -/
theorem delimiters_kept (hd : StringAt mem d ds) (hr : RestAt mem a xs m)
    (hbegin : Undisturbed a d xs ds) (h : First (Separator xs ds) xs.length m i j)
    (hj : j < xs.length) : StringAt (write mem (a + j) 0) d ds ∨
      j + 1 = xs.length ∧ StringAt (write mem (a + j) 0) d [] := by
  have hseg := h.segment
  have hstart := h.start
  have hlt := hseg.lt
  have hsep := hseg.right hj
  have hshared : ∀ k k', d + k = a + k' → k ≤ ds.length → m ≤ k' → k' ≤ xs.length →
      ds.getD k 0 = xs.getD k' 0 := fun k k' heq hk hm hk' => by
    have hchar := hd.char hk
    rw [heq, hr k' hm hk'] at hchar
    exact (Option.some.inj hchar).symm
  by_cases hinside : ∃ k ≤ ds.length, d + k = a + j
  · right
    obtain ⟨k, hk, heq⟩ := hinside
    have hchar := hshared k j heq hk (by omega) hj.le
    have hk' : k < ds.length := by
      by_contra hge
      rw [List.getD_eq_default _ _ (Nat.le_of_not_lt hge)] at hchar
      exact hd.nonzero (hchar ▸ hsep)
    -- the last character of the token is no delimiter, so that they begin behind it
    have hlast := hseg.free (j - 1) (by omega) (by omega)
    obtain rfl : k = 0 := by
      by_contra hne
      have hprevious := hshared (k - 1) (j - 1) (by omega) (by omega) (by omega) (by omega)
      have hmem : ds.getD (k - 1) 0 ∈ ds := getD_mem (by omega)
      rw [hprevious] at hmem
      exact hlast hmem
    have hend : j + 1 = xs.length := by
      by_contra hne
      exact hlast (hbegin (j - 1) (by omega) (by omega))
    refine ⟨hend, .of_char (fun k hk => ?_) List.not_mem_nil⟩
    obtain rfl : k = 0 := Nat.le_zero.mp hk
    rw [heq]
    exact Function.update_self _ _ _
  · left
    exact hd.congr fun k hk => Function.update_of_ne (fun heq => hinside ⟨k, hk, heq⟩) _ _

/-! ## The calls -/

variable {last s : Option ℕ}

theorem calls_null (fuel d : ℕ) (mem : Bytes) (n : ℕ) :
    strtokCalls fuel d n ⟨mem, none⟩ none = .ok (⟨mem, none⟩, List.replicate n none) := by
  induction n with
  | zero => rfl
  | succ n ih =>
    rw [strtokCalls, strtok_null, ok_bind]
    simp only [ih, ok_bind]
    rfl

/-- Behind the last token. -/
theorem calls_end (hd : StringAt mem d ds) (hr : RestAt mem a xs m)
    (hfuel : max xs.length ds.length < fuel) (hs : s.or last = some (a + m)) (hm : m ≤ xs.length)
    (hsep : ∀ k, m ≤ k → k < xs.length → Separator xs ds k) (n : ℕ) :
    ∃ σ, strtokCalls fuel d n ⟨mem, last⟩ s = .ok (σ, List.replicate n none) ∧ σ.mem = mem := by
  cases n with
  | zero => exact ⟨_, rfl, rfl⟩
  | succ n =>
    refine ⟨⟨mem, none⟩, ?_, rfl⟩
    rw [strtokCalls, strtok_end hd hr hfuel hs hm hsep, ok_bind]
    simp only [calls_null, ok_bind]
    rfl

/-- The calls from a position on. -/
def Runs (fuel d : ℕ) (xs ds : List (BitVec 8)) (a m : ℕ) (σ : State) (s : Option ℕ) : Prop :=
  ∃ segs, Listed (Separator xs ds) xs.length m segs ∧ ∀ n, ∃ σ' toks,
    strtokCalls fuel d n σ s = .ok (σ', toks) ∧ Tokenised σ.mem a xs ds segs n σ'.mem toks

theorem runs_of_separators {es : List (BitVec 8)} (hd : StringAt mem d es) (hr : RestAt mem a xs m)
    (hfuel : max xs.length es.length < fuel) (hs : s.or last = some (a + m)) (hm : m ≤ xs.length)
    (hsep : ∀ k, m ≤ k → k < xs.length → Separator xs es k ∧ Separator xs ds k) :
    Runs fuel d xs ds a m ⟨mem, last⟩ s := by
  refine ⟨[], .nil fun k hk hlt => (hsep k hk hlt).2, fun n => ?_⟩
  obtain ⟨σ, hcalls, hmem⟩ := calls_end hd hr hfuel hs hm (fun k hk hlt => (hsep k hk hlt).1) n
  exact ⟨σ, _, hcalls, hmem ▸ .nil⟩

/-- The run from the first segment on. -/
theorem Runs.cons {σ : State} (hr : RestAt mem a xs m) (hxs : 0 ∉ xs)
    (h : First (Separator xs ds) xs.length m i j)
    (hcall : strtok fuel ⟨mem, last⟩ s d = .ok (σ, some (a + i)))
    (hw : Overwritten a xs ds mem σ.mem) (hend : σ.mem (a + j) = some 0)
    (hrest : Runs fuel d xs ds a (j + 1) σ none) : Runs fuel d xs ds a m ⟨mem, last⟩ s := by
  obtain ⟨segs, hsegs, hruns⟩ := hrest
  refine ⟨(i, j) :: segs, .cons h hsegs, fun n => ?_⟩
  cases n with
  | zero => exact ⟨⟨mem, last⟩, [], rfl, by simp, fun x hx => by simp at hx, .refl⟩
  | succ n =>
    obtain ⟨σ', toks, hcalls, htoks⟩ := hruns n
    refine ⟨σ', some (a + i) :: toks, ?_, htoks.cons hr hxs h hw hend⟩
    rw [strtokCalls, hcall, ok_bind]
    simp only [hcalls, ok_bind]
    rfl

/-- All segments from a position on are returned, by induction on what is left of the string. -/
theorem runs_of_rest (hxs : 0 ∉ xs) (hfuel : max xs.length ds.length < fuel)
    (hbegin : Undisturbed a d xs ds) (hd : StringAt mem d ds) (hr : RestAt mem a xs m)
    (hs : s.or last = some (a + m)) (hm : m ≤ xs.length)
    (hbound : IsSegment.Boundary (Separator xs ds) m) : Runs fuel d xs ds a m ⟨mem, last⟩ s := by
  induction hleft : xs.length - m using Nat.strong_induction_on generalizing m mem last s with
  | _ left ih =>
    rcases IsSegment.exists_first_segment hm hbound with hsep | ⟨i, j, h⟩
    · exact runs_of_separators hd hr hfuel hs hm fun k hk hlt => ⟨hsep k hk hlt, hsep k hk hlt⟩
    · have hcall := strtok_token hd hr hfuel hs hxs h
      have hseg := h.segment
      have hstart := h.start
      have hlt := hseg.lt
      rcases Nat.lt_or_eq_of_le hseg.le with hj | rfl
      · rw [if_pos hj] at hcall
        have hsep := hseg.right hj
        have hr' : RestAt (write mem (a + j) 0) a xs (j + 1) := fun k hk hle => by
          rw [write, Function.update_of_ne (by omega)]
          exact hr k (by omega) hle
        refine .cons hr hxs h hcall (overwritten_write hsep) (Function.update_self _ _ _) ?_
        rcases delimiters_kept hd hr hbegin h hj with hkept | ⟨hend, hempty⟩
        · exact ih (xs.length - (j + 1)) (by omega) hkept hr' rfl hj (h.boundary hj) rfl
        · -- other delimiters do not matter at the end of the string
          exact runs_of_separators hempty hr' (by rw [List.length_nil]; omega) rfl hj
            fun k hk hk' => by omega
      · rw [if_neg (Nat.lt_irrefl _)] at hcall
        have hend : mem (a + xs.length) = some 0 := by
          rw [hr _ hm le_rfl, StringAt.getD_length]
        refine .cons hr hxs h hcall .refl hend ⟨[], .nil fun k hk hk' => by omega, fun n => ?_⟩
        exact ⟨_, _, calls_null fuel d mem n, .nil⟩

end Strtok

end HfRisc.Soft

namespace HfRisc.Results

open HfRisc.Soft
open HfRisc.Soft.Strtok
open HfRisc.Lib.IsSegment (Listed)

/-- The tokens are the segments of the string, in order, and `NULL` from then on. -/
theorem strtok_tokenises {fuel : ℕ} {mem : Bytes} {a d : ℕ} {xs ds : List (BitVec 8)}
    (hs : StringAt mem a xs) (hd : StringAt mem d ds) (hbegin : Undisturbed a d xs ds)
    (hfuel : max xs.length ds.length < fuel) (last : Option ℕ) :
    ∃ segs, Listed (Separator xs ds) xs.length 0 segs ∧ ∀ n, ∃ σ toks,
      strtokCalls fuel d n ⟨mem, last⟩ (some a) = .ok (σ, toks) ∧
        Tokenised mem a xs ds segs n σ.mem toks :=
  runs_of_rest hs.nonzero hfuel hbegin hd (fun _ _ hk => hs.char hk) rfl (Nat.zero_le _)
    Lib.IsSegment.boundary_zero

/-- `a` and `b` between commas. -/
theorem strtok_tokenises_two :
    let mem : Bytes := fun q => ([44, 97, 44, 98, 0, 44, 0] : List (BitVec 8))[q]?
    ∃ segs, Listed (Separator [44, 97, 44, 98] [44]) 4 0 segs ∧ ∀ n, ∃ σ toks,
      strtokCalls 5 5 n ⟨mem, none⟩ (some 0) = .ok (σ, toks) ∧
        Tokenised mem 0 [44, 97, 44, 98] [44] segs n σ.mem toks := by
  intro mem
  have hs : StringAt mem 0 [44, 97, 44, 98] := .of_char (by decide) (by decide)
  have hd : StringAt mem 5 [44] := .of_char (by decide) (by decide)
  exact strtok_tokenises hs hd (undisturbed_of_apart (by decide)) (by decide) none

/-- In `a,b` the delimiters `,b` are overwritten with the first token, and `b` is the second. -/
theorem strtok_disturbed : ¬∀ (fuel : ℕ) (mem : Bytes) (a d : ℕ) (xs ds : List (BitVec 8))
    (last : Option ℕ), StringAt mem a xs → StringAt mem d ds → max xs.length ds.length < fuel →
      ∃ segs, Listed (Separator xs ds) xs.length 0 segs ∧ ∀ n, ∃ σ toks,
        strtokCalls fuel d n ⟨mem, last⟩ (some a) = .ok (σ, toks) ∧
          Tokenised mem a xs ds segs n σ.mem toks := by
  intro h
  obtain ⟨segs, hsegs, hruns⟩ := h 4 (fun q => ([97, 44, 98, 0] : List (BitVec 8))[q]?) 0 1
    [97, 44, 98] [44, 98] none (.of_char (by decide) (by decide))
    (.of_char (by decide) (by decide)) (by decide)
  obtain ⟨σ, toks, hcalls, htoks⟩ := hruns 2
  have hreturned : toks = [some 0, some 2] :=
    (congrArg Prod.snd (Except.ok.inj hcalls)).symm
  have hmem : some 2 ∈ (segs.map fun x => some (0 + x.1)).take 2 ++
      List.replicate (2 - segs.length) none := by
    rw [← htoks.toks, hreturned]
    decide
  rcases List.mem_append.mp hmem with htoken | hnull
  · obtain ⟨x, hx, heq⟩ := List.mem_map.mp (List.mem_of_mem_take htoken)
    have hsegment := ((hsegs.mem_iff x).mp hx).1
    have hstart : x.1 = 2 := (Nat.zero_add _).symm.trans (Option.some.inj heq)
    refine hsegment.free 2 hstart.le (hstart ▸ hsegment.lt) ?_
    decide
  · cases List.eq_of_mem_replicate hnull

end HfRisc.Results
