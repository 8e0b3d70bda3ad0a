import Mathlib.Data.BitVec
import Mathlib.Data.List.Nodup

/-!
# Loops over the bits of a word

`do { if (x & 1) body(i); x >>= 1; ++i; } while (x)` runs its body for the positions of the bits
that are set, from the lowest one on.
-/

namespace HfRisc.Lib

variable {σ : Type*} {w : ℕ}

/-- The loop, given up after `fuel` rounds. The body may fail. -/
def bitLoop (body : ℕ → σ → Option σ) : ℕ → BitVec w → ℕ → σ → Option σ
  | 0, _, _, _ => none
  | fuel + 1, x, i, s =>
    (if x.getLsbD 0 then body i s else some s).bind fun s =>
      if x >>> 1 ≠ 0 then bitLoop body fuel (x >>> 1) (i + 1) s else some s

/-- The positions of the bits that are set, in ascending order. -/
def setBits (x : BitVec w) : List ℕ := (List.range w).filter x.getLsbD

theorem mem_setBits {x : BitVec w} {i : ℕ} : i ∈ setBits x ↔ x.getLsbD i = true := by
  rw [setBits, List.mem_filter, List.mem_range, and_iff_right_iff_imp]
  exact BitVec.lt_of_getLsbD

@[simp] theorem setBits_zero : setBits (0 : BitVec w) = [] :=
  List.filter_eq_nil_iff.mpr fun i _ => by simp

theorem nodup_setBits (x : BitVec w) : (setBits x).Nodup := List.nodup_range.filter _

/-- A wider word has the same positions. -/
theorem setBits_setWidth {v : ℕ} (h : w ≤ v) (x : BitVec w) :
    setBits (x.setWidth v) = setBits x := by
  obtain ⟨d, rfl⟩ := Nat.exists_eq_add_of_le h
  have hbits : ∀ i, (x.setWidth (w + d)).getLsbD i = x.getLsbD i := by
    intro i
    rw [BitVec.getLsbD_setWidth]
    cases hi : x.getLsbD i with
    | false => exact Bool.and_false _
    | true =>
      have hlt : i < w := BitVec.lt_of_getLsbD hi
      rw [Bool.and_true, decide_eq_true (by omega)]
  have hhigh : ((List.range d).map (w + ·)).filter x.getLsbD = [] := by
    rw [List.filter_eq_nil_iff]
    intro i hi
    obtain ⟨j, -, rfl⟩ := List.mem_map.mp hi
    rw [BitVec.getLsbD_of_ge _ _ (Nat.le_add_right w j)]
    exact Bool.false_ne_true
  rw [setBits, setBits, show (x.setWidth (w + d)).getLsbD = x.getLsbD from funext hbits,
    List.range_add, List.filter_append, hhigh, List.append_nil]

/-- A word with one bit. -/
theorem getLsbD_one_shiftLeft {i : ℕ} (hi : i < w) (j : ℕ) :
    (1#w <<< j).getLsbD i = decide (i = j) := by
  rw [BitVec.getLsbD_shiftLeft]
  by_cases hij : i = j
  · subst hij
    simp [hi]
    omega
  · by_cases hlt : i < j
    · simp [hij, hlt]
    · have hne : i - j ≠ 0 := by omega
      simp [hi, hij, hlt, hne]

/-- Toggling the bits of a word one by one. -/
theorem foldl_xor_setBits (x y : BitVec w) :
    (setBits y).foldl (fun x i => x ^^^ 1#w <<< i) x = x ^^^ y := by
  have hfold : ∀ (js : List ℕ) (x : BitVec w) (i : ℕ), js.Nodup → i < w →
      (js.foldl (fun x j => x ^^^ 1#w <<< j) x).getLsbD i = (x.getLsbD i ^^ decide (i ∈ js)) := by
    intro js
    induction js with
    | nil => simp
    | cons j js ih =>
      intro x i hnodup hi
      obtain ⟨hnot, hrest⟩ := List.nodup_cons.mp hnodup
      rw [List.foldl_cons, ih _ _ hrest hi, BitVec.getLsbD_xor, getLsbD_one_shiftLeft hi]
      by_cases hij : i = j
      · subst hij
        simp [hnot]
      · simp [hij]
  apply BitVec.eq_of_getLsbD_eq
  intro i hi
  rw [hfold _ _ _ (nodup_setBits y) hi, BitVec.getLsbD_xor]
  simp only [mem_setBits, Bool.decide_eq_true]

/-- The rest of the positions, shifted, from `i` on. -/
theorem bitLoop_from (body : ℕ → σ → Option σ) {fuel : ℕ} {x : BitVec w} (hx : x.toNat < 2 ^ fuel)
    (hfuel : 0 < fuel) (i : ℕ) (s : σ) :
    bitLoop body fuel x i s =
      (((List.range fuel).filter x.getLsbD).map (i + ·)).foldlM (fun s j => body j s) s := by
  induction fuel generalizing x i s with
  | zero => exact absurd hfuel (Nat.lt_irrefl 0)
  | succ fuel ih =>
    have hshift : (fun j => x.getLsbD (j + 1)) = (x >>> 1).getLsbD := by
      funext j
      rw [BitVec.getLsbD_ushiftRight, Nat.add_comm]
    have hhalf : (x >>> 1).toNat < 2 ^ fuel := by
      rw [BitVec.toNat_ushiftRight, Nat.shiftRight_eq_div_pow]
      rw [Nat.pow_succ] at hx
      omega
    -- the positions are the lowest one and those of the shifted word
    have hrange : (List.range (fuel + 1)).filter x.getLsbD =
        (if x.getLsbD 0 then [0] else []) ++
          ((List.range fuel).filter (x >>> 1).getLsbD).map (· + 1) := by
      rw [List.range_succ_eq_map, List.filter_cons, List.filter_map, ← hshift]
      split <;> rfl
    have hmap : ∀ l : List ℕ, (l.map (· + 1)).map (i + ·) = l.map (i + 1 + ·) := by
      intro l
      rw [List.map_map]
      refine List.map_congr_left fun j _ => ?_
      show i + (j + 1) = i + 1 + j
      omega
    rw [bitLoop, hrange, List.map_append, hmap, List.foldlM_append]
    have hrest : ∀ s, (if x >>> 1 ≠ 0 then bitLoop body fuel (x >>> 1) (i + 1) s else some s) =
        (((List.range fuel).filter (x >>> 1).getLsbD).map (i + 1 + ·)).foldlM
          (fun s j => body j s) s := by
      intro s
      by_cases hzero : x >>> 1 = 0
      · have hnone : (List.range fuel).filter (x >>> 1).getLsbD = [] := by
          rw [hzero]
          exact List.filter_eq_nil_iff.mpr fun j _ => by simp
        rw [if_neg (not_not.mpr hzero), hnone]
        rfl
      · rw [if_pos hzero]
        refine ih hhalf (Nat.pos_of_ne_zero fun hf => hzero ?_) (i + 1) s
        rw [hf] at hhalf
        exact BitVec.eq_of_toNat_eq (by simpa using hhalf)
    simp only [hrest]
    cases x.getLsbD 0 with
    | false => rfl
    | true =>
      show (body i s).bind _ = ((List.foldlM (fun s j => body j s) s [i + 0]) >>= _)
      rw [List.foldlM_cons]
      cases body i s <;> rfl

/-- The body runs for the bits that are set, from the lowest one on. -/
theorem bitLoop_eq (body : ℕ → σ → Option σ) (hw : 0 < w) (x : BitVec w) (s : σ) :
    bitLoop body w x 0 s = (setBits x).foldlM (fun s j => body j s) s := by
  rw [bitLoop_from body x.isLt hw, setBits]
  congr 1
  exact (List.map_congr_left fun j _ => Nat.zero_add j).trans (List.map_id _)

end HfRisc.Lib
