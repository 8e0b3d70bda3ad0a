import HfRisc.Lib.Text
import Mathlib.Data.Nat.Digits.Lemmas

/-!
# Digits in a buffer

A loop that divides a number by the base writes its digits from the last one on, whatever else its
variables are. What reads them from the first one on gets the number back. The digits behind a
point are carried out of a fraction by multiplications by 10.
-/

namespace HfRisc.Lib

variable {α σ : Type*} {b n : ℕ}

/-! ## The digits of a number -/

/-- The digits from the last one on. There is always one. -/
def backDigits (b n : ℕ) : List ℕ := n % b :: Nat.digits b (n / b)

theorem backDigits_of_ne_zero (hb : 1 < b) (hn : n ≠ 0) : backDigits b n = Nat.digits b n :=
  (Nat.digits_def' hb (Nat.pos_of_ne_zero hn)).symm

theorem backDigits_zero : backDigits b 0 = [0] := by
  rw [backDigits, Nat.zero_mod, Nat.zero_div, Nat.digits_zero]

theorem backDigits_eq_cons (hb : 1 < b) (n : ℕ) :
    backDigits b n = n % b :: if n / b = 0 then [] else backDigits b (n / b) := by
  split
  · next h => rw [backDigits, h, Nat.digits_zero]
  · next h => rw [backDigits_of_ne_zero hb h, backDigits]

theorem lt_of_mem_backDigits (hb : 1 < b) {d : ℕ} (hd : d ∈ backDigits b n) : d < b := by
  rcases List.mem_cons.mp hd with rfl | hd
  · exact Nat.mod_lt _ (Nat.zero_lt_of_lt hb)
  · exact Nat.digits_lt_base hb hd

theorem ofDigits_backDigits (b n : ℕ) : Nat.ofDigits b (backDigits b n) = n := by
  rw [backDigits, Nat.ofDigits_cons, Nat.ofDigits_digits]
  exact Nat.mod_add_div n b

theorem length_digits_le {k : ℕ} (hb : 1 < b) (h : n < b ^ k) : (Nat.digits b n).length ≤ k :=
  (Nat.digits_length_le_iff hb n).mpr h

theorem length_backDigits_le_iff {k : ℕ} (hb : 1 < b) (hk : 0 < k) :
    (backDigits b n).length ≤ k ↔ n < b ^ k := by
  obtain ⟨k, rfl⟩ := Nat.exists_eq_succ_of_ne_zero hk.ne'
  rw [backDigits, List.length_cons, Nat.succ_le_succ_iff, Nat.digits_length_le_iff hb,
    Nat.div_lt_iff_lt_mul (Nat.zero_lt_of_lt hb), ← Nat.pow_succ]

/-- Only 0 has a leading zero. -/
theorem backDigits_reverse_eq_zero_cons (hb : 1 < b) {ds : List ℕ}
    (h : (backDigits b n).reverse = 0 :: ds) : ds = [] := by
  by_cases hn : n = 0
  · rw [hn, backDigits_zero] at h
    exact (List.cons.inj h).2.symm
  · rw [backDigits_of_ne_zero hb hn, List.reverse_eq_iff, List.reverse_cons] at h
    have hlast := Nat.getLast_digit_ne_zero b hn
    simp only [h, List.getLast_append_singleton, ne_eq, not_true_eq_false] at hlast

/-- Digits that are read from the first one on. -/
theorem foldl_digits (v : ℕ) (ds : List ℕ) :
    ds.foldl (fun v d => v * b + d) v = v * b ^ ds.length + Nat.ofDigits b ds.reverse := by
  induction ds generalizing v with
  | nil => rw [List.foldl_nil, List.length_nil, List.reverse_nil, Nat.ofDigits_nil, pow_zero,
      Nat.mul_one, Nat.add_zero]
  | cons d ds ih =>
    rw [List.foldl_cons, ih, List.length_cons, List.reverse_cons, Nat.ofDigits_append,
      List.length_reverse, Nat.ofDigits_singleton]
    ring

/-! ## Loops over the digits -/

/-- Where the variables of a loop have the number that is left, the buffer and the index in it. -/
structure DigitLoop (σ α : Type*) where
  val : σ → ℕ
  ptr : σ → ℕ
  buf : σ → ℕ → α

namespace DigitLoop

variable (L : DigitLoop σ α) (b) (f : ℕ → α)

/-- A round writes the last digit and drops it. -/
structure Writes (s s' : σ) : Prop where
  val : L.val s' = L.val s / b
  ptr : L.ptr s' = L.ptr s + 1
  buf : L.buf s' = Function.update (L.buf s) (L.ptr s) (f (L.val s % b))

/-- The digits `ds` are written from `s` to `t`. -/
structure Written (ds : List ℕ) (s t : σ) : Prop where
  ptr : L.ptr t = L.ptr s + ds.length
  text : TextAt (L.buf t) (L.ptr s) (ds.map f)
  frame : ∀ j < L.ptr s, L.buf t j = L.buf s j

variable {L b f} {ds : List ℕ} {s t u : σ}

theorem Written.nil : L.Written f [] s s where
  ptr := rfl
  text := TextAt.nil
  frame _ _ := rfl

theorem Written.cons (h : L.Writes b f s t) (hds : L.Written f ds t u) :
    L.Written f (L.val s % b :: ds) s u where
  ptr := by rw [hds.ptr, h.ptr, List.length_cons, Nat.add_assoc, Nat.add_comm 1]
  text := by
    have hfirst : L.buf u (L.ptr s) = f (L.val s % b) := by
      rw [hds.frame _ (by rw [h.ptr]; exact Nat.lt_succ_self _), h.buf, Function.update_self]
    rw [List.map_cons, TextAt.cons_iff, ← h.ptr]
    exact ⟨hfirst, hds.text⟩
  frame j hj := by
    rw [hds.frame j (by rw [h.ptr]; exact Nat.lt_succ_of_lt hj), h.buf,
      Function.update_of_ne hj.ne]

variable {test : σ → Bool} {body : σ → σ} {p : σ → Prop} {fuel : ℕ}

/-- `while (n != 0)` writes all digits, and none of 0. -/
theorem run (hb : 1 < b) (htest : ∀ s, p s → (test s = true ↔ L.val s ≠ 0))
    (hbody : ∀ s, p s → L.val s ≠ 0 → p (body s) ∧ L.Writes b f s (body s)) (hs : p s)
    (hfuel : (Nat.digits b (L.val s)).length < fuel) :
    ∃ t, whileLoop test body fuel s = some t ∧ p t ∧
      L.Written f (Nat.digits b (L.val s)) s t := by
  induction fuel generalizing s with
  | zero => exact absurd hfuel (Nat.not_lt_zero _)
  | succ fuel ih =>
    rw [whileLoop]
    by_cases hzero : L.val s = 0
    · rw [if_neg ((htest s hs).not.mpr (not_not.mpr hzero)), hzero, Nat.digits_zero]
      exact ⟨s, rfl, hs, .nil⟩
    · obtain ⟨hp, hround⟩ := hbody s hs hzero
      have hdigits := Nat.digits_def' hb (Nat.pos_of_ne_zero hzero)
      rw [← hround.val] at hdigits
      rw [hdigits, List.length_cons] at hfuel
      obtain ⟨t, hloop, ht, hwritten⟩ := ih hp (Nat.lt_of_succ_lt_succ hfuel)
      rw [if_pos ((htest s hs).mpr hzero), hdigits]
      exact ⟨t, hloop, ht, .cons hround hwritten⟩

/-- `do ... while (n != 0)` writes a digit of 0 as well. -/
theorem run_do (hb : 1 < b) (htest : ∀ s, p s → (test s = true ↔ L.val s ≠ 0))
    (hbody : ∀ s, p s → L.val s ≠ 0 → p (body s) ∧ L.Writes b f s (body s)) (hs : p (body s))
    (hround : L.Writes b f s (body s)) (hfuel : (backDigits b (L.val s)).length ≤ fuel) :
    ∃ t, whileLoop test body fuel (body s) = some t ∧ p t ∧
      L.Written f (backDigits b (L.val s)) s t := by
  rw [backDigits, ← hround.val] at hfuel ⊢
  obtain ⟨t, hloop, ht, hwritten⟩ := run hb htest hbody hs hfuel
  exact ⟨t, hloop, ht, .cons hround hwritten⟩

end DigitLoop

/-! ## The digits of a fraction -/

/-- The first digits of `frac / 2 ^ k` behind the point. -/
def fractionDigits (k frac n : ℕ) : List ℕ :=
  (List.range n).map fun j => frac * 10 ^ (j + 1) / 2 ^ k % 10

/-- A digit is carried out of what the digits in front of it leave. -/
theorem digit_of_rest (k frac j : ℕ) :
    frac * 10 ^ j % 2 ^ k * 10 / 2 ^ k % 10 = frac * 10 ^ (j + 1) / 2 ^ k % 10 := by
  have hsplit := Nat.div_add_mod (frac * 10 ^ j) (2 ^ k)
  have hnext : frac * 10 ^ (j + 1) =
      frac * 10 ^ j % 2 ^ k * 10 + 2 ^ k * (10 * (frac * 10 ^ j / 2 ^ k)) := by
    calc frac * 10 ^ (j + 1) = frac * 10 ^ j * 10 := by ring
      _ = (2 ^ k * (frac * 10 ^ j / 2 ^ k) + frac * 10 ^ j % 2 ^ k) * 10 := by rw [hsplit]
      _ = frac * 10 ^ j % 2 ^ k * 10 + 2 ^ k * (10 * (frac * 10 ^ j / 2 ^ k)) := by ring
  rw [hnext, Nat.add_mul_div_left _ _ (Nat.two_pow_pos k), Nat.add_mul_mod_self_left]

theorem rest_succ (k frac j : ℕ) :
    frac * 10 ^ j % 2 ^ k * 10 % 2 ^ k = frac * 10 ^ (j + 1) % 2 ^ k := by
  rw [Nat.pow_succ, ← Nat.mul_assoc, Nat.mul_mod (frac * 10 ^ j) 10, Nat.mul_mod _ 10,
    Nat.mod_mod]

theorem fractionDigits_succ (k frac j : ℕ) : fractionDigits k frac (j + 1) =
    fractionDigits k frac j ++ [frac * 10 ^ (j + 1) / 2 ^ k % 10] := by
  rw [fractionDigits, List.range_succ, List.map_append]
  rfl

end HfRisc.Lib
