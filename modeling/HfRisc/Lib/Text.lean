import HfRisc.Lib.While
import Mathlib.Data.List.GetD
import Mathlib.Data.Nat.Digits.Defs
import Mathlib.Logic.Function.Basic

/-!
# Texts in a buffer

A text stands in a buffer from an index on. It is written from the front, one element after the
other, or it is reversed in place by exchanging its ends, and its end is found by a search. Decimal
digits come from the last one to the first where they are remainders, and from the first one to the
last where they are carries out of a fraction.
-/

namespace HfRisc.Lib

variable {α : Type*} {buf buf' : ℕ → α} {a b : ℕ} {c : α} {xs ys : List α}

/-- The elements `xs` stand in the buffer from `a` on. -/
def TextAt (buf : ℕ → α) (a : ℕ) (xs : List α) : Prop := ∀ k c, xs[k]? = some c → buf (a + k) = c

namespace TextAt

theorem nil : TextAt buf a [] := fun _ _ h => by cases h

theorem cons_iff : TextAt buf a (c :: xs) ↔ buf a = c ∧ TextAt buf (a + 1) xs := by
  constructor
  · intro h
    refine ⟨h 0 c rfl, fun k d hd => ?_⟩
    rw [Nat.add_right_comm, Nat.add_assoc]
    exact h (k + 1) d hd
  · rintro ⟨hc, hxs⟩ k d hd
    cases k with
    | zero => exact hc.trans (Option.some.inj hd)
    | succ k =>
      rw [← Nat.add_assoc, Nat.add_right_comm]
      exact hxs k d hd

theorem append_iff : TextAt buf a (xs ++ ys) ↔
    TextAt buf a xs ∧ TextAt buf (a + xs.length) ys := by
  induction xs generalizing a with
  | nil => exact ⟨fun h => ⟨nil, h⟩, fun h => h.2⟩
  | cons c xs ih =>
    rw [List.cons_append, cons_iff, cons_iff, ih, and_assoc, List.length_cons, Nat.add_assoc,
      Nat.add_comm 1]

/-- A text stays where nothing is written. -/
theorem congr (h : TextAt buf a xs) (heq : ∀ j, a ≤ j → j < a + xs.length → buf' j = buf j) :
    TextAt buf' a xs := fun k c hc => by
  have hk : k < xs.length := (List.getElem?_eq_some_iff.mp hc).1
  rw [heq _ (Nat.le_add_right _ _) (Nat.add_lt_add_left hk a)]
  exact h k c hc

/-- One element more, behind the last one. -/
theorem snoc (h : TextAt buf a xs) (c : α) :
    TextAt (Function.update buf (a + xs.length) c) a (xs ++ [c]) := by
  refine append_iff.mpr ⟨h.congr fun j _ hj => Function.update_of_ne hj.ne _ _, ?_⟩
  exact cons_iff.mpr ⟨Function.update_self _ _ _, nil⟩

/-- The end of a text is found by a search for the element that ends it. -/
theorem scan [DecidableEq α] {z : α} {fuel : ℕ} (h : TextAt buf a (xs ++ [z])) (hz : z ∉ xs)
    (hfuel : xs.length < fuel) :
    whileLoop (fun p => decide (buf p ≠ z)) (· + 1) fuel a = some (a + xs.length) := by
  induction xs generalizing a fuel with
  | nil =>
    obtain ⟨fuel, rfl⟩ := Nat.exists_eq_succ_of_ne_zero (Nat.ne_zero_of_lt hfuel)
    have hend : buf a = z := (cons_iff.mp h).1
    rw [whileLoop, if_neg fun hne => absurd hend (of_decide_eq_true hne)]
    rfl
  | cons c xs ih =>
    obtain ⟨fuel, rfl⟩ := Nat.exists_eq_succ_of_ne_zero (Nat.ne_zero_of_lt hfuel)
    obtain ⟨hc, hxs⟩ := cons_iff.mp h
    rw [List.mem_cons, not_or] at hz
    have hne : buf a ≠ z := fun heq => hz.1 (heq.symm.trans hc)
    rw [whileLoop, if_pos (decide_eq_true hne), ih hxs hz.2 (Nat.lt_of_succ_lt_succ hfuel),
      List.length_cons, Nat.add_assoc, Nat.add_comm 1]

end TextAt

/-! ## Reversal in place -/

/-- The text of length `n` from `a` on, with `t` elements exchanged at both ends. -/
def mirrored (a n t : ℕ) (buf : ℕ → α) (j : ℕ) : α :=
  if a ≤ j ∧ j < a + n ∧ (j < a + t ∨ a + n ≤ j + t) then buf (2 * a + n - 1 - j) else buf j

section Mirrored

variable {n t : ℕ}

theorem mirrored_zero : mirrored a n 0 buf = buf := by
  funext j
  rw [mirrored, if_neg (by omega)]

/-- Exchanging the next elements. -/
theorem mirrored_succ {p q : ℕ} (h : p < q) (hp : p = a + t) (hq : q + t + 1 = a + n) :
    Function.update (Function.update (mirrored a n t buf) q (mirrored a n t buf p)) p
      (mirrored a n t buf q) = mirrored a n (t + 1) buf := by
  have hleft : mirrored a n t buf p = buf p := if_neg (by omega)
  have hright : mirrored a n t buf q = buf q := if_neg (by omega)
  funext j
  rw [Function.update_apply, Function.update_apply, hleft, hright, mirrored, mirrored]
  by_cases hjp : j = p
  · rw [if_pos hjp, if_pos (by omega)]
    congr 1
    omega
  · rw [if_neg hjp]
    by_cases hjq : j = q
    · rw [if_pos hjq, if_pos (by omega)]
      congr 1
      omega
    · rw [if_neg hjq]
      exact if_congr (by omega) rfl rfl

/-- Where the ends have met, the text is reversed: the middle element is its own mirror image. -/
theorem TextAt.mirrored (h : TextAt buf a xs) (ht : xs.length ≤ 2 * t + 1) :
    TextAt (mirrored a xs.length t buf) a xs.reverse := fun k c hc => by
  have hk : k < xs.length := by
    have := (List.getElem?_eq_some_iff.mp hc).1
    rwa [List.length_reverse] at this
  rw [List.getElem?_reverse hk] at hc
  have hmirror : buf (a + (xs.length - 1 - k)) = c := h _ c hc
  rw [Lib.mirrored]
  split
  · rw [← hmirror]
    congr 1
    omega
  · rw [← hmirror]
    congr 1
    omega

end Mirrored

/-! ## Decimal digits -/

/-- The digits of a number without the last one. -/
theorem toDigits_reverse (n : ℕ) : (Nat.toDigits 10 n).reverse =
    (n % 10).digitChar :: if n / 10 = 0 then [] else (Nat.toDigits 10 (n / 10)).reverse := by
  rw [Nat.toDigits_eq_if (by decide)]
  by_cases h : n < 10
  · rw [if_pos h, if_pos (Nat.div_eq_of_lt h), Nat.mod_eq_of_lt h]
    rfl
  · rw [if_neg h, if_neg (by omega), List.reverse_append]
    rfl

/-- What `ds` behind the point and `n` in front of it stand for. -/
def numeral (n : ℕ) (ds : List ℕ) : ℚ := n + Nat.ofDigits 10 ds.reverse / 10 ^ ds.length

/-- The first digits of a fraction of `2 ^ k`, and the remainder that is left. -/
structure FractionDigits (k frac : ℕ) (ds : List ℕ) (rest : ℕ) : Prop where
  digit : ∀ d ∈ ds, d < 10
  value : frac * 10 ^ ds.length = Nat.ofDigits 10 ds.reverse * 2 ^ k + rest
  rest_lt : rest < 2 ^ k

namespace FractionDigits

variable {k frac rest : ℕ} {ds : List ℕ}

theorem nil (h : frac < 2 ^ k) : FractionDigits k frac [] frac where
  digit _ hd := by cases hd
  value := by rw [List.length_nil, List.reverse_nil, Nat.ofDigits_nil]; omega
  rest_lt := h

/-- A digit is carried out by a multiplication by 10. -/
theorem cons (hfrac : frac < 2 ^ k)
    (h : FractionDigits k (frac * 10 % 2 ^ k) ds rest) :
    FractionDigits k frac (frac * 10 / 2 ^ k :: ds) rest where
  digit d hd := by
    rcases List.mem_cons.mp hd with rfl | hd
    · rw [Nat.div_lt_iff_lt_mul (Nat.two_pow_pos k)]
      omega
    · exact h.digit d hd
  value := by
    have hsplit := Nat.div_add_mod (frac * 10) (2 ^ k)
    have hvalue := h.value
    rw [List.reverse_cons, Nat.ofDigits_append, Nat.ofDigits_singleton, List.length_reverse,
      List.length_cons, Nat.pow_succ']
    calc frac * (10 * 10 ^ ds.length) = frac * 10 * 10 ^ ds.length := by ring
      _ = (2 ^ k * (frac * 10 / 2 ^ k) + frac * 10 % 2 ^ k) * 10 ^ ds.length := by rw [hsplit]
      _ = 10 ^ ds.length * (frac * 10 / 2 ^ k) * 2 ^ k +
          frac * 10 % 2 ^ k * 10 ^ ds.length := by ring
      _ = (Nat.ofDigits 10 ds.reverse + 10 ^ ds.length * (frac * 10 / 2 ^ k)) * 2 ^ k + rest := by
        rw [hvalue]
        ring
  rest_lt := h.rest_lt

/-- The digits stand for the fraction rounded down. -/
theorem bounds (h : FractionDigits k frac ds rest) :
    (Nat.ofDigits 10 ds.reverse : ℚ) / 10 ^ ds.length ≤ frac / 2 ^ k ∧
      (frac : ℚ) / 2 ^ k < Nat.ofDigits 10 ds.reverse / 10 ^ ds.length + 1 / 10 ^ ds.length := by
  have hvalue : (frac : ℚ) * 10 ^ ds.length =
      Nat.ofDigits 10 ds.reverse * 2 ^ k + rest := by exact_mod_cast h.value
  have hrest : (rest : ℚ) < 2 ^ k := by exact_mod_cast h.rest_lt
  have hnonneg : (0 : ℚ) ≤ rest := Nat.cast_nonneg rest
  have hten : (0 : ℚ) < 10 ^ ds.length := by positivity
  have htwo : (0 : ℚ) < 2 ^ k := by positivity
  rw [← add_div, div_le_div_iff₀ hten htwo, div_lt_div_iff₀ htwo hten]
  constructor <;> linarith

end FractionDigits

end HfRisc.Lib
