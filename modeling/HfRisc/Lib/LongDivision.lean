import Mathlib.Algebra.Order.Ring.Nat
import Mathlib.Data.Nat.Basic
import Mathlib.Tactic.Linarith
import Mathlib.Tactic.Ring

/-!
# Long division in base two

The divisor is doubled until it exceeds half of what there is to divide. Then it is halved again
and subtracted wherever it goes, and each time the quotient gets a digit. The digits come from
the highest to the lowest, so each of them falls on a place where the quotient still has a 0. For
the digits of a fraction the remainder is doubled, and the divisor stays.
-/

namespace HfRisc.Lib

/-- `j` digits of the quotient of `n` by `d` are to come: `den` and `bit` are the divisor and 1
in the place of the next one, and 0 as a place when there is none. -/
structure Digits (n d j num den bit res : ℕ) : Prop where
  den_eq : den = d * 2 ^ j / 2
  bit_eq : bit = 2 ^ j / 2
  num_lt : num < d * 2 ^ j
  dvd : 2 ^ j ∣ res
  sum : d * res + num = n

namespace Digits

variable {n d i j num den bit res : ℕ}

theorem pow_half (d j : ℕ) : d * 2 ^ (j + 1) / 2 = d * 2 ^ j := by
  rw [Nat.pow_succ, ← Nat.mul_assoc, Nat.mul_div_cancel _ (by decide)]

theorem den_succ (h : Digits n d (j + 1) num den bit res) : den = d * 2 ^ j :=
  h.den_eq.trans (pow_half d j)

theorem bit_succ (h : Digits n d (j + 1) num den bit res) : bit = 2 ^ j := by
  rw [h.bit_eq, ← Nat.one_mul (2 ^ (j + 1)), pow_half, Nat.one_mul]

theorem bit_eq_zero (h : Digits n d j num den bit res) : bit = 0 ↔ j = 0 := by
  cases j with
  | zero => exact iff_of_true h.bit_eq rfl
  | succ j =>
    rw [h.bit_succ]
    exact iff_of_false (Nat.two_pow_pos j).ne' (Nat.succ_ne_zero j)

/-- From where the divisor has been doubled far enough. -/
theorem start (hden : den = d * 2 ^ i) (hbit : bit = 2 ^ i) (hn : n < 2 * den) :
    Digits n d (i + 1) n den bit 0 where
  den_eq := hden.trans (pow_half d i).symm
  bit_eq := by rw [hbit, ← Nat.one_mul (2 ^ (i + 1)), pow_half, Nat.one_mul]
  num_lt := by rw [Nat.pow_succ, ← Nat.mul_assoc, ← hden, Nat.mul_comm]; exact hn
  dvd := Nat.dvd_zero _
  sum := by rw [Nat.mul_zero, Nat.zero_add]

/-- The next digit is a 0. -/
theorem skip (h : Digits n d (j + 1) num den bit res) (hlt : num < den) :
    Digits n d j num (den / 2) (bit / 2) res where
  den_eq := by rw [h.den_succ]
  bit_eq := by rw [h.bit_succ]
  num_lt := h.den_succ ▸ hlt
  dvd := (Nat.pow_dvd_pow 2 (Nat.le_succ j)).trans h.dvd
  sum := h.sum

/-- The next digit is a 1. -/
theorem subtract (h : Digits n d (j + 1) num den bit res) (hle : den ≤ num) :
    Digits n d j (num - den) (den / 2) (bit / 2) (res + bit) where
  den_eq := by rw [h.den_succ]
  bit_eq := by rw [h.bit_succ]
  num_lt := by
    have hnum := h.num_lt
    rw [Nat.pow_succ, ← Nat.mul_assoc, ← h.den_succ] at hnum
    rw [← h.den_succ]
    omega
  dvd := Nat.dvd_add ((Nat.pow_dvd_pow 2 (Nat.le_succ j)).trans h.dvd) (h.bit_succ ▸ Nat.dvd_refl _)
  sum := by
    have hsum := h.sum
    rw [Nat.mul_add, h.bit_succ, ← h.den_succ]
    omega

/-- The quotient does not exceed what is divided. -/
theorem res_le (h : Digits n d j num den bit res) (hd : 0 < d) : res ≤ n := by
  have hle : res ≤ d * res := Nat.le_mul_of_pos_left res hd
  have hsum := h.sum
  omega

/-- Without a digit to come there are the quotient and the remainder. -/
theorem finish (h : Digits n d 0 num den bit res) : res = n / d ∧ num = n % d := by
  have hlt : num < d := by
    have hnum := h.num_lt
    rwa [Nat.pow_zero, Nat.mul_one] at hnum
  have hdiv : n / d = res := by
    rw [← h.sum, Nat.mul_add_div (Nat.zero_lt_of_lt hlt), Nat.div_eq_of_lt hlt, Nat.add_zero]
  have hmod : n % d = num := by
    rw [← h.sum, Nat.mul_add_mod, Nat.mod_eq_of_lt hlt]
  exact ⟨hdiv.symm, hmod.symm⟩

/-- The digit falls on a place with a 0. -/
theorem or_bit (h : Digits n d (j + 1) num den bit res) : res ||| bit = res + bit := by
  have hlt : bit < 2 ^ (j + 1) := by
    rw [h.bit_succ]
    exact Nat.pow_lt_pow_right (by decide) (Nat.lt_succ_self j)
  obtain ⟨q, rfl⟩ := h.dvd
  exact (Nat.two_pow_add_eq_or_of_lt hlt q).symm

end Digits

/-! ## Digits behind the point -/

/-- The remainder is doubled instead: `j` digits of the quotient of `n * 2 ^ k` by `d` are to
come, and `mask` is the place of the next one. -/
structure Fraction (n d k j num mask res : ℕ) : Prop where
  mask_eq : mask = 2 ^ j / 2
  num_lt : num < 2 * d
  dvd : 2 ^ j ∣ res
  sum : 2 * d * res + num * 2 ^ j = 2 * n * 2 ^ k

namespace Fraction

variable {n d k j num mask res : ℕ}

theorem start (h : n < 2 * d) : Fraction n d k (k + 1) n (2 ^ k) 0 where
  mask_eq := by rw [Nat.pow_succ, Nat.mul_div_cancel _ (by decide)]
  num_lt := h
  dvd := Nat.dvd_zero _
  sum := by rw [Nat.pow_succ]; ring

theorem mask_succ (h : Fraction n d k (j + 1) num mask res) : mask = 2 ^ j := by
  rw [h.mask_eq, Nat.pow_succ, Nat.mul_div_cancel _ (by decide)]

theorem mask_eq_zero (h : Fraction n d k j num mask res) : mask = 0 ↔ j = 0 := by
  cases j with
  | zero => exact iff_of_true h.mask_eq rfl
  | succ j =>
    rw [h.mask_succ]
    exact iff_of_false (Nat.two_pow_pos j).ne' (Nat.succ_ne_zero j)

/-- The next digit is a 0. -/
theorem skip (h : Fraction n d k (j + 1) num mask res) (hlt : num < d) :
    Fraction n d k j (num * 2) (mask / 2) res where
  mask_eq := by rw [h.mask_succ]
  num_lt := by omega
  dvd := (Nat.pow_dvd_pow 2 (Nat.le_succ j)).trans h.dvd
  sum := by
    rw [← h.sum, Nat.pow_succ]
    ring

/-- The next digit is a 1. -/
theorem subtract (h : Fraction n d k (j + 1) num mask res) (hle : d ≤ num) :
    Fraction n d k j ((num - d) * 2) (mask / 2) (res + mask) where
  mask_eq := by rw [h.mask_succ]
  num_lt := by
    have hnum := h.num_lt
    omega
  dvd := Nat.dvd_add ((Nat.pow_dvd_pow 2 (Nat.le_succ j)).trans h.dvd)
    (h.mask_succ ▸ Nat.dvd_refl _)
  sum := by
    obtain ⟨r, rfl⟩ := Nat.exists_eq_add_of_le hle
    rw [← h.sum, h.mask_succ, Nat.add_sub_cancel_left, Nat.pow_succ]
    ring

/-- The digit falls on a place with a 0. -/
theorem or_mask (h : Fraction n d k (j + 1) num mask res) : res ||| mask = res + mask := by
  have hlt : mask < 2 ^ (j + 1) := by
    rw [h.mask_succ]
    exact Nat.pow_lt_pow_right (by decide) (Nat.lt_succ_self j)
  obtain ⟨q, rfl⟩ := h.dvd
  exact (Nat.two_pow_add_eq_or_of_lt hlt q).symm

theorem finish (h : Fraction n d k 0 num mask res) : res = n * 2 ^ k / d := by
  have hsum := h.sum
  have hnum := h.num_lt
  rw [Nat.pow_zero, Nat.mul_one] at hsum
  have hpos : 0 < d := by omega
  refine (Nat.div_eq_of_lt_le ?_ ?_).symm
  · have : 2 * (res * d) ≤ 2 * (n * 2 ^ k) := by linarith
    omega
  · have : 2 * (n * 2 ^ k) < 2 * ((res + 1) * d) := by linarith
    omega

end Fraction

end HfRisc.Lib
