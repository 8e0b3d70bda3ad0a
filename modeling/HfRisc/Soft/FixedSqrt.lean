import HfRisc.Lib.While
import HfRisc.Soft.Fixed
import Mathlib.Tactic.Linarith

/-!
# The square root of a fixed-point number (`fix_sqrt`)

Newton's iteration for the default build. Its divisor is the estimate itself, so that the estimate
has to stay away from 0. What keeps it there is that the mean of two numbers is at least the root
of their product, with room for what is lost in the quotient.
-/

namespace HfRisc.Soft

/-! ## The function -/

open Fixed

namespace Sqrt

/-- The variables of the loop that counts the rounds. -/
structure Vars where
  s : Word
  itr : ℕ

/-- `s >>= 2; itr++`. -/
def count (v : Vars) : Vars := ⟨v.s.sshiftRight 2, v.itr + 1⟩

/-- The rounds: they are counted for a number above 1. -/
def rounds (fuel : ℕ) (a : Word) : Option ℕ :=
  if (one 16).slt a then
    (Lib.whileLoop (fun v => (0 : Word).slt v.s) count fuel ⟨a, 0⟩).map Vars.itr
  else some (fbits 16)

/-- `l = (l + fix_div(a, l)) >> 1` in each of the rounds. -/
def newton (a : Word) : ℕ → Word → Option Word
  | 0, l => some l
  | itr + 1, l => do
    let q ← fixDiv 16 a l
    newton a itr ((l + q).sshiftRight 1)

/-- The iteration from `(a >> 1) + 1` on. -/
def root (fuel : ℕ) (a : Word) : Option Word := do
  let itr ← rounds fuel a
  newton a itr (a.sshiftRight 1 + 1)

end Sqrt

open Sqrt

/-- `fix_sqrt`: there is no result where it divides by 0. -/
def fixSqrt (fuel : ℕ) (a : Word) : Option Word :=
  if a.slt 0 then some (-1)
  else if a = 0 ∨ a = one 16 then some a
  else do
    let inv := a.slt (one 16) && (6 : Word).slt a
    let a ← if inv then fixDiv 16 (one 16) a else some a
    let l ← root fuel a
    if inv then fixDiv 16 (one 16) l else some l

/-! ## The iteration -/

namespace Sqrt

section Step

variable {a l : ℕ}

/-- The estimate is at least half of the root, and its sum with the quotient fits in a word. -/
structure Estimate (a l : ℕ) : Prop where
  low : a * 2 ^ 16 ≤ 4 * l ^ 2
  high : l ≤ 2 ^ 30 + 1

theorem Estimate.pos (ha : 2 ^ 16 ≤ a) (h : Estimate a l) : 2 ^ 15 ≤ l := by
  by_contra hlt
  have hsq : l ^ 2 < (2 ^ 15) ^ 2 := Nat.pow_lt_pow_left (Nat.lt_of_not_le hlt) (by decide)
  have hlow := h.low
  omega

/-- What the quotient loses: one unit, and two for each unit in front of the point. -/
theorem lt_quotient (hl : 0 < l) : a * 2 ^ 16 < l * (quotient a l + 2 * (a / 2 ^ 16) + 3) := by
  have hrecip := Nat.div_add_mod' (2 ^ 31) l
  have hrest := Nat.mod_lt (2 ^ 31) hl
  have hcut : a * (2 * (2 ^ 31 / l)) < (quotient a l + 1) * 2 ^ 16 := by
    rw [quotient]
    generalize a * (2 * (2 ^ 31 / l)) = p
    omega
  have hfront : a < (a / 2 ^ 16 + 1) * 2 ^ 16 := by omega
  -- the remainder `t` of the reciprocal is below `l`, and `a` below `d + 1` in front of the point
  generalize quotient a l = q at *
  generalize a / 2 ^ 16 = d at *
  generalize 2 ^ 31 / l = r at *
  generalize 2 ^ 31 % l = t at *
  have hscaled : a * 2 ^ 16 * 2 ^ 16 < l * (q + 2 * d + 3) * 2 ^ 16 := by
    calc a * 2 ^ 16 * 2 ^ 16 = 2 * a * 2 ^ 31 := by ring
      _ = a * (2 * r) * l + 2 * (a * t) := by
        rw [← hrecip]
        ring
      _ < (q + 1) * 2 ^ 16 * l + 2 * (a * t) :=
        Nat.add_lt_add_right (Nat.mul_lt_mul_of_pos_right hcut hl) _
      _ ≤ (q + 1) * 2 ^ 16 * l + 2 * ((d + 1) * 2 ^ 16 * l) :=
        Nat.add_le_add_left (Nat.mul_le_mul_left 2 (Nat.mul_le_mul hfront.le hrest.le)) _
      _ = l * (q + 2 * d + 3) * 2 ^ 16 := by ring
  exact Nat.lt_of_mul_lt_mul_right hscaled

/-- The mean of the estimate and the quotient is again at least half of the root. -/
theorem Estimate.mean (ha : 2 ^ 16 ≤ a) (hlt : a < 2 ^ 31) (hl : 0 < l) :
    a * 2 ^ 16 ≤ 4 * ((l + quotient a l) / 2) ^ 2 := by
  have hloss := lt_quotient (a := a) hl
  have hfront : (a / 2 ^ 16) * 2 ^ 16 ≤ a := Nat.div_mul_le_self a _
  have hd : 1 ≤ a / 2 ^ 16 ∧ a / 2 ^ 16 ≤ 2 ^ 15 := by omega
  have hhalf : l + quotient a l ≤ 2 * ((l + quotient a l) / 2) + 1 := by omega
  generalize (l + quotient a l) / 2 = m at *
  generalize quotient a l = q at *
  generalize a / 2 ^ 16 = d at *
  -- the loss is at most the root
  have hsmall : (2 * d + 4) ^ 2 ≤ a * 2 ^ 16 := by
    calc (2 * d + 4) ^ 2 ≤ (6 * d) ^ 2 := Nat.pow_le_pow_left (by omega) 2
      _ = 36 * d * d := by ring
      _ ≤ 36 * 2 ^ 15 * d := Nat.mul_le_mul_right d (by omega)
      _ ≤ a * 2 ^ 16 := by omega
  have hmean : 4 * (a * 2 ^ 16) < (2 * m + (2 * d + 4)) ^ 2 := by
    calc 4 * (a * 2 ^ 16) < 4 * (l * (q + 2 * d + 3)) :=
          Nat.mul_lt_mul_of_pos_left hloss (by decide)
      _ = 4 * l * (q + 2 * d + 3) := by ring
      _ ≤ (l + (q + 2 * d + 3)) ^ 2 := four_mul_le_sq_add l _
      _ ≤ (2 * m + (2 * d + 4)) ^ 2 := Nat.pow_le_pow_left (by omega) 2
  have hsum : (2 * m + (2 * d + 4)) ^ 2 ≤ 2 * ((2 * m) ^ 2 + (2 * d + 4) ^ 2) := add_sq_le
  linarith

/-- One round of the iteration. -/
theorem Estimate.step (ha : 2 ^ 16 ≤ a) (hlt : a < 2 ^ 31) (h : Estimate a l) :
    Estimate a ((l + quotient a l) / 2) ∧ quotient a l < 2 ^ 25 := by
  have hpos := h.pos ha
  have hquotient : quotient a l < 2 ^ 25 := by
    -- a larger quotient has an estimate that is too low for it
    by_contra hge
    have hle : quotient a l * l ≤ a * 2 ^ 16 :=
      (Nat.le_div_iff_mul_le (by omega)).mp (quotient_le (by omega))
    have hlarge : 2 ^ 25 * l ≤ quotient a l * l := Nat.mul_le_mul_right l (by omega)
    have hsq : l ^ 2 ≤ 2 ^ 22 * l := by
      rw [pow_two]
      exact Nat.mul_le_mul_right l (by omega)
    have hlow := h.low
    omega
  have hhigh := h.high
  exact ⟨⟨Estimate.mean ha hlt (by omega), by omega⟩, hquotient⟩

end Step

section Run

variable {a l : Word}

/-- The divisor is never 0: the estimate is kept in all rounds. -/
theorem newton_eq (ha : 2 ^ 16 ≤ a.toNat) (hlt : a.toNat < 2 ^ 31) (itr : ℕ)
    (h : Estimate a.toNat l.toNat) :
    ∃ l', newton a itr l = some l' ∧ Estimate a.toNat l'.toNat := by
  induction itr generalizing l with
  | zero => exact ⟨l, rfl, h⟩
  | succ itr ih =>
    have hpos := h.pos ha
    have hhigh := h.high
    obtain ⟨hnext, hquotient⟩ := h.step ha hlt
    have hdiv := fixDiv_of_nonneg hlt (y := l) (by omega) (by omega)
    have hsum : (l + BitVec.ofNat 32 (quotient a.toNat l.toNat)).toNat =
        l.toNat + quotient a.toNat l.toNat := by
      rw [BitVec.toNat_add, BitVec.toNat_ofNat]
      omega
    have hmean : ((l + BitVec.ofNat 32 (quotient a.toNat l.toNat)).sshiftRight 1).toNat =
        (l.toNat + quotient a.toNat l.toNat) / 2 := by
      rw [Lib.toNat_sshiftRight (by omega), hsum, pow_one]
    rw [newton, hdiv]
    exact ih (hmean ▸ hnext)

/-- The first estimate. -/
theorem estimate_first (ha : 2 ^ 16 ≤ a.toNat) (hlt : a.toNat < 2 ^ 31) :
    Estimate a.toNat (a.sshiftRight 1 + 1).toNat := by
  have hone : (1 : Word).toNat = 1 := rfl
  have hfirst : (a.sshiftRight 1 + 1).toNat = a.toNat / 2 + 1 := by
    rw [BitVec.toNat_add, Lib.toNat_sshiftRight (by omega), hone]
    omega
  rw [hfirst]
  refine ⟨?_, by omega⟩
  calc a.toNat * 2 ^ 16 ≤ a.toNat * a.toNat := Nat.mul_le_mul_left _ ha
    _ ≤ (2 * (a.toNat / 2 + 1)) * (2 * (a.toNat / 2 + 1)) :=
      Nat.mul_le_mul (by omega) (by omega)
    _ = 4 * (a.toNat / 2 + 1) ^ 2 := by ring

/-- Two bits are shifted out in each round. -/
theorem rounds_total {fuel : ℕ} (hlt : a.toNat < 2 ^ 31) (hfuel : 16 < fuel) :
    ∃ itr, rounds fuel a = some itr := by
  have hround : ∀ (k : ℕ) (v : Vars), v.s.toNat < 4 ^ k ∧ v.s.toNat < 2 ^ 31 →
      (0 : Word).slt v.s = true →
        ∃ j < k, (count v).s.toNat < 4 ^ j ∧ (count v).s.toNat < 2 ^ 31 := by
    rintro k v ⟨hk, hword⟩ htest
    have hzero : (0 : Word).toNat = 0 := rfl
    have hshift : (count v).s.toNat = v.s.toNat / 4 := Lib.toNat_sshiftRight (by omega)
    rw [Lib.slt_of_nonneg (by omega) (by omega), hzero] at htest
    cases k with
    | zero => omega
    | succ k =>
      rw [pow_succ] at hk
      exact ⟨k, Nat.lt_succ_self k, by omega, by omega⟩
  have hstart : (⟨a, 0⟩ : Vars).s.toNat < 4 ^ 16 ∧ (⟨a, 0⟩ : Vars).s.toNat < 2 ^ 31 :=
    ⟨by omega, hlt⟩
  -- the count is not needed: any number of rounds keeps the estimate
  obtain ⟨v, hloop, -⟩ := Lib.whileLoop_total hround hstart hfuel
  rw [rounds, hloop]
  split
  · exact ⟨_, rfl⟩
  · exact ⟨_, rfl⟩

/-- From 1 on there is an estimate. -/
theorem root_eq {fuel : ℕ} (ha : 2 ^ 16 ≤ a.toNat) (hlt : a.toNat < 2 ^ 31) (hfuel : 16 < fuel) :
    ∃ l, root fuel a = some l ∧ Estimate a.toNat l.toNat := by
  obtain ⟨itr, hrounds⟩ := rounds_total hlt hfuel
  obtain ⟨l, hnewton, hl⟩ := newton_eq ha hlt itr (estimate_first ha hlt)
  refine ⟨l, ?_, hl⟩
  rw [root, hrounds]
  exact hnewton

end Run

end Sqrt

end HfRisc.Soft
