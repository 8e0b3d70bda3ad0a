import HfRisc.Arch
import HfRisc.Lib.BlockWalk
import HfRisc.Lib.While
import Mathlib.Logic.Function.Basic

/-!
# Copies in memory (`libc.c`)

`memmove` copies upward where the source is not below the destination, and downward where it is. In
both directions a byte is read before the copy reaches its address.
-/

namespace HfRisc.Soft

/-! ## `memmove` -/

namespace Memmove

/-- The variables of the loops. -/
structure Vars where
  mem : Word → BitVec 8
  s : Word
  p : Word
  n : Word

/-- `*s++ = *p++`. -/
def up (v : Vars) : Vars := ⟨Function.update v.mem v.s (v.mem v.p), v.s + 1, v.p + 1, v.n - 1⟩

/-- `*--s = *--p`. -/
def down (v : Vars) : Vars :=
  ⟨Function.update v.mem (v.s - 1) (v.mem (v.p - 1)), v.s - 1, v.p - 1, v.n - 1⟩

end Memmove

/-- `memmove`, with the memory that it leaves. -/
def memmove (fuel : ℕ) (mem : Word → BitVec 8) (dst src n : Word) :
    Option ((Word → BitVec 8) × Word) := do
  let v ←
    if dst ≤ src then Lib.whileLoop (fun v => v.n ≠ 0) Memmove.up fuel ⟨mem, dst, src, n⟩
    else Lib.whileLoop (fun v => v.n ≠ 0) Memmove.down fuel ⟨mem, dst + n, src + n, n⟩
  return (v.mem, dst)

/-! ## What has been copied -/

namespace Memmove

variable {mem : Word → BitVec 8} {dst src n : Word} {i lo hi fuel : ℕ}

/-- The bytes from `lo` to `hi` of the destination are those that the source had. -/
def copied (mem : Word → BitVec 8) (dst src : Word) (lo hi : ℕ) (j : Word) : BitVec 8 :=
  if lo ≤ (j - dst).toNat ∧ (j - dst).toNat < hi then mem (src + (j - dst)) else mem j

theorem copied_empty : copied mem dst src i i = mem := by
  funext j
  rw [copied, if_neg (by omega)]

theorem eq_offset_iff {j : Word} (h : i < 2 ^ 32) :
    j = dst + BitVec.ofNat 32 i ↔ (j - dst).toNat = i := by
  constructor
  · rintro rfl
    exact Lib.toNat_offset h
  · rintro rfl
    exact Lib.eq_offset

/-- One byte more, where the byte that is read has not been written. -/
theorem update_copied {lo' hi' : ℕ} (h : i < 2 ^ 32)
    (hread : ¬(lo ≤ (src + BitVec.ofNat 32 i - dst).toNat ∧
      (src + BitVec.ofNat 32 i - dst).toNat < hi))
    (hrange : ∀ k, lo' ≤ k ∧ k < hi' ↔ k = i ∨ lo ≤ k ∧ k < hi) :
    Function.update (copied mem dst src lo hi) (dst + BitVec.ofNat 32 i)
      (copied mem dst src lo hi (src + BitVec.ofNat 32 i)) = copied mem dst src lo' hi' := by
  have hbyte : copied mem dst src lo hi (src + BitVec.ofNat 32 i) =
      mem (src + BitVec.ofNat 32 i) := if_neg hread
  funext j
  rw [hbyte, Function.update_apply, copied, copied, if_congr (hrange _) rfl rfl]
  by_cases hj : (j - dst).toNat = i
  · rw [if_pos ((eq_offset_iff h).mpr hj), if_pos (.inl hj), ← hj, BitVec.ofNat_toNat,
      BitVec.setWidth_eq]
  · rw [if_neg fun heq => hj ((eq_offset_iff h).mp heq)]
    exact if_congr (or_iff_right hj).symm rfl rfl

/-- Upward, what is read lies behind what is written: the source does not wrap around. -/
theorem read_up (hle : dst ≤ src) (hsrc : src.toNat + n.toNat ≤ 2 ^ 32) (h : i < n.toNat) :
    ¬(src + BitVec.ofNat 32 i - dst).toNat < i := by
  have hlt := n.isLt
  have hle' : dst.toNat ≤ src.toNat := hle
  rw [BitVec.toNat_sub, BitVec.toNat_add, BitVec.toNat_ofNat]
  omega

/-- Downward, it lies in front of it: the destination does not wrap around. -/
theorem read_down (hlt : ¬dst ≤ src) (hdst : dst.toNat + n.toNat ≤ 2 ^ 32) (h : i < n.toNat) :
    ¬(i + 1 ≤ (src + BitVec.ofNat 32 i - dst).toNat ∧
      (src + BitVec.ofNat 32 i - dst).toNat < n.toNat) := by
  have hbound := n.isLt
  have hless : ¬dst.toNat ≤ src.toNat := hlt
  rw [BitVec.toNat_sub, BitVec.toNat_add, BitVec.toNat_ofNat]
  omega

theorem toNat_pred {x : Word} (h : x ≠ 0) : (x - 1).toNat + 1 = x.toNat := by
  have hpos : x.toNat ≠ 0 := fun hzero => h (BitVec.eq_of_toNat_eq hzero)
  have hone : (1 : Word).toNat = 1 := rfl
  have hlt := x.isLt
  rw [BitVec.toNat_sub, hone]
  omega

theorem offset_succ (i : ℕ) : dst + BitVec.ofNat 32 i + 1 = dst + BitVec.ofNat 32 (i + 1) := by
  rw [BitVec.ofNat_add, BitVec.add_assoc]
  rfl

/-- The loop upward, after `i` bytes. -/
theorem loop_up (mem : Word → BitVec 8) (hle : dst ≤ src) (hsrc : src.toNat + n.toNat ≤ 2 ^ 32)
    (hfuel : n.toNat < fuel) :
    ∃ v, Lib.whileLoop (fun v => v.n ≠ 0) up fuel ⟨mem, dst, src, n⟩ = some v ∧
      v.mem = copied mem dst src 0 n.toNat := by
  have hlt := n.isLt
  have hround : ∀ k (v : Vars), (∃ i, i + k = n.toNat ∧ v.n.toNat = k ∧
      v.s = dst + BitVec.ofNat 32 i ∧ v.p = src + BitVec.ofNat 32 i ∧
      v.mem = copied mem dst src 0 i) → decide (v.n ≠ 0) = true →
      ∃ j < k, ∃ i, i + j = n.toNat ∧ (up v).n.toNat = j ∧ (up v).s = dst + BitVec.ofNat 32 i ∧
        (up v).p = src + BitVec.ofNat 32 i ∧ (up v).mem = copied mem dst src 0 i := by
    rintro k v ⟨i, hi, hn, hs, hp, hmem⟩ htest
    have hpred := toNat_pred (of_decide_eq_true htest)
    refine ⟨k - 1, by omega, i + 1, by omega, ?_, ?_, ?_, ?_⟩
    · show (v.n - 1).toNat = k - 1
      omega
    · show v.s + 1 = _
      rw [hs, offset_succ]
    · show v.p + 1 = _
      rw [hp, offset_succ]
    · show Function.update v.mem v.s (v.mem v.p) = _
      rw [hmem, hs, hp]
      refine update_copied (by omega) (fun h => read_up hle hsrc (by omega) h.2) fun k => ?_
      omega
  obtain ⟨v, hloop, ⟨k, i, hi, hn, -, -, hmem⟩, hexit⟩ := Lib.whileLoop_total hround
    (s := ⟨mem, dst, src, n⟩) ⟨0, Nat.zero_add _, rfl, (BitVec.add_zero _).symm,
      (BitVec.add_zero _).symm, copied_empty.symm⟩ hfuel
  have hzero : v.n = 0 := not_not.mp (of_decide_eq_false hexit)
  rw [hzero] at hn
  obtain rfl : k = 0 := hn.symm
  rw [Nat.add_zero] at hi
  exact ⟨v, hloop, hi ▸ hmem⟩

/-- The loop downward, with `i` bytes left. -/
theorem loop_down (mem : Word → BitVec 8) (hless : ¬dst ≤ src)
    (hdst : dst.toNat + n.toNat ≤ 2 ^ 32) (hfuel : n.toNat < fuel) :
    ∃ v, Lib.whileLoop (fun v => v.n ≠ 0) down fuel ⟨mem, dst + n, src + n, n⟩ = some v ∧
      v.mem = copied mem dst src 0 n.toNat := by
  have hlt := n.isLt
  have hround : ∀ i (v : Vars), (i ≤ n.toNat ∧ v.n.toNat = i ∧ v.s = dst + BitVec.ofNat 32 i ∧
      v.p = src + BitVec.ofNat 32 i ∧ v.mem = copied mem dst src i n.toNat) →
      decide (v.n ≠ 0) = true →
      ∃ j < i, j ≤ n.toNat ∧ (down v).n.toNat = j ∧ (down v).s = dst + BitVec.ofNat 32 j ∧
        (down v).p = src + BitVec.ofNat 32 j ∧ (down v).mem = copied mem dst src j n.toNat := by
    rintro i v ⟨hi, hn, hs, hp, hmem⟩ htest
    have hpred := toNat_pred (of_decide_eq_true htest)
    obtain ⟨j, rfl⟩ := Nat.exists_eq_succ_of_ne_zero (show i ≠ 0 by omega)
    have hs' : v.s - 1 = dst + BitVec.ofNat 32 j := by
      rw [hs, Nat.succ_eq_add_one, ← offset_succ, BitVec.add_sub_cancel]
    have hp' : v.p - 1 = src + BitVec.ofNat 32 j := by
      rw [hp, Nat.succ_eq_add_one, ← offset_succ, BitVec.add_sub_cancel]
    refine ⟨j, Nat.lt_succ_self j, by omega, ?_, hs', hp', ?_⟩
    · show (v.n - 1).toNat = j
      omega
    · show Function.update v.mem (v.s - 1) (v.mem (v.p - 1)) = _
      rw [hmem, hs', hp']
      refine update_copied (by omega) (read_down hless hdst (by omega)) fun k => ?_
      omega
  obtain ⟨v, hloop, ⟨i, -, hn, -, -, hmem⟩, hexit⟩ := Lib.whileLoop_total hround
    (s := ⟨mem, dst + n, src + n, n⟩) ⟨le_rfl, rfl, by rw [BitVec.ofNat_toNat, BitVec.setWidth_eq],
      by rw [BitVec.ofNat_toNat, BitVec.setWidth_eq], copied_empty.symm⟩ hfuel
  have hzero : v.n = 0 := not_not.mp (of_decide_eq_false hexit)
  rw [hzero] at hn
  obtain rfl : i = 0 := hn.symm
  exact ⟨v, hloop, hmem⟩

end Memmove

end HfRisc.Soft
