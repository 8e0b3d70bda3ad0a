import HfRisc.Lib.Bits
import HfRisc.Lib.Multiplication
import HfRisc.Rtl.Mul
import Mathlib.Tactic.Linarith

/-!
# What the multiplier computes

The invariant of the serial multiplier: as a signed number, the 65 bits of `reg`
are a partial product. With `sig0` low both factors are unsigned, with `sig0`
high both are signed; the bits of the second factor weigh the same in either case
but for the last one, which is then subtracted.
-/

namespace HfRisc.Rtl.Mul

open HfRisc.Lib

/-- A factor as the multiplier reads it. -/
def factor (sig0 : Bool) (x : Word) : ℤ := if sig0 then x.toInt else x.toNat

/-! ## One clock edge of the register -/

section Register

variable (reg : BitVec 65)

theorem toInt_reg (v : BitVec 65) :
    v.toInt = if v.toNat < 2 ^ 64 then (v.toNat : ℤ) else v.toNat - 2 ^ 65 := by
  rw [BitVec.toInt_eq_toNat_cond]
  split <;> split <;> omega

/-- One place to the right. -/
theorem toInt_shift_one :
    (reg.extractLsb' 64 1 ++ reg.extractLsb' 1 64 : BitVec 65).toInt = reg.toInt / 2 := by
  have hlt := reg.isLt
  rw [toInt_reg, toInt_reg, toNat_append, toNat_extract, toNat_extract]
  simp only [Nat.reducePow]
  split <;> split <;> omega

/-- Four places to the right. -/
theorem toInt_shift_four :
    (reg.extractLsb' 64 1 ++ reg.extractLsb' 64 1 ++ reg.extractLsb' 64 1 ++
      reg.extractLsb' 64 1 ++ reg.extractLsb' 4 61 : BitVec 65).toInt = reg.toInt / 16 := by
  have hlt := reg.isLt
  rw [toInt_reg, toInt_reg, toNat_append, toNat_append, toNat_append, toNat_append, toNat_extract,
    toNat_extract]
  simp only [Nat.reducePow]
  split <;> split <;> omega

/-- A sum on top of the low half, with or without its sign. -/
theorem toInt_splice (sig0 : Bool) (t : BitVec 33) :
    2 * (BitVec.ofBool (sig0 && t.getLsbD 32) ++ t ++ reg.extractLsb' 1 31 : BitVec 65).toInt =
      (if sig0 then t.toInt else t.toNat) * 2 ^ 32 + (reg.toNat % 2 ^ 32 - reg.toNat % 2 : ℕ) := by
  have hlt := reg.isLt
  have ht := t.isLt
  have htop : (BitVec.ofBool (sig0 && t.getLsbD 32)).toNat =
      if sig0 then t.toNat / 2 ^ 32 else 0 := by
    have hbit : t.getLsbD 32 = decide (t.toNat / 2 ^ 32 = 1) := by
      rw [BitVec.getLsbD, Nat.testBit_eq_decide_div_mod_eq]
      congr 1
      rw [Nat.mod_eq_of_lt (by omega)]
    rw [hbit]
    cases sig0 with
    | false => rfl
    | true =>
      by_cases h : t.toNat / 2 ^ 32 = 1
      · rw [decide_eq_true h, h]
        rfl
      · rw [decide_eq_false h]
        simp only [Bool.true_and, BitVec.ofBool_false, if_true]
        show 0 = _
        omega
  rw [toInt_reg, toNat_append, toNat_append, toNat_extract, htop]
  cases sig0 with
  | false =>
    simp only [Nat.reducePow, Bool.false_eq_true, if_false]
    split <;> omega
  | true =>
    simp only [Nat.reducePow, if_true, BitVec.toInt_eq_toNat_cond]
    split <;> split <;> omega

end Register

section Adder

variable (m : Mul)

/-- The factor on the adder. -/
theorem toInt_a : (m.a true).toInt = m.i0Reg.toInt := by
  have hlt := m.i0Reg.isLt
  have hbit : m.i0Reg.getLsbD 31 = decide (m.i0Reg.toNat / 2 ^ 31 = 1) := by
    rw [BitVec.getLsbD, Nat.testBit_eq_decide_div_mod_eq]
    congr 1
    rw [Nat.mod_eq_of_lt (by omega)]
  rw [a, Bool.true_and, hbit, BitVec.toInt_eq_toNat_cond, BitVec.toInt_eq_toNat_cond, toNat_append]
  by_cases h : m.i0Reg.toNat / 2 ^ 31 = 1
  · rw [decide_eq_true h]
    simp only [Nat.reducePow, BitVec.toNat_ofBool, Bool.toNat_true]
    split <;> split <;> omega
  · rw [decide_eq_false h]
    simp only [Nat.reducePow, BitVec.toNat_ofBool, Bool.toNat_false]
    split <;> split <;> omega

theorem toNat_a : (m.a false).toNat = m.i0Reg.toNat := by
  rw [a, Bool.false_and, toNat_append]
  simp

/-- The high half of the register. -/
theorem toInt_high : (m.reg.extractLsb' 32 33).toInt = m.reg.toInt / 2 ^ 32 := by
  have hlt := m.reg.isLt
  rw [toInt_reg, BitVec.toInt_eq_toNat_cond, toNat_extract]
  simp only [Nat.reducePow]
  split <;> split <;> omega

theorem toInt_mod_two : m.reg.toInt % 2 = (m.reg.toNat % 2 : ℕ) := by
  rw [toInt_reg]
  split <;> omega

/-- The factor is subtracted. -/
def Subtracts (sig0 : Bool) : Prop := m.counter = 31 ∧ sig0 = true

instance (sig0 : Bool) : Decidable (m.Subtracts sig0) := inferInstanceAs (Decidable (_ ∧ _))

variable {m} in
theorem addSub_sub {sig0 : Bool} (h : m.Subtracts sig0) :
    m.addSub sig0 = m.reg.extractLsb' 32 33 - m.a sig0 := if_pos h

variable {m} in
theorem addSub_add {sig0 : Bool} (h : ¬ m.Subtracts sig0) :
    m.addSub sig0 = m.reg.extractLsb' 32 33 + m.a sig0 := if_neg h

/-- The high half has room for one more addition. -/
def InRange (sig0 : Bool) : Prop :=
  if sig0 then -2 ^ 63 ≤ m.reg.toInt ∧ m.reg.toInt < 2 ^ 63
  else 0 ≤ m.reg.toInt ∧ m.reg.toInt < 2 ^ 64

/-- The sum in the high half. -/
theorem addSub_eq {sig0 : Bool} (h : m.InRange sig0) :
    (if sig0 then (m.addSub sig0).toInt else (m.addSub sig0).toNat) =
      m.reg.toInt / 2 ^ 32 +
        (if m.Subtracts sig0 then -factor sig0 m.i0Reg else factor sig0 m.i0Reg) := by
  cases sig0 with
  | false =>
    obtain ⟨hlo, hhi⟩ := h
    have hno : ¬ m.Subtracts false := fun h => nomatch h.2
    have hx := m.i0Reg.isLt
    have hlt := m.reg.isLt
    have hnat : m.reg.toInt = m.reg.toNat := by
      rw [toInt_reg] at hlo hhi ⊢
      split <;> omega
    have hsum : (m.addSub false).toNat = m.reg.toNat / 2 ^ 32 + m.i0Reg.toNat := by
      rw [addSub_add hno, BitVec.toNat_add, toNat_a, toNat_extract]
      omega
    simp only [Bool.false_eq_true, if_false, if_neg hno, factor, hsum, hnat]
    omega
  | true =>
    obtain ⟨hlo, hhi⟩ := h
    have hx : -2 ^ 31 ≤ m.i0Reg.toInt ∧ m.i0Reg.toInt < 2 ^ 31 :=
      ⟨BitVec.le_toInt m.i0Reg, BitVec.toInt_lt⟩
    have hbmod : ∀ t : ℤ, -2 ^ 32 ≤ t → t < 2 ^ 32 → t.bmod (2 ^ 33) = t := fun t h₁ h₂ =>
      Int.bmod_eq_of_le (by omega) (by omega)
    by_cases hsub : m.Subtracts true
    · simp only [if_true, if_pos hsub, factor]
      rw [addSub_sub hsub, BitVec.toInt_sub, toInt_a, toInt_high, hbmod _ (by omega) (by omega)]
      ring
    · simp only [if_true, if_neg hsub, factor]
      rw [addSub_add hsub, BitVec.toInt_add, toInt_a, toInt_high, hbmod _ (by omega) (by omega)]

/-- The register after an addition. -/
theorem two_mul_toInt_add {sig0 : Bool} (h : m.InRange sig0) :
    2 * (BitVec.ofBool (sig0 && (m.addSub sig0).getLsbD 32) ++ m.addSub sig0 ++
        m.reg.extractLsb' 1 31 : BitVec 65).toInt =
      m.reg.toInt - m.reg.toInt % 2 +
        (if m.Subtracts sig0 then -factor sig0 m.i0Reg else factor sig0 m.i0Reg) * 2 ^ 32 := by
  rw [toInt_splice, addSub_eq m h]
  have hmod := m.toInt_mod_two
  have hlow : m.reg.toInt % 2 ^ 32 = (m.reg.toNat % 2 ^ 32 : ℕ) := by
    rw [toInt_reg]
    split <;> omega
  generalize (if m.Subtracts sig0 then -factor sig0 m.i0Reg else factor sig0 m.i0Reg) = f
  rw [add_mul]
  omega

end Adder

/-! ## The invariant -/

/-- The multiplier has gone through `counter` bits of `y`. -/
structure Partial (m : Mul) (sig0 : Bool) (x y : Word) : Prop where
  state : m.currentState = .multiply
  i0 : m.i0Reg = x
  reg : m.reg.toInt =
    partialProduct (2 * 2 ^ 31) (factor sig0 x) (y.toNat * 2 ^ (32 - m.counter.toNat))

/-- The multiplier has gone through all of them. -/
structure Product (m : Mul) (sig0 : Bool) (x y : Word) : Prop where
  state : m.currentState = .done
  reg : m.reg.toInt = factor sig0 x * factor sig0 y

variable {m : Mul} {sig0 : Bool} {x y : Word}

/-- A partial product leaves room for one more addition. -/
theorem Partial.inRange (h : Partial m sig0 x y) : m.InRange sig0 := by
  have hy := y.isLt
  have hx := x.isLt
  have hu : y.toNat * 2 ^ (32 - m.counter.toNat) ≤ y.toNat * 2 ^ 32 :=
    Nat.mul_le_mul_left _ (Nat.pow_le_pow_right (by omega) (by omega))
  have hreg := h.reg
  rw [partialProduct] at hreg
  generalize y.toNat * 2 ^ (32 - m.counter.toNat) = u at hu hreg
  have hlow : u % (2 * 2 ^ 31) < 2 ^ 32 := by omega
  have hhigh : u / (2 * 2 ^ 31) < 2 ^ 32 := by omega
  generalize u % (2 * 2 ^ 31) = w at hlow hreg
  generalize u / (2 * 2 ^ 31) = q at hhigh hreg
  unfold InRange
  cases sig0 with
  | false =>
    rw [factor] at hreg
    simp only [Bool.false_eq_true, if_false] at hreg ⊢
    have hle : (x.toNat : ℤ) * w ≤ (2 ^ 32 - 1) * w :=
      mul_le_mul_of_nonneg_right (by omega) (by omega)
    have hge : 0 ≤ (x.toNat : ℤ) * w := mul_nonneg (by omega) (by omega)
    omega
  | true =>
    rw [factor] at hreg
    simp only [if_true] at hreg ⊢
    have hle : x.toInt * w ≤ (2 ^ 31 - 1) * w :=
      mul_le_mul_of_nonneg_right (by have := BitVec.toInt_lt (x := x); omega) (by omega)
    have hge : -2 ^ 31 * (w : ℤ) ≤ x.toInt * w :=
      mul_le_mul_of_nonneg_right (by have := BitVec.le_toInt x; omega) (by omega)
    omega

/-- The lowest bit of the register. -/
theorem getLsbD_reg (m : Mul) : m.reg.getLsbD 0 = true ↔ m.reg.toInt % 2 = 1 := by
  rw [toInt_mod_two, BitVec.getLsbD, Nat.testBit_eq_decide_div_mod_eq, decide_eq_true_eq,
    Nat.pow_zero, Nat.div_one]
  omega

theorem toInt_mod_sixteen (h : m.reg.extractLsb' 0 4 = 0b0000) : m.reg.toInt % 16 = 0 := by
  have hnat := congrArg BitVec.toNat h
  rw [toNat_extract] at hnat
  rw [toInt_reg]
  simp at hnat
  split <;> omega

section Multiply

variable (h : m.currentState = .multiply) (trg : Bool) (i0 i1 : Word)
include h

/-- While multiplying, neither the trigger nor the operands matter. -/
theorem step_congr : m.step trg sig0 i0 i1 = m.step false sig0 0 0 := by
  rw [step, step, h]
  simp only [nextState, h]

theorem step_currentState :
    (m.step trg sig0 i0 i1).currentState = if m.counter = 31 then .done else .multiply := by
  rw [step, h]
  simp only [nextState, h]
  split <;> split <;> rfl

theorem step_i0Reg : (m.step trg sig0 i0 i1).i0Reg = m.i0Reg := by
  rw [step, h]
  simp only
  split
  · rfl
  · split <;> rfl

theorem step_rdySig : (m.step trg sig0 i0 i1).rdySig = false := by
  rw [step, h]
  simp only
  split
  · rfl
  · split <;> rfl

end Multiply

/-- What one clock edge does to the register while multiplying. -/
theorem toInt_step (h : Partial m sig0 x y) (trg : Bool) (i0 i1 : Word) :
    2 * (m.step trg sig0 i0 i1).reg.toInt = m.reg.toInt - m.reg.toInt % 2 +
        (if m.reg.toInt % 2 = 1 then
          (if m.Subtracts sig0 then -factor sig0 x else factor sig0 x) * 2 ^ 32 else 0) ∧
      (m.step trg sig0 i0 i1).counter = m.counter + 1 ∨
    m.reg.toInt % 16 = 0 ∧ m.counter < 28 ∧
      16 * (m.step trg sig0 i0 i1).reg.toInt = m.reg.toInt ∧
      (m.step trg sig0 i0 i1).counter = m.counter + 4 := by
  rw [step, h.state]
  simp only
  by_cases hbit : m.reg.getLsbD 0 = true
  · simp only [if_pos hbit]
    refine .inl ⟨?_, trivial⟩
    rw [if_pos (getLsbD_reg m |>.mp hbit), two_mul_toInt_add m h.inRange, h.i0]
  · simp only [if_neg hbit]
    have hodd : ¬ m.reg.toInt % 2 = 1 := fun hodd => hbit ((getLsbD_reg m).mpr hodd)
    by_cases hrun : m.reg.extractLsb' 0 4 = 0b0000 ∧ m.counter < 28
    · simp only [if_pos hrun]
      have hmod := toInt_mod_sixteen hrun.1
      refine .inr ⟨hmod, hrun.2, ?_, trivial⟩
      rw [toInt_shift_four]
      omega
    · simp only [if_neg hrun]
      refine .inl ⟨?_, trivial⟩
      rw [if_neg hodd, toInt_shift_one]
      omega

/-- One more bit, unless it is the last. -/
theorem Partial.step (h : Partial m sig0 x y) (hc : m.counter ≠ 31) (trg : Bool) (i0 i1 : Word) :
    Partial (m.step trg sig0 i0 i1) sig0 x y := by
  have hlt : m.counter.toNat < 31 := by
    have hne : m.counter.toNat ≠ 31 := fun heq => hc (BitVec.eq_of_toNat_eq heq)
    omega
  have hsub : ¬ m.Subtracts sig0 := fun hs => hc hs.1
  have hreg := h.reg
  refine ⟨by rw [step_currentState h.state, if_neg hc], by rw [step_i0Reg h.state, h.i0], ?_⟩
  rcases toInt_step h trg i0 i1 with ⟨hstep, hcount⟩ | ⟨hmod, hsmall, hstep, hcount⟩
  · -- one bit: the factor is added where it is set, and the register is halved
    have hnext : (m.step trg sig0 i0 i1).counter.toNat = m.counter.toNat + 1 := by
      rw [hcount, BitVec.toNat_add]
      simp
      omega
    rw [hnext]
    generalize hv : y.toNat * 2 ^ (32 - (m.counter.toNat + 1)) = v
    have hpow : y.toNat * 2 ^ (32 - m.counter.toNat) = 2 * v := by
      rw [← hv, show 32 - m.counter.toNat = 32 - (m.counter.toNat + 1) + 1 by omega, pow_succ]
      ring
    rw [hpow] at hreg
    have hhalve := PartialProduct.halve (2 ^ 31) (factor sig0 x) v
    rw [← PartialProduct.emod_two, ← hreg] at hhalve
    rw [if_neg hsub] at hstep
    rcases Int.emod_two_eq_zero_or_one m.reg.toInt with hbit | hbit
    · rw [hbit, if_neg (by decide)] at hstep
      rw [hbit, zero_mul, add_zero] at hhalve
      omega
    · rw [hbit, if_pos rfl] at hstep
      rw [hbit, one_mul, show ((2 * 2 ^ 31 : ℕ) : ℤ) = 2 ^ 32 from rfl] at hhalve
      omega
  · -- four zero bits at once
    have hle : m.counter.toNat < 28 := hsmall
    have hnext : (m.step trg sig0 i0 i1).counter.toNat = m.counter.toNat + 4 := by
      rw [hcount, BitVec.toNat_add]
      simp
      omega
    rw [hnext]
    generalize hv : y.toNat * 2 ^ (32 - (m.counter.toNat + 4)) = v
    have hpow : y.toNat * 2 ^ (32 - m.counter.toNat) = 2 ^ 4 * v := by
      rw [← hv, show 32 - m.counter.toNat = 32 - (m.counter.toNat + 4) + 4 by omega, pow_add]
      ring
    rw [hpow] at hreg
    have hshift := PartialProduct.shift (2 ^ 31) (factor sig0 x) v 4
      (by rw [← hreg]; exact Int.dvd_of_emod_eq_zero hmod)
    rw [← hreg] at hshift
    omega

/-- The last bit. -/
theorem Partial.step_last (h : Partial m sig0 x y) (hc : m.counter = 31) (trg : Bool)
    (i0 i1 : Word) : Product (m.step trg sig0 i0 i1) sig0 x y := by
  have hy := y.isLt
  have hreg := h.reg
  refine ⟨by rw [step_currentState h.state, if_pos hc], ?_⟩
  have hpow : y.toNat * 2 ^ (32 - m.counter.toNat) = 2 * y.toNat := by
    rw [hc, Nat.mul_comm]
    rfl
  rw [hpow] at hreg
  have hhalve := PartialProduct.halve (2 ^ 31) (factor sig0 x) y.toNat
  rw [← PartialProduct.emod_two, ← hreg, PartialProduct.done (by omega)] at hhalve
  -- The carry is the sign of the second factor.
  have hcarry : m.reg.toInt % 2 = if y.toNat < 2 ^ 31 then 0 else 1 := by
    rw [hreg, PartialProduct.emod_two, PartialProduct.carry]
    split <;> omega
  have hsign : y.toInt = if y.toNat < 2 ^ 31 then (y.toNat : ℤ) else y.toNat - 2 ^ 32 := by
    rw [BitVec.toInt_eq_toNat_cond]
    split <;> split <;> omega
  rw [show ((2 * 2 ^ 31 : ℕ) : ℤ) = 2 ^ 32 from rfl] at hhalve
  rcases toInt_step h trg i0 i1 with ⟨hstep, -⟩ | ⟨-, hsmall, -, -⟩
  · rw [hcarry] at hstep hhalve
    by_cases hmsb : y.toNat < 2 ^ 31
    · rw [if_pos hmsb] at hstep hhalve hsign
      have hfactor : factor sig0 y = y.toNat := by
        rw [factor, hsign, ite_self]
      rw [if_neg (by decide)] at hstep
      rw [hfactor]
      linarith
    · rw [if_neg hmsb] at hstep hhalve hsign
      rw [if_pos rfl] at hstep
      cases sig0 with
      | false =>
        rw [if_neg fun hs => Bool.false_ne_true hs.2] at hstep
        show _ = factor false x * (y.toNat : ℤ)
        linarith
      | true =>
        rw [if_pos ⟨hc, rfl⟩] at hstep
        show _ = factor true x * y.toInt
        rw [hsign, mul_sub]
        linarith
  · rw [hc] at hsmall
    exact absurd hsmall (by decide)

/-- The operands are captured. -/
theorem partial_start (h : m.currentState = .start) (x y : Word) :
    Partial (m.step true sig0 x y) sig0 x y := by
  have hreg : (0#33 ++ y : BitVec 65).toInt = y.toNat := by
    have hy := y.isLt
    rw [toInt_reg, toNat_append]
    simp only [BitVec.toNat_ofNat, Nat.zero_mod, Nat.zero_mul, Nat.zero_add]
    rw [if_pos (by omega)]
  rw [step, h]
  refine ⟨by rw [nextState, h]; rfl, rfl, ?_⟩
  show (0#33 ++ y : BitVec 65).toInt = partialProduct (2 ^ 32) _ (y.toNat * 2 ^ 32)
  rw [hreg, PartialProduct.start (by decide)]

/-! ## When it is done -/

/-- The multiplier will be done in `k` cycles. -/
def DoneIn (sig0 : Bool) : ℕ → Mul → Prop
  | 0, m => m.currentState = .done
  | k + 1, m => m.currentState = .multiply ∧ DoneIn sig0 k (m.step false sig0 0 0)

/-- Every step passes at least one bit. -/
theorem Partial.doneIn {b : ℕ} (h : Partial m sig0 x y) (hb : 32 ≤ m.counter.toNat + b) :
    ∃ k, 0 < k ∧ k ≤ b ∧ DoneIn sig0 k m := by
  induction b generalizing m with
  | zero =>
    have hlt := m.counter.isLt
    omega
  | succ b ih =>
    by_cases hc : m.counter = 31
    · exact ⟨1, by omega, by omega, h.state, (h.step_last hc false 0 0).state⟩
    · have hlt : m.counter.toNat < 31 := by
        have hne : m.counter.toNat ≠ 31 := fun heq => hc (BitVec.eq_of_toNat_eq heq)
        omega
      have hmore : m.counter.toNat < (m.step false sig0 0 0).counter.toNat := by
        rcases toInt_step h false 0 0 with ⟨-, hcount⟩ | ⟨-, hsmall, -, hcount⟩
        · rw [hcount, BitVec.toNat_add]
          simp
          omega
        · have hsmall' : m.counter.toNat < 28 := hsmall
          rw [hcount, BitVec.toNat_add]
          simp
          omega
      obtain ⟨k, -, hk, hdone⟩ := ih (h.step hc false 0 0) (by omega)
      exact ⟨k + 1, by omega, by omega, h.state, hdone⟩

/-- The number of cycles to go follows the invariant. -/
theorem Partial.next {k : ℕ} (h : Partial m sig0 x y) (hk : DoneIn sig0 (k + 1) m) (trg : Bool)
    (i0 i1 : Word) :
    DoneIn sig0 k (m.step trg sig0 i0 i1) ∧
      (k = 0 → Product (m.step trg sig0 i0 i1) sig0 x y) ∧
      (k ≠ 0 → Partial (m.step trg sig0 i0 i1) sig0 x y) := by
  have hdone : DoneIn sig0 k (m.step trg sig0 i0 i1) := by
    rw [step_congr h.state]
    exact hk.2
  by_cases hc : m.counter = 31
  · refine ⟨hdone, fun _ => h.step_last hc trg i0 i1, fun hne => ?_⟩
    obtain ⟨k, rfl⟩ := Nat.exists_eq_succ_of_ne_zero hne
    have hstate := hdone.1
    rw [step_currentState h.state, if_pos hc] at hstate
    cases hstate
  · refine ⟨hdone, fun hzero => ?_, fun _ => h.step hc trg i0 i1⟩
    rw [hzero, DoneIn, step_currentState h.state, if_neg hc] at hdone
    cases hdone

/-! ## The two halves of the product -/

/-- The low half does not depend on the signs. -/
theorem Product.o0 (h : Product m sig0 x y) : m.o0 = x * y := by
  have hcast : ∀ z : Word, factor sig0 z % 2 ^ 32 = z.toNat := fun z => by
    have hz := z.isLt
    rw [factor, BitVec.toInt_eq_toNat_cond]
    cases sig0 with
    | false => omega
    | true =>
      simp only [if_true]
      split <;> omega
  have hmod : m.reg.toInt % 2 ^ 32 = (x.toNat * y.toNat : ℕ) % 2 ^ 32 := by
    rw [h.reg, Int.mul_emod, hcast, hcast, Nat.cast_mul]
  refine BitVec.eq_of_toNat_eq ?_
  rw [Mul.o0, toNat_extract, BitVec.toNat_mul]
  rw [toInt_reg] at hmod
  generalize x.toNat * y.toNat = z at hmod
  split at hmod <;> omega

/-- The high half. -/
theorem Product.o1 (h : Product m sig0 x y) :
    m.o1 = BitVec.ofInt 32 (factor sig0 x * factor sig0 y / 2 ^ 32) := by
  have hlt := m.reg.isLt
  refine BitVec.eq_of_toNat_eq ?_
  rw [Mul.o1, toNat_extract, BitVec.toNat_ofInt, ← h.reg, toInt_reg]
  simp only [Nat.reducePow]
  split <;> omega

end HfRisc.Rtl.Mul
