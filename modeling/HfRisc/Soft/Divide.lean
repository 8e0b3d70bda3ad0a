import HfRisc.Arch
import HfRisc.Lib.LongDivision
import HfRisc.Lib.Mask
import HfRisc.Lib.While

/-!
# Division (`libc.c`)

`__udivmodsi4` and `__udivmoddi4` are the same two loops over words of 32 and of 64 bits: they
differ in when the divisor has been doubled far enough, and in how a digit gets into the
quotient. The other functions choose one of the two results and put the signs right.
-/

namespace HfRisc.Soft

namespace Division

/-- The variables of the loops: `qbit` is `bit` and `quot` is `res` in `__udivmoddi4`. -/
structure Vars (w : ℕ) where
  num : BitVec w
  den : BitVec w
  bit : BitVec w
  res : BitVec w

variable {w : ℕ}

/-- `den <<= 1; bit <<= 1`. -/
def double (s : Vars w) : Vars w := { s with den := s.den <<< 1, bit := s.bit <<< 1 }

/-- The body of the second loop, where `put` puts a digit into the quotient. -/
def subtract (put : BitVec w → BitVec w → BitVec w) (s : Vars w) : Vars w where
  num := if s.den ≤ s.num then s.num - s.den else s.num
  res := if s.den ≤ s.num then put s.res s.bit else s.res
  bit := s.bit >>> 1
  den := s.den >>> 1

/-- The two loops, where each ends within `fuel` tests. -/
def loops (more : Vars w → Bool) (put : BitVec w → BitVec w → BitVec w) (fuel : ℕ)
    (num den : BitVec w) : Option (Vars w) :=
  (Lib.whileLoop more double fuel ⟨num, den, 1, 0⟩).bind
    (Lib.whileLoop (fun s => s.bit ≠ 0) (subtract put) fuel)

end Division

open Division

/-! ## 32 bits -/

/-- `den < num && bit && !(den & (1L << 31))`. -/
def moreSi (s : Vars 32) : Bool := s.den < s.num ∧ s.bit ≠ 0 ∧ s.den &&& (1 : Word) <<< 31 = 0

/-- `__udivmodsi4`. -/
def udivmodsi4 (fuel : ℕ) (num den modwanted : Word) : Option Word := do
  let s ← loops moreSi (· ||| ·) fuel num den
  return if modwanted ≠ 0 then s.num else s.res

/-- `__divsi3`. -/
def divsi3 (fuel : ℕ) (a b : Word) : Option Word := do
  let neg := false
  let (a, neg) := if a.slt 0 then (-a, !neg) else (a, neg)
  let (b, neg) := if b.slt 0 then (-b, !neg) else (b, neg)
  let res ← udivmodsi4 fuel a b 0
  return if neg then -res else res

/-- `__modsi3`. -/
def modsi3 (fuel : ℕ) (a b : Word) : Option Word := do
  let neg := false
  let (a, neg) := if a.slt 0 then (-a, true) else (a, neg)
  let b := if b.slt 0 then -b else b
  let res ← udivmodsi4 fuel a b 1
  return if neg then -res else res

/-- `__udivsi3`. -/
def udivsi3 (fuel : ℕ) (a b : Word) : Option Word := udivmodsi4 fuel a b 0

/-- `__umodsi3`. -/
def umodsi3 (fuel : ℕ) (a b : Word) : Option Word := udivmodsi4 fuel a b 1

/-! ## 64 bits -/

/-- `(int64_t)den >= 0`. -/
def moreDi (s : Vars 64) : Bool := ¬s.den.slt 0

/-- `__udivmoddi4`, with the quotient and `*rem_p` behind it. `rem` is `*rem_p` before the call,
`none` where `rem_p` is `NULL`. -/
def udivmoddi4 (fuel : ℕ) (num den : BitVec 64) (rem : Option (BitVec 64)) :
    Option (BitVec 64 × Option (BitVec 64)) :=
  if den = 0 then some (1, rem) else do
    let s ← loops moreDi (· + ·) fuel num den
    return (s.res, rem.map fun _ => s.num)

/-- `__umoddi3`. `v` has the value that is found on the stack. -/
def umoddi3 (fuel : ℕ) (v num den : BitVec 64) : Option (BitVec 64) := do
  let (_, rem) ← udivmoddi4 fuel num den (some v)
  rem

/-- `__udivdi3`. -/
def udivdi3 (fuel : ℕ) (num den : BitVec 64) : Option (BitVec 64) := do
  let (quot, _) ← udivmoddi4 fuel num den none
  return quot

/-- `__moddi3`. `v` has the value that is found on the stack. -/
def moddi3 (fuel : ℕ) (v num den : BitVec 64) : Option (BitVec 64) := do
  let minus := false
  let (num, minus) := if num.slt 0 then (-num, true) else (num, minus)
  -- the sign of the quotient, where `__modsi3` keeps that of `a`
  let (den, minus) := if den.slt 0 then (-den, minus ^^ true) else (den, minus)
  let (_, rem) ← udivmoddi4 fuel num den (some v)
  let v ← rem
  return if minus then -v else v

/-- `__divdi3`. -/
def divdi3 (fuel : ℕ) (num den : BitVec 64) : Option (BitVec 64) := do
  let minus := false
  let (num, minus) := if num.slt 0 then (-num, true) else (num, minus)
  let (den, minus) := if den.slt 0 then (-den, minus ^^ true) else (den, minus)
  let (v, _) ← udivmoddi4 fuel num den none
  return if minus then -v else v

namespace Division

/-! ## The loops -/

variable {w : ℕ}

/-- The divisor has been doubled some times, and can be `k` times more. -/
structure Doubled (num d : BitVec w) (k : ℕ) (s : Vars w) : Prop where
  num_eq : s.num = num
  res_eq : s.res = 0
  times : ∃ i, i + k + 1 = w ∧ s.den.toNat = d.toNat * 2 ^ i ∧ s.bit.toNat = 2 ^ i

/-- A digit goes into the quotient as a sum does. -/
def Adds (put : BitVec w → BitVec w → BitVec w) : Prop :=
  ∀ x y, x.toNat ||| y.toNat = x.toNat + y.toNat → x.toNat + y.toNat < 2 ^ w →
    (put x y).toNat = x.toNat + y.toNat

theorem adds_or : Adds (w := w) (· ||| ·) := fun x y hor _ => (BitVec.toNat_or x y).trans hor

theorem adds_add : Adds (w := w) (· + ·) := fun _ _ _ hlt => BitVec.toNat_add_of_lt hlt

variable {put : BitVec w → BitVec w → BitVec w} {num d : BitVec w} {k n m j : ℕ} {s : Vars w}

theorem toNat_shl_one {x : BitVec w} (h : 2 * x.toNat < 2 ^ w) :
    (x <<< 1).toNat = 2 * x.toNat := by
  rw [BitVec.toNat_shiftLeft, Nat.shiftLeft_eq, Nat.pow_one, Nat.mul_comm, Nat.mod_eq_of_lt h]

theorem toNat_shr_one (x : BitVec w) : (x >>> 1).toNat = x.toNat / 2 := by
  rw [BitVec.toNat_ushiftRight, Nat.shiftRight_eq_div_pow, Nat.pow_one]

theorem Doubled.init (num d : BitVec w) (hw : k + 1 = w) : Doubled num d k ⟨num, d, 1, 0⟩ where
  num_eq := rfl
  res_eq := rfl
  times := by
    refine ⟨0, by omega, by rw [Nat.pow_zero, Nat.mul_one], ?_⟩
    exact BitVec.toNat_one (by omega)

/-- A divisor with a clear top bit is doubled. -/
theorem Doubled.double (h : Doubled num d k s) (hd : 0 < d.toNat)
    (htop : 2 * s.den.toNat < 2 ^ w) : ∃ j < k, Doubled num d j (double s) := by
  obtain ⟨i, hi, hden, hbit⟩ := h.times
  have hle : 2 ^ i ≤ d.toNat * 2 ^ i := Nat.le_mul_of_pos_left _ hd
  cases k with
  | zero =>
    -- doubled `w - 1` times the divisor has its top bit set
    have hpow : 2 ^ w = 2 ^ i * 2 := by rw [← hi, Nat.add_zero, Nat.pow_succ]
    omega
  | succ k =>
    refine ⟨k, Nat.lt_succ_self k, h.num_eq, h.res_eq, i + 1, by omega, ?_, ?_⟩
    · show (s.den <<< 1).toNat = _
      rw [toNat_shl_one htop, hden, Nat.pow_succ, Nat.mul_comm, Nat.mul_assoc]
    · show (s.bit <<< 1).toNat = _
      rw [toNat_shl_one (by omega), hbit, Nat.pow_succ, Nat.mul_comm]

/-- The digits of the quotient to come, for the variables. -/
def Left (n m j : ℕ) (s : Vars w) : Prop :=
  Lib.Digits n m j s.num.toNat s.den.toNat s.bit.toNat s.res.toNat

theorem Left.subtract (h : Left n m j s) (hput : Adds put) (hm : 0 < m) (hn : n < 2 ^ w)
    (hbit : decide (s.bit ≠ 0) = true) : ∃ i < j, Left n m i (subtract put s) := by
  cases j with
  | zero => exact absurd (BitVec.eq_of_toNat_eq (h.bit_eq_zero.mpr rfl)) (of_decide_eq_true hbit)
  | succ j =>
    refine ⟨j, Nat.lt_succ_self j, ?_⟩
    rw [Left, Division.subtract]
    dsimp only
    rw [toNat_shr_one, toNat_shr_one]
    split
    · next hle =>
      have hnext := Lib.Digits.subtract h hle
      have hfits : s.res.toNat + s.bit.toNat < 2 ^ w :=
        Nat.lt_of_le_of_lt (hnext.res_le hm) hn
      rw [BitVec.toNat_sub_of_le hle, hput _ _ (Lib.Digits.or_bit h) hfits]
      exact hnext
    · next hlt => exact Lib.Digits.skip h (Nat.lt_of_not_le hlt)

/-- The loops divide, if the first one stops in time, and no earlier than it may. -/
theorem loops_total (more : Vars w → Bool) (num : BitVec w) {fuel : ℕ} (hput : Adds put)
    (hd : 0 < d.toNat) (hmore : ∀ s, more s = true → 2 * s.den.toNat < 2 ^ w)
    (hstop : ∀ s, s.bit ≠ 0 → 0 < s.den.toNat → more s = false →
      s.num.toNat < 2 * s.den.toNat)
    (hfuel : w < fuel) :
    ∃ s, loops more put fuel num d = some s ∧ s.res = num / d ∧ s.num = num % d := by
  -- the first loop, with `k` doublings left at its end
  have hw : w - 1 + 1 = w := Nat.sub_add_cancel (Nat.pos_of_ne_zero fun h => by
    subst h
    exact absurd d.isLt (by omega))
  obtain ⟨s, hfirst, ⟨k, hdoubled⟩, hexit⟩ := Lib.whileLoop_total
    (fun _ s h hs => Doubled.double h hd (hmore s hs)) (Doubled.init num d hw)
    (show w - 1 < fuel by omega)
  obtain ⟨i, hi, hden, hbit⟩ := hdoubled.times
  have hne : s.bit ≠ 0 := fun h => by
    rw [h] at hbit
    exact absurd hbit (Nat.two_pow_pos i).ne
  -- its exit starts the digits of the second one
  have hleft : Left num.toNat d.toNat (i + 1) s := by
    have hpos : 0 < s.den.toNat := hden ▸ Nat.mul_pos hd (Nat.two_pow_pos i)
    have hstart := Lib.Digits.start hden hbit (hstop s hne hpos hexit)
    rw [Left, hdoubled.res_eq]
    rw [hdoubled.num_eq] at hstart ⊢
    exact hstart
  obtain ⟨t, hsecond, ⟨j, ht⟩, hzero⟩ := Lib.whileLoop_total
    (fun _ _ h hs => Left.subtract h hput hd num.isLt hs) hleft (show i + 1 < fuel by omega)
  have hend : j = 0 := ht.bit_eq_zero.mp (by
    rw [not_not.mp (of_decide_eq_false hzero)]
    rfl)
  subst hend
  obtain ⟨hquot, hrem⟩ := Lib.Digits.finish ht
  exact ⟨t, by rw [loops, hfirst, Option.bind_some, hsecond], BitVec.eq_of_toNat_eq hquot,
    BitVec.eq_of_toNat_eq hrem⟩

end Division

/-! ## The functions on words of 32 bits -/

theorem top_eq_zero {x : Word} : x &&& (1 : Word) <<< 31 = 0 ↔ x.msb = false :=
  Lib.and_top (by decide) (by decide)

theorem pos_of_ne_zero {w : ℕ} {d : BitVec w} (hd : d ≠ 0) : 0 < d.toNat :=
  Nat.pos_of_ne_zero fun h => hd (BitVec.eq_of_toNat_eq (h.trans (BitVec.toNat_ofNat 0 w).symm))

theorem moreSi_fits {s : Vars 32} (h : moreSi s = true) : 2 * s.den.toNat < 2 ^ 32 :=
  BitVec.msb_eq_false_iff_two_mul_lt.mp (top_eq_zero.mp (of_decide_eq_true h).2.2)

/-- Where the doubling stops, whichever of the reasons it has. -/
theorem moreSi_stop {s : Vars 32} (hbit : s.bit ≠ 0) (hpos : 0 < s.den.toNat)
    (h : moreSi s = false) : s.num.toNat < 2 * s.den.toNat := by
  have hlt := s.num.isLt
  rcases Nat.lt_or_ge s.den.toNat s.num.toNat with hless | hle
  · have hset : s.den.msb = true := by
      rw [← Bool.not_eq_false, ← top_eq_zero]
      exact fun htop => of_decide_eq_false h ⟨hless, hbit, htop⟩
    have hge := BitVec.msb_eq_true_iff_two_mul_ge.mp hset
    omega
  · omega

theorem udivmodsi4_eq {fuel : ℕ} (hfuel : 32 < fuel) (num : Word) {den : Word} (hden : den ≠ 0)
    (modwanted : Word) : udivmodsi4 fuel num den modwanted =
      some (if modwanted ≠ 0 then num % den else num / den) := by
  obtain ⟨s, hloops, hquot, hrem⟩ := loops_total moreSi num adds_or
    (pos_of_ne_zero hden) (fun _ => moreSi_fits) (fun _ => moreSi_stop) hfuel
  rw [udivmodsi4, hloops, ← hquot, ← hrem]
  rfl

theorem slt_zero {w : ℕ} (x : BitVec w) : x.slt 0 = x.msb := BitVec.slt_zero_eq_msb

theorem divsi3_eq {fuel : ℕ} (hfuel : 32 < fuel) (a : Word) {b : Word} (hb : b ≠ 0) :
    divsi3 fuel a b = some (a.sdiv b) := by
  have hneg : -b ≠ 0 := fun h => hb (neg_eq_zero.mp h)
  rw [divsi3, BitVec.sdiv_eq, slt_zero, slt_zero]
  cases a.msb <;> cases b.msb <;> simp [udivmodsi4_eq hfuel _ hb, udivmodsi4_eq hfuel _ hneg]

theorem modsi3_eq {fuel : ℕ} (hfuel : 32 < fuel) (a : Word) {b : Word} (hb : b ≠ 0) :
    modsi3 fuel a b = some (a.srem b) := by
  have hneg : -b ≠ 0 := fun h => hb (neg_eq_zero.mp h)
  rw [modsi3, BitVec.srem_eq, slt_zero, slt_zero]
  cases a.msb <;> cases b.msb <;> simp [udivmodsi4_eq hfuel _ hb, udivmodsi4_eq hfuel _ hneg]

/-! ## The functions on words of 64 bits -/

theorem moreDi_fits {s : Vars 64} (h : moreDi s = true) : 2 * s.den.toNat < 2 ^ 64 := by
  have hclear := of_decide_eq_true h
  rw [slt_zero, Bool.not_eq_true] at hclear
  exact BitVec.msb_eq_false_iff_two_mul_lt.mp hclear

theorem moreDi_stop {s : Vars 64} (h : moreDi s = false) : s.num.toNat < 2 * s.den.toNat := by
  have hset := not_not.mp (of_decide_eq_false h)
  rw [slt_zero] at hset
  exact Nat.lt_of_lt_of_le s.num.isLt (BitVec.msb_eq_true_iff_two_mul_ge.mp hset)

section

variable {fuel : ℕ} (hfuel : 64 < fuel) (num : BitVec 64) {den : BitVec 64} (hden : den ≠ 0)
include hfuel hden

theorem udivmoddi4_eq (rem : Option (BitVec 64)) :
    udivmoddi4 fuel num den rem = some (num / den, rem.map fun _ => num % den) := by
  obtain ⟨s, hloops, hquot, hrem⟩ := loops_total moreDi num adds_add
    (pos_of_ne_zero hden) (fun _ => moreDi_fits) (fun _ _ _ => moreDi_stop) hfuel
  rw [udivmoddi4, if_neg hden, hloops, ← hquot, ← hrem]
  rfl

theorem udivdi3_eq : udivdi3 fuel num den = some (num / den) := by
  rw [udivdi3, udivmoddi4_eq hfuel num hden]
  rfl

theorem umoddi3_eq (v : BitVec 64) : umoddi3 fuel v num den = some (num % den) := by
  rw [umoddi3, udivmoddi4_eq hfuel num hden]
  rfl

theorem divdi3_eq : divdi3 fuel num den = some (num.sdiv den) := by
  have hneg : -den ≠ 0 := fun h => hden (neg_eq_zero.mp h)
  rw [divdi3, BitVec.sdiv_eq, slt_zero, slt_zero]
  cases num.msb <;> cases den.msb <;>
    simp [udivmoddi4_eq hfuel _ hden, udivmoddi4_eq hfuel _ hneg]

/-- The remainder has the sign of the quotient. -/
theorem moddi3_eq (v : BitVec 64) : moddi3 fuel v num den =
    some (if den.msb then -num.srem den else num.srem den) := by
  have hneg : -den ≠ 0 := fun h => hden (neg_eq_zero.mp h)
  rw [moddi3, BitVec.srem_eq, slt_zero, slt_zero]
  cases num.msb <;> cases den.msb <;>
    simp [udivmoddi4_eq hfuel _ hden, udivmoddi4_eq hfuel _ hneg]

end

end HfRisc.Soft
