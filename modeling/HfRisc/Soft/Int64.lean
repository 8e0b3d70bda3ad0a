import HfRisc.Arch
import HfRisc.Lib.Bits
import HfRisc.Lib.Mask
import HfRisc.Lib.While
import Mathlib.Data.BitVec
import Mathlib.Tactic.Ring

/-!
# Products and 64-bit shifts (`libc.c`)

What the compiler calls on a core without the instructions: products by shifting and adding and
by 16-bit limbs, and shifts of 64-bit values by their halves. The amount of a 32-bit shift is
taken modulo 32.
-/

namespace HfRisc.Soft

/-- `dwords`: a 64-bit value as its halves. -/
structure Dwords where
  low : Word
  high : Word
deriving DecidableEq, Repr

namespace Dwords

/-- `all`, read. -/
def all (d : Dwords) : BitVec 64 := d.high ++ d.low

/-- `all`, written. -/
def ofAll (u : BitVec 64) : Dwords := ⟨u.extractLsb' 0 32, u.extractLsb' 32 32⟩

theorem toNat_all (d : Dwords) : d.all.toNat = d.high.toNat * 2 ^ 32 + d.low.toNat :=
  Lib.toNat_append d.high d.low

theorem toNat_low (u : BitVec 64) : (ofAll u).low.toNat = u.toNat % 2 ^ 32 := by
  rw [ofAll, Lib.toNat_extract, Nat.pow_zero, Nat.div_one]

theorem toNat_high (u : BitVec 64) : (ofAll u).high.toNat = u.toNat / 2 ^ 32 := by
  have hlt := u.isLt
  rw [ofAll, Lib.toNat_extract]
  omega

end Dwords

/-! ## Products -/

namespace Mulsi3

/-- The variables of the loop. -/
structure Vars where
  answer : Word
  a : Word
  b : Word

/-- The body of the loop. -/
def body (s : Vars) : Vars where
  answer := if s.b &&& 1 ≠ 0 then s.answer + s.a else s.answer
  a := s.a <<< 1
  b := s.b >>> 1

end Mulsi3

/-- `__mulsi3`, where its loop ends within `fuel` tests. -/
def mulsi3 (fuel : ℕ) (a b : Word) : Option Word :=
  (Lib.whileLoop (fun s => s.b ≠ 0) Mulsi3.body fuel ⟨0, a, b⟩).map Mulsi3.Vars.answer

/-- `__muldsi3`. -/
def muldsi3 (a b : Word) : BitVec 64 :=
  let lowerMask := ~~~(0 : Word) >>> 16
  let low := (a &&& lowerMask) * (b &&& lowerMask)
  let t := low >>> 16
  let low := low &&& lowerMask
  let t := t + (a >>> 16) * (b &&& lowerMask)
  let low := low + (t &&& lowerMask) <<< 16
  let high := t >>> 16
  let t := low >>> 16
  let low := low &&& lowerMask
  let t := t + (b >>> 16) * (a &&& lowerMask)
  let low := low + (t &&& lowerMask) <<< 16
  let high := high + t >>> 16
  let high := high + (a >>> 16) * (b >>> 16)
  Dwords.all ⟨low, high⟩

/-- `__muldi3`. -/
def muldi3 (fuel : ℕ) (a b : BitVec 64) : Option (BitVec 64) := do
  let x := Dwords.ofAll a
  let y := Dwords.ofAll b
  let r := Dwords.ofAll (muldsi3 x.low y.low)
  let m ← mulsi3 fuel x.high y.low
  let n ← mulsi3 fuel x.low y.high
  return { r with high := r.high + (m + n) }.all

namespace Mulsi3

theorem toNat_lowest (b : Word) : (b &&& 1).toNat = b.toNat % 2 :=
  Lib.toNat_and_mask (k := 1) (by decide)

/-- The lowest bit of the multiplier and the rest. -/
theorem eq_double_add (b : Word) : b = (b >>> 1) * 2#32 + (b &&& 1) := by
  apply BitVec.eq_of_toNat_eq
  have hlt := b.isLt
  rw [BitVec.toNat_add, BitVec.toNat_mul, BitVec.toNat_ushiftRight, toNat_lowest,
    BitVec.toNat_ofNat, Nat.shiftRight_eq_div_pow]
  omega

/-- What the test adds. -/
theorem body_answer (s : Vars) : (body s).answer = s.answer + s.a * (s.b &&& 1) := by
  have hlowest := toNat_lowest s.b
  simp only [body]
  split
  · next hne =>
    have hpos : (s.b &&& 1).toNat ≠ 0 := fun h => hne (BitVec.eq_of_toNat_eq h)
    have hone : s.b &&& 1 = 1#32 := BitVec.eq_of_toNat_eq (by show _ = 1; omega)
    rw [hone, BitVec.mul_one]
  · next h => rw [not_not.mp h, mul_zero, add_zero]

/-- A round leaves the product to come. -/
theorem body_sum (s : Vars) :
    (body s).answer + (body s).a * (body s).b = s.answer + s.a * s.b := by
  have ha : (body s).a = s.a * 2#32 := BitVec.shiftLeft_eq_mul_twoPow s.a 1
  have hb : (body s).b = s.b >>> 1 := rfl
  calc (body s).answer + (body s).a * (body s).b
      = s.answer + s.a * ((s.b >>> 1) * 2#32 + (s.b &&& 1)) := by
        rw [body_answer, ha, hb]
        ring
    _ = s.answer + s.a * s.b := by rw [← eq_double_add]

/-- `k` bits of the multiplier are left. -/
structure Left (a b : Word) (k : ℕ) (s : Vars) : Prop where
  sum : s.answer + s.a * s.b = a * b
  bits : s.b.toNat < 2 ^ k

theorem Left.body {a b : Word} {k : ℕ} {s : Vars} (h : Left a b k s)
    (hb : decide (s.b ≠ 0) = true) : ∃ j < k, Left a b j (body s) := by
  have hpos : s.b.toNat ≠ 0 := fun hz => of_decide_eq_true hb (BitVec.eq_of_toNat_eq hz)
  have hbits := h.bits
  cases k with
  | zero => omega
  | succ k =>
    refine ⟨k, Nat.lt_succ_self k, (body_sum s).trans h.sum, ?_⟩
    show (s.b >>> 1).toNat < 2 ^ k
    rw [BitVec.toNat_ushiftRight, Nat.shiftRight_eq_div_pow]
    omega

end Mulsi3

theorem mulsi3_eq {fuel : ℕ} (hfuel : 32 < fuel) (a b : Word) :
    mulsi3 fuel a b = some (a * b) := by
  have hinit : Mulsi3.Left a b 32 ⟨0, a, b⟩ := ⟨BitVec.zero_add _, b.isLt⟩
  obtain ⟨s, hloop, ⟨k, hleft⟩, hexit⟩ :=
    Lib.whileLoop_total (fun _ _ h hb => Mulsi3.Left.body h hb) hinit hfuel
  have hzero : s.b = 0 := not_not.mp (of_decide_eq_false hexit)
  have hsum := hleft.sum
  rw [hzero, mul_zero, add_zero] at hsum
  rw [mulsi3, hloop, Option.map_some, hsum]

/-! ### Limbs -/

section Limbs

variable (x : Word)

theorem toNat_limb : (x &&& ~~~(0 : Word) >>> 16).toNat = x.toNat % 2 ^ 16 :=
  Lib.toNat_and_mask (by decide)

theorem toNat_upperLimb : (x >>> 16).toNat = x.toNat / 2 ^ 16 := by
  rw [BitVec.toNat_ushiftRight, Nat.shiftRight_eq_div_pow]

theorem toNat_raised : (x <<< 16).toNat = x.toNat * 2 ^ 16 % 2 ^ 32 := by
  rw [BitVec.toNat_shiftLeft, Nat.shiftLeft_eq]

end Limbs

/-- A product by its limbs. -/
theorem limbs_mul (a b : ℕ) :
    a * b = a % 2 ^ 16 * (b % 2 ^ 16) + 2 ^ 16 * (a / 2 ^ 16 * (b % 2 ^ 16)) +
      2 ^ 16 * (b / 2 ^ 16 * (a % 2 ^ 16)) + 2 ^ 32 * (a / 2 ^ 16 * (b / 2 ^ 16)) := by
  conv_lhs => rw [← Nat.div_add_mod a (2 ^ 16), ← Nat.div_add_mod b (2 ^ 16)]
  ring

theorem limb_mul_le {m n : ℕ} (hm : m < 2 ^ 16) (hn : n < 2 ^ 16) :
    m * n ≤ (2 ^ 16 - 1) * (2 ^ 16 - 1) :=
  Nat.mul_le_mul (Nat.le_pred_of_lt hm) (Nat.le_pred_of_lt hn)

/-- The product is exact: no sum of a product of limbs and two carries overflows. -/
theorem toNat_muldsi3 (a b : Word) : (muldsi3 a b).toNat = a.toNat * b.toNat := by
  have ha := a.isLt
  have hb := b.isLt
  have hal : a.toNat % 2 ^ 16 < 2 ^ 16 := Nat.mod_lt _ (by decide)
  have hah : a.toNat / 2 ^ 16 < 2 ^ 16 := by omega
  have hbl : b.toNat % 2 ^ 16 < 2 ^ 16 := Nat.mod_lt _ (by decide)
  have hbh : b.toNat / 2 ^ 16 < 2 ^ 16 := by omega
  have hll := limb_mul_le hal hbl
  have hhl := limb_mul_le hah hbl
  have hlh := limb_mul_le hbh hal
  have hhh := limb_mul_le hah hbh
  -- with the four products as unknowns the carries are linear
  rw [limbs_mul]
  simp only [muldsi3, Dwords.toNat_all, BitVec.toNat_add, BitVec.toNat_mul, toNat_limb,
    toNat_upperLimb, toNat_raised]
  generalize a.toNat % 2 ^ 16 * (b.toNat % 2 ^ 16) = ll at *
  generalize a.toNat / 2 ^ 16 * (b.toNat % 2 ^ 16) = hl at *
  generalize b.toNat / 2 ^ 16 * (a.toNat % 2 ^ 16) = lh at *
  generalize a.toNat / 2 ^ 16 * (b.toNat / 2 ^ 16) = hh at *
  clear ha hb hal hah hbl hbh
  omega

/-- The halves of a product modulo `2 ^ 64`. -/
theorem halves_mul (x y : ℕ) :
    x * y % 2 ^ 64 =
      ((x % 2 ^ 32 * (y % 2 ^ 32)) / 2 ^ 32 + (x / 2 ^ 32 * (y % 2 ^ 32) +
        x % 2 ^ 32 * (y / 2 ^ 32))) % 2 ^ 32 * 2 ^ 32 +
      (x % 2 ^ 32 * (y % 2 ^ 32)) % 2 ^ 32 := by
  have hsplit : x * y = x % 2 ^ 32 * (y % 2 ^ 32) + 2 ^ 32 * (x / 2 ^ 32 * (y % 2 ^ 32)) +
      2 ^ 32 * (x % 2 ^ 32 * (y / 2 ^ 32)) + 2 ^ 64 * (x / 2 ^ 32 * (y / 2 ^ 32)) := by
    conv_lhs => rw [← Nat.div_add_mod x (2 ^ 32), ← Nat.div_add_mod y (2 ^ 32)]
    ring
  rw [hsplit]
  generalize x % 2 ^ 32 * (y % 2 ^ 32) = ll
  generalize x / 2 ^ 32 * (y % 2 ^ 32) = hl
  generalize x % 2 ^ 32 * (y / 2 ^ 32) = lh
  generalize x / 2 ^ 32 * (y / 2 ^ 32) = hh
  omega

theorem muldi3_eq {fuel : ℕ} (hfuel : 32 < fuel) (a b : BitVec 64) :
    muldi3 fuel a b = some (a * b) := by
  simp only [muldi3, mulsi3_eq hfuel, Option.bind_eq_bind, Option.bind_some, Option.some.injEq,
    Option.pure_def]
  apply BitVec.eq_of_toNat_eq
  rw [Dwords.toNat_all, BitVec.toNat_mul a b, halves_mul]
  simp only [BitVec.toNat_add, BitVec.toNat_mul, Dwords.toNat_low, Dwords.toNat_high,
    toNat_muldsi3]
  omega

/-! ## Shifts -/

/-- `x << b`. -/
def shl (x b : Word) : Word := x <<< (b.toNat % 32)

/-- `x >> b` of an unsigned `x`. -/
def shr (x b : Word) : Word := x >>> (b.toNat % 32)

/-- `x >> b` of a signed `x`. -/
def sar (x b : Word) : Word := x.sshiftRight (b.toNat % 32)

/-- `__ashldi3`. -/
def ashldi3 (u : BitVec 64) (b : Word) : BitVec 64 :=
  if b = 0 then u else
  let uu := Dwords.ofAll u
  let bm := 32 - b
  -- `bm` is unsigned, so of the amounts from 32 on only 32 itself is taken here
  if bm ≤ 0 then
    Dwords.all { low := 0, high := shl uu.low (-bm) }
  else
    let carries := shr uu.low bm
    Dwords.all { low := shl uu.low b, high := shl uu.high b ||| carries }

/-- `__ashrdi3`. -/
def ashrdi3 (u : BitVec 64) (b : Word) : BitVec 64 :=
  if b = 0 then u else
  let uu := Dwords.ofAll u
  let bm := 32 - b
  if bm ≤ 0 then
    -- from the lower half, where `__lshrdi3` takes the upper one
    Dwords.all { high := sar uu.high 31, low := shr uu.low (-bm) }
  else
    let carries := shl uu.high bm
    Dwords.all { high := sar uu.high b, low := shr uu.low b ||| carries }

/-- `__lshrdi3`. -/
def lshrdi3 (u : BitVec 64) (b : Word) : BitVec 64 :=
  if b = 0 then u else
  let uu := Dwords.ofAll u
  let bm := 32 - b
  if bm ≤ 0 then
    Dwords.all { high := 0, low := shr uu.high (-bm) }
  else
    let carries := shl uu.high bm
    Dwords.all { high := shr uu.high b, low := shr uu.low b ||| carries }

/-! ### The halves of a shifted value -/

namespace Dwords

variable {u v : BitVec 64} {d : Dwords} {n i : ℕ}

theorem getLsbD_low (h : i < 32) : (ofAll u).low.getLsbD i = u.getLsbD i := by
  rw [ofAll, BitVec.getLsbD_extractLsb', decide_eq_true h, Bool.true_and, Nat.zero_add]

theorem getLsbD_high : (ofAll u).high.getLsbD i = u.getLsbD (32 + i) := by
  rw [ofAll, BitVec.getLsbD_extractLsb']
  rcases Nat.lt_or_ge i 32 with h | h
  · rw [decide_eq_true h, Bool.true_and]
  · rw [decide_eq_false (Nat.not_lt_of_le h), Bool.false_and,
      BitVec.getLsbD_of_ge _ _ (Nat.add_le_add_left h 32)]

/-- The halves of a value are those with its bits. -/
theorem all_eq (hlow : ∀ i < 32, d.low.getLsbD i = v.getLsbD i)
    (hhigh : ∀ i < 32, d.high.getLsbD i = v.getLsbD (32 + i)) : d.all = v := by
  apply BitVec.eq_of_getLsbD_eq
  intro i hi
  rw [all, BitVec.getLsbD_append]
  split
  · next h => exact hlow i h
  · next h =>
    have hbit := hhigh (i - 32) (by omega)
    rwa [Nat.add_sub_cancel' (Nat.le_of_not_lt h)] at hbit

/-- The bits carried from the upper half into the lower one. -/
theorem carry_down (hn : n < 32) (hi : i < 32) :
    ((ofAll u).low >>> n ||| (ofAll u).high <<< (32 - n)).getLsbD i = u.getLsbD (n + i) := by
  rw [BitVec.getLsbD_or, BitVec.getLsbD_ushiftRight, BitVec.getLsbD_shiftLeft, getLsbD_high]
  rcases Nat.lt_or_ge (n + i) 32 with h | h
  · have hbelow : i < 32 - n := by omega
    rw [getLsbD_low h]
    simp [hbelow]
  · have hcarried : ¬i < 32 - n := by omega
    have hindex : 32 + (i - (32 - n)) = n + i := by omega
    rw [BitVec.getLsbD_of_ge _ _ h, hindex]
    simp [hcarried, hi]

/-- The bits carried from the lower half into the upper one. -/
theorem carry_up (hn : n < 32) (hi : i < 32) :
    ((ofAll u).high <<< n ||| (ofAll u).low >>> (32 - n)).getLsbD i =
      (u <<< n).getLsbD (32 + i) := by
  have hin : 32 + i < 64 := by omega
  have hout : ¬32 + i < n := by omega
  rw [BitVec.getLsbD_or, BitVec.getLsbD_ushiftRight, BitVec.getLsbD_shiftLeft,
    BitVec.getLsbD_shiftLeft, getLsbD_high]
  rcases Nat.lt_or_ge i n with h | h
  · have hindex : 32 - n + i = 32 + i - n := by omega
    rw [getLsbD_low (by omega), hindex]
    simp [h, hin, hout]
  · have hindex : 32 + (i - n) = 32 + i - n := by omega
    rw [BitVec.getLsbD_of_ge _ (32 - n + i) (by omega), hindex]
    simp [Nat.not_lt_of_le h, hi, hin, hout]

theorem all_shl (hn : n < 32) :
    all { low := (ofAll u).low <<< n
          high := (ofAll u).high <<< n ||| (ofAll u).low >>> (32 - n) } = u <<< n := by
  refine all_eq (fun i hi => ?_) (fun i hi => carry_up hn hi)
  rw [BitVec.getLsbD_shiftLeft, BitVec.getLsbD_shiftLeft]
  rcases Nat.lt_or_ge i n with h | h
  · simp [h]
  · rw [getLsbD_low (by omega), decide_eq_true hi, decide_eq_true (show i < 64 by omega)]

theorem all_shr (hn : n < 32) :
    all { high := (ofAll u).high >>> n
          low := (ofAll u).low >>> n ||| (ofAll u).high <<< (32 - n) } = u >>> n := by
  refine all_eq (fun i hi => ?_) (fun i hi => ?_)
  · rw [BitVec.getLsbD_ushiftRight]
    exact carry_down hn hi
  · rw [BitVec.getLsbD_ushiftRight, BitVec.getLsbD_ushiftRight, getLsbD_high, Nat.add_left_comm]

theorem msb_high : (ofAll u).high.msb = u.msb := by
  rw [BitVec.msb_eq_getLsbD_last, BitVec.msb_eq_getLsbD_last, getLsbD_high]

theorem all_sar (hn : n < 32) :
    all { high := (ofAll u).high.sshiftRight n
          low := (ofAll u).low >>> n ||| (ofAll u).high <<< (32 - n) } = u.sshiftRight n := by
  refine all_eq (fun i hi => ?_) (fun i hi => ?_)
  · have hin : n + i < 64 := by omega
    rw [carry_down hn hi, BitVec.getLsbD_sshiftRight, if_pos hin,
      decide_eq_false (show ¬64 ≤ i by omega), Bool.not_false, Bool.true_and]
  · rw [BitVec.getLsbD_sshiftRight, BitVec.getLsbD_sshiftRight, getLsbD_high, msb_high,
      decide_eq_false (show ¬32 ≤ i by omega), decide_eq_false (show ¬64 ≤ 32 + i by omega),
      Nat.add_left_comm]
    -- both end at the same bit
    split
    · next h => rw [if_pos (by omega)]
    · next h => rw [if_neg (by omega)]

end Dwords

/-! ### The shifts -/

section Amounts

variable {b : Word} (hb : b.toNat % 32 ≠ 0)
include hb

theorem amount_ne_zero : b ≠ 0 := fun h => hb (by rw [h]; rfl)

theorem toNat_sub_amount : (32 - b).toNat % 32 = 32 - b.toNat % 32 := by
  have hlt := b.isLt
  have h32 : (32 : Word).toNat = 32 := rfl
  rw [BitVec.toNat_sub, h32]
  omega

theorem sub_amount_pos : ¬32 - b ≤ 0 := by
  have hrest := toNat_sub_amount hb
  intro hle
  have hzero : (32 - b).toNat = 0 := Nat.le_zero.mp (BitVec.le_def.mp hle)
  omega

variable (u : BitVec 64)

/-- An amount that is no multiple of 32 counts modulo 32. -/
theorem ashldi3_eq : ashldi3 u b = u <<< (b.toNat % 32) := by
  rw [ashldi3, if_neg (amount_ne_zero hb), if_neg (sub_amount_pos hb), shl, shl, shr,
    toNat_sub_amount hb]
  exact Dwords.all_shl (Nat.mod_lt _ (by decide))

theorem ashrdi3_eq : ashrdi3 u b = u.sshiftRight (b.toNat % 32) := by
  rw [ashrdi3, if_neg (amount_ne_zero hb), if_neg (sub_amount_pos hb), shl, shr, sar,
    toNat_sub_amount hb]
  exact Dwords.all_sar (Nat.mod_lt _ (by decide))

theorem lshrdi3_eq : lshrdi3 u b = u >>> (b.toNat % 32) := by
  rw [lshrdi3, if_neg (amount_ne_zero hb), if_neg (sub_amount_pos hb), shl, shr, shr,
    toNat_sub_amount hb]
  exact Dwords.all_shr (Nat.mod_lt _ (by decide))

end Amounts

section Boundary

variable (u : BitVec 64)

theorem ashldi3_32 : ashldi3 u 32 = u <<< 32 := by
  have hcode : ashldi3 u 32 = Dwords.all { low := 0, high := (Dwords.ofAll u).low <<< 0 } := rfl
  rw [hcode, BitVec.shiftLeft_zero]
  refine Dwords.all_eq (fun i hi => ?_) (fun i hi => ?_)
  · simp [hi]
  · have hindex : 32 + i - 32 = i := by omega
    have hin : 32 + i < 64 := by omega
    rw [Dwords.getLsbD_low hi, BitVec.getLsbD_shiftLeft, hindex]
    simp [hin]

/-- `w.s.low = uu.s.low >> -bm`: the lower half stays. -/
theorem ashrdi3_32 : ashrdi3 u 32 =
    Dwords.all { high := (Dwords.ofAll u).high.sshiftRight 31, low := (Dwords.ofAll u).low } := by
  have hcode : ashrdi3 u 32 = Dwords.all
      { high := (Dwords.ofAll u).high.sshiftRight 31, low := (Dwords.ofAll u).low >>> 0 } := rfl
  rw [hcode, BitVec.ushiftRight_zero]

theorem lshrdi3_32 : lshrdi3 u 32 = u >>> 32 := by
  have hcode : lshrdi3 u 32 = Dwords.all { high := 0, low := (Dwords.ofAll u).high >>> 0 } := rfl
  rw [hcode, BitVec.ushiftRight_zero]
  refine Dwords.all_eq (fun i hi => ?_) (fun i hi => ?_)
  · rw [Dwords.getLsbD_high, BitVec.getLsbD_ushiftRight]
  · have hout : 64 ≤ 32 + (32 + i) := by omega
    simp [hout]

end Boundary

end HfRisc.Soft
