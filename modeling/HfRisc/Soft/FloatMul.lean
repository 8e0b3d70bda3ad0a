import HfRisc.Soft.FloatMacros

/-!
# Multiplication (`libc.c`)

The significands are cut in two. The product of the upper parts and the upper bits of the two mixed
products make up a word, and the product of the lower parts is left out. The word is brought to one
of two lengths and rounded, and it may carry where it was the shorter one.
-/

namespace HfRisc.Soft

open HfRisc.Lib (Format Near)

variable {w : ℕ}

/-! ## The functions -/

/-- The constants of a multiplication. -/
structure Multiplier (w : ℕ) where
  /-- `>>` of the type of the significands. -/
  shr : BitVec w → ℕ → BitVec w
  split : ℕ
  low : BitVec w
  bit : BitVec w
  roundHigh : BitVec w
  dropHigh : ℕ
  roundLow : BitVec w
  dropLow : ℕ

/-- The three products. -/
def Multiplier.sum (P : Multiplier w) (fl1 fl2 : BitVec w) : BitVec w :=
  let result := P.shr fl1 P.split * P.shr fl2 P.split
  let result := result + P.shr ((fl1 &&& P.low) * P.shr fl2 P.split) P.split
  result + P.shr ((fl2 &&& P.low) * P.shr fl1 P.split) P.split

/-- From the exponents to the packed product. -/
def multiply (M : Macros w) (P : Multiplier w) (a1 a2 : BitVec w) : BitVec w :=
  let sign := M.sign a1 ^^^ M.sign a2
  let exp := M.exp a1 - M.excess + M.exp a2
  let result := P.sum (M.mant a1) (M.mant a2) >>> 2
  let high := result &&& P.bit ≠ 0
  let exp := if high then exp else exp - 1
  let result :=
    if high then (result + P.roundHigh) >>> P.dropHigh else (result + P.roundLow) >>> P.dropLow
  -- the carry of the rounding
  let carry := result &&& (M.hidden <<< 1) ≠ 0
  let exp := if carry then exp + 1 else exp
  let result := if carry then result >>> 1 else result
  M.pack sign exp (result &&& ~~~M.hidden)

def multiplier32 : Multiplier 32 where
  shr := BitVec.sshiftRight
  split := 8
  low := 0xFF
  bit := 0x20000000
  roundHigh := 0x20
  dropHigh := 6
  roundLow := 0x10
  dropLow := 5

def multiplier64 : Multiplier 64 where
  shr x n := x >>> n
  split := 21
  low := 0x1FFFFF
  bit := (1 : BitVec 64) <<< 61
  roundHigh := (1 : BitVec 64) <<< 8
  dropHigh := 9
  roundLow := (1 : BitVec 64) <<< 7
  dropLow := 8

/-- `__mulsf3`. -/
def mulsf3 (a1 a2 : Word) : Word :=
  if a1 = 0 ∨ a2 = 0 then 0 else multiply single multiplier32 a1 a2

/-- `__muldf3`. -/
def muldf3 (a1 a2 : BitVec 64) : BitVec 64 :=
  if a1 = 0 ∨ a2 = 0 then 0 else multiply double multiplier64 a1 a2

/-! ## The constants -/

/-- The constants are those of significands with `f + 1` bits: the products fill a word, and `d`
bits are dropped from the longer of its two lengths. -/
structure Multiplier.Lawful (P : Multiplier w) (f : ℕ) : Prop where
  split_eq : 2 * (f + 1) = w + 2 * P.split
  drop_eq : f + P.dropHigh + 3 = w
  drop_le : 3 ≤ P.dropHigh
  shr_eq : ∀ x n, 2 * x.toNat < 2 ^ w → (P.shr x n).toNat = x.toNat / 2 ^ n
  low_eq : P.low.toNat = 2 ^ P.split - 1
  bit_iff : ∀ x : BitVec w, x.toNat < 2 ^ (w - 2) →
    (x &&& P.bit = 0 ↔ x.toNat < 2 ^ (w - 3))
  dropLow_eq : P.dropLow + 1 = P.dropHigh
  roundHigh_eq : P.roundHigh.toNat = 2 ^ (P.dropHigh - 1)
  roundLow_eq : P.roundLow.toNat = 2 ^ (P.dropHigh - 2)

theorem multiplier32_lawful : multiplier32.Lawful binary32.fracBits where
  split_eq := rfl
  drop_eq := rfl
  drop_le := by decide
  shr_eq _ _ hx := Lib.toNat_sshiftRight hx
  low_eq := rfl
  bit_iff x hx := by
    have hbit : multiplier32.bit = BitVec.twoPow 32 29 := by decide
    rw [hbit]
    exact Lib.and_twoPow_of_lt (by decide) hx
  dropLow_eq := rfl
  roundHigh_eq := rfl
  roundLow_eq := rfl

theorem multiplier64_lawful : multiplier64.Lawful binary64.fracBits where
  split_eq := rfl
  drop_eq := rfl
  drop_le := by decide
  shr_eq x n _ := by
    show (x >>> n).toNat = _
    rw [BitVec.toNat_ushiftRight, Nat.shiftRight_eq_div_pow]
  low_eq := rfl
  bit_iff x hx := by
    have hbit : multiplier64.bit = BitVec.twoPow 64 61 := by decide
    rw [hbit]
    exact Lib.and_twoPow_of_lt (by decide) hx
  dropLow_eq := rfl
  roundHigh_eq := rfl
  roundLow_eq := rfl

/-! ## The sum of the products -/

/-- The sum as a number: the lowest product is left out, and two are cut off. -/
def partialProduct (s m n : ℕ) : ℕ :=
  m / 2 ^ s * (n / 2 ^ s) + m % 2 ^ s * (n / 2 ^ s) / 2 ^ s + n % 2 ^ s * (m / 2 ^ s) / 2 ^ s

/-- It is short of the product by less than 3. -/
theorem partialProduct_bounds (s m n : ℕ) : partialProduct s m n * 2 ^ (2 * s) ≤ m * n ∧
    m * n < (partialProduct s m n + 3) * 2 ^ (2 * s) := by
  have hsq : 2 ^ (2 * s) = 2 ^ s * 2 ^ s := by rw [Nat.two_mul, Nat.pow_add]
  have hm := Nat.div_add_mod m (2 ^ s)
  have hn := Nat.div_add_mod n (2 ^ s)
  have hpos := Nat.two_pow_pos s
  have hml : m % 2 ^ s < 2 ^ s := Nat.mod_lt _ hpos
  have hnl : n % 2 ^ s < 2 ^ s := Nat.mod_lt _ hpos
  have hx := Nat.div_add_mod (m % 2 ^ s * (n / 2 ^ s)) (2 ^ s)
  have hy := Nat.div_add_mod (n % 2 ^ s * (m / 2 ^ s)) (2 ^ s)
  have hxl : m % 2 ^ s * (n / 2 ^ s) % 2 ^ s < 2 ^ s := Nat.mod_lt _ hpos
  have hyl : n % 2 ^ s * (m / 2 ^ s) % 2 ^ s < 2 ^ s := Nat.mod_lt _ hpos
  rw [partialProduct, hsq]
  generalize m % 2 ^ s * (n / 2 ^ s) / 2 ^ s = x at *
  generalize n % 2 ^ s * (m / 2 ^ s) / 2 ^ s = y at *
  generalize m % 2 ^ s * (n / 2 ^ s) % 2 ^ s = p at *
  generalize n % 2 ^ s * (m / 2 ^ s) % 2 ^ s = q at *
  generalize m / 2 ^ s = hh at *
  generalize n / 2 ^ s = kk at *
  generalize m % 2 ^ s = l at *
  generalize n % 2 ^ s = k at *
  generalize 2 ^ s = S at *
  -- the product by the halves of its factors
  have hproduct : m * n = (hh * kk + x + y) * (S * S) + (p + q) * S + l * k := by
    have hcross : S * l * kk + S * k * hh = S * (S * x + p) + S * (S * y + q) := by
      rw [hx, hy]
      ring
    rw [← hm, ← hn]
    calc (S * hh + l) * (S * kk + k)
        = S * S * (hh * kk) + (S * l * kk + S * k * hh) + l * k := by ring
      _ = S * S * (hh * kk) + (S * (S * x + p) + S * (S * y + q)) + l * k := by rw [hcross]
      _ = (hh * kk + x + y) * (S * S) + (p + q) * S + l * k := by ring
  have hp : p * S ≤ S * S := Nat.mul_le_mul_right S hxl.le
  have hq : q * S ≤ S * S := Nat.mul_le_mul_right S hyl.le
  have hl : l * k < S * S := Nat.mul_lt_mul'' hml hnl
  rw [hproduct]
  constructor
  · rw [Nat.add_assoc ((hh * kk + x + y) * (S * S))]
    exact Nat.le_add_right _ _
  · have hthree : (hh * kk + x + y + 3) * (S * S) =
        (hh * kk + x + y) * (S * S) + S * S + S * S + S * S := by ring
    rw [hthree, Nat.add_mul p q]
    omega

section Sum

variable {P : Multiplier w} {f : ℕ} {a b : BitVec w}

/-- The sum stays in its word. -/
theorem partialProduct_lt (hP : P.Lawful f) {m n : ℕ} (hm : m < 2 ^ (f + 1))
    (hn : n < 2 ^ (f + 1)) : partialProduct P.split m n < 2 ^ w := by
  have hle := (partialProduct_bounds P.split m n).1
  have hlt : m * n < 2 ^ w * 2 ^ (2 * P.split) := by
    rw [← Nat.pow_add, ← hP.split_eq, Nat.two_mul, Nat.pow_add]
    exact Nat.mul_lt_mul'' hm hn
  exact Nat.lt_of_mul_lt_mul_right (hle.trans_lt hlt)

theorem toNat_sum (hP : P.Lawful f) (ha : a.toNat < 2 ^ (f + 1)) (hb : b.toNat < 2 ^ (f + 1)) :
    (P.sum a b).toNat = partialProduct P.split a.toNat b.toNat := by
  have hlt := partialProduct_lt hP ha hb
  have hword : 2 * 2 ^ (f + 1) ≤ 2 ^ w := by
    rw [← Nat.pow_succ']
    refine Nat.pow_le_pow_right (by decide) ?_
    have := hP.drop_eq
    omega
  have hhigh : ∀ x : BitVec w, x.toNat < 2 ^ (f + 1) →
      (P.shr x P.split).toNat = x.toNat / 2 ^ P.split := fun x hx => hP.shr_eq x _ (by omega)
  have hmixed : ∀ x y : BitVec w, x.toNat < 2 ^ (f + 1) → y.toNat < 2 ^ (f + 1) →
      (P.shr ((x &&& P.low) * P.shr y P.split) P.split).toNat =
        x.toNat % 2 ^ P.split * (y.toNat / 2 ^ P.split) / 2 ^ P.split := fun x y hx hy => by
    have hlow : (x &&& P.low).toNat = x.toNat % 2 ^ P.split := Lib.toNat_and_mask hP.low_eq
    have hsmall : x.toNat % 2 ^ P.split * (y.toNat / 2 ^ P.split) < 2 ^ (f + 1) := by
      refine Nat.lt_of_le_of_lt ?_ hy
      calc x.toNat % 2 ^ P.split * (y.toNat / 2 ^ P.split)
          ≤ 2 ^ P.split * (y.toNat / 2 ^ P.split) :=
            Nat.mul_le_mul_right _ (Nat.mod_lt _ (Nat.two_pow_pos _)).le
        _ ≤ y.toNat := Nat.mul_div_le _ _
    have hmul : ((x &&& P.low) * P.shr y P.split).toNat =
        x.toNat % 2 ^ P.split * (y.toNat / 2 ^ P.split) := by
      rw [BitVec.toNat_mul, hlow, hhigh y hy, Nat.mod_eq_of_lt (by omega)]
    rw [hP.shr_eq _ _ (by omega), hmul]
  rw [partialProduct] at *
  simp only [Multiplier.sum, BitVec.toNat_add, BitVec.toNat_mul, hhigh a ha, hhigh b hb,
    hmixed a b ha hb, hmixed b a hb ha]
  generalize a.toNat / 2 ^ P.split * (b.toNat / 2 ^ P.split) = u at *
  generalize a.toNat % 2 ^ P.split * (b.toNat / 2 ^ P.split) / 2 ^ P.split = v at *
  generalize b.toNat % 2 ^ P.split * (a.toNat / 2 ^ P.split) / 2 ^ P.split = t at *
  rw [Nat.mod_eq_of_lt (show u < 2 ^ w by omega), Nat.mod_eq_of_lt (show u + v < 2 ^ w by omega),
    Nat.mod_eq_of_lt hlt]

end Sum

/-! ## The packed product -/

/-- The rounding reaches the longer of the two lengths. -/
def Reaches (f d n : ℕ) : Prop := 2 ^ (f + d) ≤ n + 2 ^ (d - 2)

instance (f d n : ℕ) : Decidable (Reaches f d n) := inferInstanceAs (Decidable (_ ≤ _))

/-- The rounded bits of a product that is cut down to `n`. -/
def roundedProduct (f d n : ℕ) : ℕ :=
  if 2 ^ (f + d) ≤ n then (n + 2 ^ (d - 1)) / 2 ^ d
  else if Reaches f d n then 2 ^ f
  else (n + 2 ^ (d - 2)) / 2 ^ (d - 1)

/-- What is cut down has one of the two lengths, and the longer one is rounded without a carry. -/
structure CutProduct (f d n : ℕ) : Prop where
  low : 2 ^ (f + d - 1) ≤ n
  high : n + 2 ^ (d - 1) < 2 ^ (f + d + 1)

section Cut

variable {f d n : ℕ}

theorem two_pow_halves (hd : 3 ≤ d) : 2 ^ d = 2 * 2 ^ (d - 1) ∧ 2 ^ (d - 1) = 2 * 2 ^ (d - 2) := by
  obtain ⟨k, rfl⟩ := Nat.exists_eq_add_of_le hd
  have hone : 3 + k - 1 = k + 1 + 1 := by omega
  have htwo : 3 + k - 2 = k + 1 := by omega
  have hd : 3 + k = k + 1 + 1 + 1 := by omega
  rw [hone, htwo, hd, Nat.pow_succ' (n := k + 1 + 1), Nat.pow_succ' (n := k + 1)]
  exact ⟨rfl, rfl⟩

theorem reaches_of_le (h : 2 ^ (f + d) ≤ n) : Reaches f d n := Nat.le_add_right_of_le h

theorem CutProduct.rounded_high (h : CutProduct f d n) (hle : 2 ^ (f + d) ≤ n) :
    2 ^ f ≤ (n + 2 ^ (d - 1)) / 2 ^ d ∧ (n + 2 ^ (d - 1)) / 2 ^ d < 2 ^ (f + 1) := by
  constructor
  · rw [Nat.le_div_iff_mul_le (Nat.two_pow_pos d), ← Nat.pow_add]
    exact Nat.le_add_right_of_le hle
  · rw [Nat.div_lt_iff_lt_mul (Nat.two_pow_pos d), ← Nat.pow_add, Nat.add_right_comm]
    exact h.high

theorem CutProduct.rounded_low (hd : 3 ≤ d) (h : CutProduct f d n) (hlt : n < 2 ^ (f + d)) :
    2 ^ f ≤ (n + 2 ^ (d - 2)) / 2 ^ (d - 1) ∧ (n + 2 ^ (d - 2)) / 2 ^ (d - 1) ≤ 2 ^ (f + 1) ∧
      (Reaches f d n ↔ (n + 2 ^ (d - 2)) / 2 ^ (d - 1) = 2 ^ (f + 1)) := by
  have hpred : f + d - 1 = f + (d - 1) := by omega
  have hsum : f + d = f + 1 + (d - 1) := by omega
  have hpos := Nat.two_pow_pos (d - 1)
  have hlow := h.low
  have hle : (n + 2 ^ (d - 2)) / 2 ^ (d - 1) ≤ 2 ^ (f + 1) := by
    refine Nat.le_of_lt_succ ?_
    obtain ⟨-, hhalf⟩ := two_pow_halves hd
    rw [Nat.div_lt_iff_lt_mul hpos, Nat.succ_mul, ← Nat.pow_add, ← hsum]
    have := Nat.two_pow_pos (d - 2)
    omega
  refine ⟨?_, hle, ?_⟩
  · rw [Nat.le_div_iff_mul_le hpos, ← Nat.pow_add, ← hpred]
    exact Nat.le_add_right_of_le hlow
  · rw [Reaches, hsum, Nat.pow_add, ← Nat.le_div_iff_mul_le hpos]
    exact ⟨fun hge => Nat.le_antisymm hle hge, fun heq => heq.ge⟩

theorem CutProduct.rounded_bounds (hd : 3 ≤ d) (h : CutProduct f d n) :
    2 ^ f ≤ roundedProduct f d n ∧ roundedProduct f d n < 2 ^ (f + 1) := by
  rw [roundedProduct]
  split
  · exact h.rounded_high ‹_›
  · obtain ⟨hlow, hle, hiff⟩ := h.rounded_low hd (Nat.lt_of_not_le ‹_›)
    split
    · exact ⟨le_rfl, Nat.pow_lt_pow_right (by decide) (Nat.lt_succ_self f)⟩
    · exact ⟨hlow, lt_of_le_of_ne hle fun heq => absurd (hiff.mpr heq) ‹_›⟩

end Cut

section Multiply

variable {M : Macros w} {P : Multiplier w} {F : Format}

/-- The bits of the product of two significands that are left to be rounded. -/
def cutProduct (P : Multiplier w) (F : Format) (a b : BitVec w) : ℕ :=
  partialProduct P.split (F.significand a) (F.significand b) / 4

/-- The exponent of the product. -/
def productExponent (P : Multiplier w) (F : Format) (a b : BitVec w) : ℤ :=
  F.exponent a + F.exponent b - F.bias +
    if Reaches F.fracBits P.dropHigh (cutProduct P F a b) then 1 else 0

theorem cutProduct_bounds (hP : P.Lawful F.fracBits) (a b : BitVec w) :
    CutProduct F.fracBits P.dropHigh (cutProduct P F a b) := by
  obtain ⟨ha, ha'⟩ := Format.significand_bounds (F := F) (x := a)
  obtain ⟨hb, hb'⟩ := Format.significand_bounds (F := F) (x := b)
  have hsplit := hP.split_eq
  have hdrop := hP.drop_eq
  have hd := hP.drop_le
  have hfrac : F.fracBits = P.dropHigh + 1 + 2 * P.split := by omega
  have hfour : ∀ k : ℕ, 2 ^ k * 4 = 2 ^ (k + 2) := fun k => (Nat.pow_add 2 k 2).symm
  constructor
  · -- the product of the upper parts
    have hupper : ∀ m, 2 ^ F.fracBits ≤ m → 2 ^ (F.fracBits - P.split) ≤ m / 2 ^ P.split :=
      fun m hm => by
        rw [Nat.le_div_iff_mul_le (Nat.two_pow_pos _), ← Nat.pow_add,
          Nat.sub_add_cancel (by omega)]
        exact hm
    rw [cutProduct, Nat.le_div_iff_mul_le (by decide), hfour, partialProduct, Nat.add_assoc]
    calc 2 ^ (F.fracBits + P.dropHigh - 1 + 2)
        = 2 ^ (F.fracBits - P.split) * 2 ^ (F.fracBits - P.split) := by
          rw [← Nat.pow_add]
          congr 1
          omega
      _ ≤ F.significand a / 2 ^ P.split * (F.significand b / 2 ^ P.split) :=
          Nat.mul_le_mul (hupper _ ha) (hupper _ hb)
      _ ≤ _ := Nat.le_add_right _ _
  · have hle := (partialProduct_bounds P.split (F.significand a) (F.significand b)).1
    set T := partialProduct P.split (F.significand a) (F.significand b) with hT
    -- the largest significands fall short of the length by more than is added
    have hlarge : F.significand a * F.significand b + 2 ^ (P.dropHigh + 2) * 2 ^ (2 * P.split) <
        2 ^ (F.fracBits + P.dropHigh + 3) * 2 ^ (2 * P.split) := by
      have hgap : 2 ^ (P.dropHigh + 2) * 2 ^ (2 * P.split) = 2 ^ (F.fracBits + 1) := by
        rw [← Nat.pow_add]
        congr 1
        omega
      have hword : 2 ^ (F.fracBits + P.dropHigh + 3) * 2 ^ (2 * P.split) =
          2 ^ (F.fracBits + 1) * 2 ^ (F.fracBits + 1) := by
        rw [← Nat.pow_add, ← Nat.pow_add]
        congr 1
        omega
      rw [hgap, hword]
      calc F.significand a * F.significand b + 2 ^ (F.fracBits + 1)
          < 2 ^ (F.fracBits + 1) * F.significand b + 2 ^ (F.fracBits + 1) :=
            Nat.add_lt_add_right (Nat.mul_lt_mul_of_pos_right ha' (by omega)) _
        _ = 2 ^ (F.fracBits + 1) * (F.significand b + 1) := by ring
        _ ≤ 2 ^ (F.fracBits + 1) * 2 ^ (F.fracBits + 1) := Nat.mul_le_mul_left _ hb'
    have hsum : T + 2 ^ (P.dropHigh + 2) < 2 ^ (F.fracBits + P.dropHigh + 3) := by
      refine Nat.lt_of_mul_lt_mul_right (a := 2 ^ (2 * P.split)) ?_
      rw [Nat.add_mul]
      omega
    have hhalf : 2 ^ (P.dropHigh + 2) = 4 * (2 * 2 ^ (P.dropHigh - 1)) := by
      rw [← (two_pow_halves hd).1, Nat.pow_add]
      omega
    have hquarter : 2 ^ (F.fracBits + P.dropHigh + 3) =
        4 * 2 ^ (F.fracBits + P.dropHigh + 1) := by
      rw [Nat.pow_add 2 _ 3, Nat.pow_succ]
      omega
    rw [cutProduct, ← hT]
    omega

/-- The test for a carry out of a significand. -/
theorem Macros.Lawful.and_carry (hM : M.Lawful F) {x : BitVec w}
    (hx : x.toNat < 2 ^ (F.fracBits + 2)) :
    x &&& M.hidden <<< 1 = 0 ↔ x.toNat < 2 ^ (F.fracBits + 1) := by
  have hwidth := hM.width
  have hbit : M.hidden <<< 1 = BitVec.twoPow w (F.fracBits + 1) := by
    apply BitVec.eq_of_toNat_eq
    have hlt : 2 ^ (F.fracBits + 1) < 2 ^ w := Nat.pow_lt_pow_right (by decide) (by omega)
    rw [BitVec.toNat_twoPow_of_lt (by omega), BitVec.toNat_shiftLeft, Nat.shiftLeft_eq,
      hM.hidden_eq, ← Nat.pow_add, Nat.mod_eq_of_lt hlt]
  rw [hbit]
  exact Lib.and_twoPow_of_lt (by omega) hx

/-- Rounding a word that has one of the two lengths. -/
theorem toNat_round (hP : P.Lawful F.fracBits) {r : BitVec w}
    (h : CutProduct F.fracBits P.dropHigh r.toNat) :
    ((r + P.roundHigh) >>> P.dropHigh).toNat =
        (r.toNat + 2 ^ (P.dropHigh - 1)) / 2 ^ P.dropHigh ∧
      ((r + P.roundLow) >>> P.dropLow).toNat =
        (r.toNat + 2 ^ (P.dropHigh - 2)) / 2 ^ (P.dropHigh - 1) := by
  have hhigh := h.high
  have hlow := hP.dropLow_eq
  obtain ⟨-, hquarter⟩ := two_pow_halves hP.drop_le
  have hw : 2 ^ (F.fracBits + P.dropHigh + 1) ≤ 2 ^ w :=
    Nat.pow_le_pow_right (by decide) (by have := hP.drop_eq; omega)
  have hdrop : P.dropLow = P.dropHigh - 1 := by omega
  rw [BitVec.toNat_ushiftRight, BitVec.toNat_ushiftRight, Nat.shiftRight_eq_div_pow,
    Nat.shiftRight_eq_div_pow, BitVec.toNat_add, BitVec.toNat_add, hP.roundHigh_eq,
    hP.roundLow_eq, hdrop, Nat.mod_eq_of_lt, Nat.mod_eq_of_lt]
  · exact ⟨rfl, rfl⟩
  · omega
  · omega

/-- What is left of the sum. -/
theorem toNat_cut (hM : M.Lawful F) (hP : P.Lawful F.fracBits) (a b : BitVec w) :
    (P.sum (M.mant a) (M.mant b) >>> 2).toNat = cutProduct P F a b := by
  have hlt : ∀ x : BitVec w, (M.mant x).toNat < 2 ^ (F.fracBits + 1) := fun x => by
    rw [hM.mant_eq]
    exact Format.significand_bounds.2
  rw [BitVec.toNat_ushiftRight, Nat.shiftRight_eq_div_pow, toNat_sum hP (hlt a) (hlt b), hM.mant_eq,
    hM.mant_eq]
  rfl

/-- The test for the longer one of the two lengths. -/
theorem bit_clear_iff (hP : P.Lawful F.fracBits) {r : BitVec w}
    (h : CutProduct F.fracBits P.dropHigh r.toNat) :
    r &&& P.bit = 0 ↔ r.toNat < 2 ^ (F.fracBits + P.dropHigh) := by
  have hdrop := hP.drop_eq
  have hplace : w - 3 = F.fracBits + P.dropHigh := by omega
  have hplace' : w - 2 = F.fracBits + P.dropHigh + 1 := by omega
  rw [← hplace]
  refine hP.bit_iff r ?_
  rw [hplace']
  exact Nat.lt_of_le_of_lt (Nat.le_add_right _ _) h.high

/-- The cut product is rounded and packed. -/
theorem multiply_eq (hM : M.Lawful F) (hP : P.Lawful F.fracBits) (a b : BitVec w) :
    ∃ m : BitVec w, multiply M P a b =
        M.pack (signOf (a.msb ^^ b.msb)) (productExponent P F a b) m ∧
      2 ^ F.fracBits + m.toNat = roundedProduct F.fracBits P.dropHigh (cutProduct P F a b) := by
  have hcut := cutProduct_bounds hP a b
  obtain ⟨hround, hround'⟩ := hcut.rounded_bounds hP.drop_le
  have hexcess := hM.excess_eq
  have hnat := toNat_cut hM hP a b
  obtain ⟨r, hr⟩ : ∃ r, P.sum (M.mant a) (M.mant b) >>> 2 = r := ⟨_, rfl⟩
  rw [hr] at hnat
  rw [productExponent]
  rw [← hnat] at hcut hround hround' ⊢
  have hbit := bit_clear_iff hP hcut
  obtain ⟨hhigh, hlow⟩ := toNat_round hP hcut
  simp only [multiply, hr, hM.sign_eq, signOf_xor, hM.exp_eq]
  by_cases hlong : 2 ^ (F.fracBits + P.dropHigh) ≤ r.toNat
  · -- the longer product: rounding it gives no carry
    obtain ⟨hfirst, hlast⟩ := hcut.rounded_high hlong
    have hne : r &&& P.bit ≠ 0 := fun h => absurd (hbit.mp h) (Nat.not_lt_of_le hlong)
    have hcarry : ¬(r + P.roundHigh) >>> P.dropHigh &&& M.hidden <<< 1 ≠ 0 := by
      rw [not_not]
      exact (hM.and_carry (by rw [hhigh, Nat.pow_succ]; omega)).mpr (by rw [hhigh]; exact hlast)
    refine ⟨(r + P.roundHigh) >>> P.dropHigh &&& ~~~M.hidden, ?_, ?_⟩
    · rw [if_pos hne, if_pos hne, if_neg hcarry, if_neg hcarry, if_pos (reaches_of_le hlong)]
      congr 1
      omega
    · rw [hM.clear_hidden (by rw [hhigh]; exact hfirst) (by rw [hhigh]; exact hlast), hhigh,
        roundedProduct, if_pos hlong]
  · obtain ⟨hfirst, hlast, hreaches⟩ := hcut.rounded_low hP.drop_le (Nat.lt_of_not_le hlong)
    have hzero : ¬r &&& P.bit ≠ 0 := not_not.mpr (hbit.mpr (Nat.lt_of_not_le hlong))
    have hcarry : (r + P.roundLow) >>> P.dropLow &&& M.hidden <<< 1 ≠ 0 ↔
        Reaches F.fracBits P.dropHigh r.toNat := by
      rw [hreaches, ne_eq, not_iff_comm, eq_comm,
        hM.and_carry (by rw [hlow, Nat.pow_succ _ (F.fracBits + 1)]; omega), hlow]
      omega
    by_cases hover : Reaches F.fracBits P.dropHigh r.toNat
    · -- the carry leaves the implicit bit alone
      have hhalf : ((r + P.roundLow) >>> P.dropLow >>> 1).toNat = 2 ^ F.fracBits := by
        rw [BitVec.toNat_ushiftRight, hlow, hreaches.mp hover, Nat.shiftRight_eq_div_pow,
          Nat.pow_one, Nat.pow_succ, Nat.mul_div_cancel _ (by decide)]
      refine ⟨(r + P.roundLow) >>> P.dropLow >>> 1 &&& ~~~M.hidden, ?_, ?_⟩
      · rw [if_neg hzero, if_neg hzero, if_pos (hcarry.mpr hover), if_pos (hcarry.mpr hover),
          if_pos hover]
        congr 1
        omega
      · have hsmall : 2 ^ F.fracBits < 2 ^ (F.fracBits + 1) :=
          Nat.pow_lt_pow_right (by decide) (Nat.lt_succ_self _)
        rw [hM.clear_hidden hhalf.ge (by rw [hhalf]; exact hsmall), hhalf, roundedProduct,
          if_neg hlong, if_pos hover]
    · -- the shorter product stays below the carry
      have hless : (r.toNat + 2 ^ (P.dropHigh - 2)) / 2 ^ (P.dropHigh - 1) < 2 ^ (F.fracBits + 1) :=
        lt_of_le_of_ne hlast fun heq => hover (hreaches.mpr heq)
      refine ⟨(r + P.roundLow) >>> P.dropLow &&& ~~~M.hidden, ?_, ?_⟩
      · rw [if_neg hzero, if_neg hzero, if_neg fun h => hover (hcarry.mp h),
          if_neg fun h => hover (hcarry.mp h), if_neg hover]
        congr 1
        omega
      · rw [hM.clear_hidden (by rw [hlow]; exact hfirst) (by rw [hlow]; exact hless), hlow,
          roundedProduct, if_neg hlong, if_neg hover]

end Multiply

end HfRisc.Soft
