import HfRisc.Soft.Divide
import HfRisc.Soft.Int64

/-!
# Products, quotients and shifts of integers

The products and the unsigned quotients of `libc.c` are exact, and the signed ones of 32 bits are
those of C. Of the two signed functions on 64 bits `__moddi3` (910-928) gives the remainder the sign
of the quotient, so it is wrong wherever the divisor is negative and leaves a remainder.

In the shifts (801-869) `bm` is unsigned, so the branch for the amounts from 32 on is taken for 32
alone. The larger amounts count modulo 32, and a value only survives that where all its bits fall
out either way (for the arithmetic shift: where nothing but its sign is left). In that branch
`__ashrdi3` fills the lower half from itself instead of from the upper one.
-/

namespace HfRisc.Soft

variable {w : ℕ} {a b : BitVec w}

theorem sdiv_eq_ofInt (a b : BitVec w) : a.sdiv b = BitVec.ofInt w (a.toInt.tdiv b.toInt) := by
  apply BitVec.eq_of_toInt_eq
  rw [BitVec.toInt_sdiv, BitVec.toInt_ofInt]

theorem srem_eq_ofInt (a b : BitVec w) : a.srem b = BitVec.ofInt w (a.toInt.tmod b.toInt) := by
  rw [← BitVec.toInt_srem, BitVec.ofInt_toInt]

/-- The quotient and the remainder go together, also where the quotient wraps. -/
theorem sdiv_mul_add_srem (a b : BitVec w) : a.sdiv b * b + a.srem b = a := by
  have hb : b = BitVec.ofInt w b.toInt := BitVec.ofInt_toInt.symm
  rw [sdiv_eq_ofInt, srem_eq_ofInt]
  conv_lhs => lhs; rhs; rw [hb]
  rw [← BitVec.ofInt_mul, ← BitVec.ofInt_add, Int.tdiv_mul_add_tmod, BitVec.ofInt_toInt]

theorem natAbs_srem_lt (hb : b.toInt ≠ 0) : (a.srem b).toInt.natAbs < b.toInt.natAbs := by
  rw [BitVec.toInt_srem, Int.natAbs_tmod]
  exact Nat.mod_lt _ (Int.natAbs_pos.mpr hb)

/-- A remainder that is not 0 has the sign of what is divided. -/
theorem srem_sign (h : (a.srem b).toInt ≠ 0) : (a.srem b).toInt < 0 ↔ a.toInt < 0 := by
  rw [BitVec.toInt_srem] at *
  rcases Int.lt_or_le a.toInt 0 with hneg | hpos
  · have hle : 0 ≤ (-a.toInt).tmod b.toInt := Int.tmod_nonneg _ (by omega)
    rw [Int.neg_tmod] at hle
    omega
  · have hle : 0 ≤ a.toInt.tmod b.toInt := Int.tmod_nonneg _ hpos
    omega

/-- The remainder that changes its sign is still in range. -/
theorem toInt_neg_srem {a b : BitVec 64} (hb : b.toInt ≠ 0) :
    (-a.srem b).toInt = -(a.srem b).toInt := by
  refine BitVec.toInt_neg_of_ne_intMin fun hmin => ?_
  have hlt : (a.srem b).toInt.natAbs < b.toInt.natAbs := natAbs_srem_lt hb
  have hlow : -2 ^ 63 ≤ b.toInt := BitVec.le_toInt b
  have hhigh : b.toInt < 2 ^ 63 := BitVec.toInt_lt
  have hrem : (a.srem b).toInt = -2 ^ 63 := by rw [hmin]; decide
  omega

theorem toInt_eq_zero : b.toInt = 0 ↔ b = 0 :=
  ⟨fun h => BitVec.eq_of_toInt_eq (h.trans BitVec.toInt_zero.symm), fun h => h ▸ BitVec.toInt_zero⟩

end HfRisc.Soft

namespace HfRisc.Results

open HfRisc.Soft

/-! ## Products -/

/-- The three products, with the bound on the rounds of the loop in `__mulsi3`. -/
theorem products {fuel : ℕ} (hfuel : 32 < fuel) :
    (∀ a b : Word, mulsi3 fuel a b = some (a * b)) ∧
    (∀ a b : Word, (muldsi3 a b).toNat = a.toNat * b.toNat) ∧
    (∀ a b : BitVec 64, muldi3 fuel a b = some (a * b)) :=
  ⟨mulsi3_eq hfuel, toNat_muldsi3, muldi3_eq hfuel⟩

theorem products_33 :
    (∀ a b : Word, mulsi3 33 a b = some (a * b)) ∧
    (∀ a b : Word, (muldsi3 a b).toNat = a.toNat * b.toNat) ∧
    (∀ a b : BitVec 64, muldi3 33 a b = some (a * b)) :=
  products (by decide)

/-! ## Quotients and remainders of 32 bits -/

/-- The unsigned functions, and the signed ones as those of the integers modulo `2 ^ 32`. -/
theorem division32 {fuel : ℕ} (hfuel : 32 < fuel) (a b : Word) (hb : b ≠ 0) :
    udivsi3 fuel a b = some (a / b) ∧ umodsi3 fuel a b = some (a % b) ∧
    divsi3 fuel a b = some (BitVec.ofInt 32 (a.toInt.tdiv b.toInt)) ∧
    modsi3 fuel a b = some (BitVec.ofInt 32 (a.toInt.tmod b.toInt)) := by
  rw [← sdiv_eq_ofInt, ← srem_eq_ofInt]
  exact ⟨udivmodsi4_eq hfuel a hb 0, udivmodsi4_eq hfuel a hb 1, divsi3_eq hfuel a hb,
    modsi3_eq hfuel a hb⟩

/-- The most negative number by -1. -/
theorem division32_minus_one :
    udivsi3 33 0x80000000 0xFFFFFFFF = some 0 ∧
    umodsi3 33 0x80000000 0xFFFFFFFF = some 0x80000000 ∧
    divsi3 33 0x80000000 0xFFFFFFFF = some 0x80000000 ∧
    modsi3 33 0x80000000 0xFFFFFFFF = some 0 :=
  division32 (by decide) 0x80000000 0xFFFFFFFF (by decide)

/-! ## Quotients and remainders of 64 bits -/

/-- The quotient, and the remainder where there is a place for it. -/
theorem division64 {fuel : ℕ} (hfuel : 64 < fuel) (num den : BitVec 64) (hden : den ≠ 0)
    (rem : Option (BitVec 64)) (v : BitVec 64) :
    udivmoddi4 fuel num den rem = some (num / den, rem.map fun _ => num % den) ∧
    udivdi3 fuel num den = some (num / den) ∧ umoddi3 fuel v num den = some (num % den) :=
  ⟨udivmoddi4_eq hfuel num hden rem, udivdi3_eq hfuel num hden, umoddi3_eq hfuel num hden v⟩

/-- A divisor with its top bit set. -/
theorem division64_top :
    udivmoddi4 65 0xFFFFFFFFFFFFFFFF 0x8000000000000001 (some 0) =
      some (1, some 0x7FFFFFFFFFFFFFFE) ∧
    udivdi3 65 0xFFFFFFFFFFFFFFFF 0x8000000000000001 = some 1 ∧
    umoddi3 65 0 0xFFFFFFFFFFFFFFFF 0x8000000000000001 = some 0x7FFFFFFFFFFFFFFE :=
  division64 (by decide) 0xFFFFFFFFFFFFFFFF 0x8000000000000001 (by decide) (some 0) 0

/-- The signed functions agree: the quotient and the remainder make up what was divided, the
remainder is the smaller one, and it has the sign of what was divided. -/
def Coherent (fuel : ℕ) (v a b : BitVec 64) : Prop :=
  ∃ q r, divdi3 fuel a b = some q ∧ moddi3 fuel v a b = some r ∧ q * b + r = a ∧
    r.toInt.natAbs < b.toInt.natAbs ∧ (r ≠ 0 → (r.toInt < 0 ↔ a.toInt < 0))

theorem coherent_of_srem {fuel : ℕ} {v a b : BitVec 64} (hfuel : 64 < fuel) (hb : b ≠ 0)
    (h : moddi3 fuel v a b = some (a.srem b)) : Coherent fuel v a b :=
  ⟨a.sdiv b, a.srem b, divdi3_eq hfuel a hb, h, sdiv_mul_add_srem a b,
    natAbs_srem_lt fun h => hb (toInt_eq_zero.mp h),
    fun hne => srem_sign fun h => hne (toInt_eq_zero.mp h)⟩

/-- They agree unless a negative divisor leaves a remainder. -/
theorem signed_division64 {fuel : ℕ} (hfuel : 64 < fuel) (v a b : BitVec 64) (hb : b ≠ 0) :
    Coherent fuel v a b ↔ 0 < b.toInt ∨ b.toInt ∣ a.toInt := by
  have hne : b.toInt ≠ 0 := fun h => hb (toInt_eq_zero.mp h)
  have hmod := moddi3_eq hfuel a hb v
  have hzero : b.toInt ∣ a.toInt ↔ (a.srem b).toInt = 0 := by
    rw [Int.dvd_iff_tmod_eq_zero, BitVec.toInt_srem]
  constructor
  · rintro ⟨_, r, -, hr, -, -, hsign⟩
    rw [or_iff_not_imp_right, hzero]
    intro hrem
    by_contra hneg
    have hmsb : b.msb = true := BitVec.msb_eq_toInt.trans (decide_eq_true (by omega))
    rw [hmod, hmsb, if_pos rfl, Option.some.injEq] at hr
    have hflip := toInt_neg_srem (a := a) hne
    have hsame := srem_sign hrem
    rw [← hr, hflip] at hsign
    have hopposite := hsign fun h => hrem (toInt_eq_zero.mpr (neg_eq_zero.mp h))
    omega
  · intro h
    refine coherent_of_srem hfuel hb (hmod.trans (congrArg some ?_))
    cases hmsb : b.msb with
    | false => rfl
    | true =>
      have hneg : b.toInt < 0 := BitVec.toInt_neg_of_msb_true hmsb
      have hrem := toInt_eq_zero.mp (hzero.mp (h.resolve_left (by omega)))
      rw [if_pos rfl, hrem, neg_zero]

/-- A negative divisor that leaves no remainder. -/
theorem signed_division64_even : Coherent 65 0 (-6) (-2) :=
  (signed_division64 (by decide) 0 (-6) (-2) (by decide)).mpr (.inr (by decide))

/-- The remainder of 7 by -2 comes out as -1. -/
theorem signed_division64_odd :
    ¬∀ (fuel : ℕ) (v a b : BitVec 64), 64 < fuel → b ≠ 0 → Coherent fuel v a b := by
  intro h
  obtain ⟨_, r, -, hr, -, -, hsign⟩ := h 65 0 7 (-2) (by decide) (by decide)
  have hrem : moddi3 65 0 7 (-2) = some (-1) := moddi3_eq (by decide) 7 (by decide) 0
  rw [hrem, Option.some.injEq] at hr
  subst hr
  exact absurd (hsign (by decide)) (by decide)

end HfRisc.Results

/-! ## The 64-bit shifts -/

namespace HfRisc.Soft

variable {u x : BitVec 64} {n : ℕ}

/-! ## A shift by 32 bits more -/

theorem shiftLeft_more : u <<< n = u <<< (n + 32) ↔ u <<< n = 0 := by
  rw [BitVec.shiftLeft_add]
  generalize u <<< n = x
  constructor
  · intro h
    have hagain : x <<< 32 <<< 32 = x := by rw [← h, ← h]
    rw [← BitVec.shiftLeft_add, BitVec.shiftLeft_eq_zero (by decide)] at hagain
    exact hagain.symm
  · rintro rfl
    exact (BitVec.zero_shiftLeft 32).symm

theorem ushiftRight_more : u >>> n = u >>> (n + 32) ↔ u >>> n = 0 := by
  rw [BitVec.shiftRight_add]
  generalize u >>> n = x
  constructor
  · intro h
    have hagain : x >>> 32 >>> 32 = x := by rw [← h, ← h]
    rw [← BitVec.shiftRight_add, BitVec.ushiftRight_eq_zero (by decide)] at hagain
    exact hagain.symm
  · rintro rfl
    exact BitVec.zero_ushiftRight.symm

theorem toInt_sshiftRight : (u.sshiftRight n).toInt = u.toInt / 2 ^ n := by
  rw [BitVec.toInt_sshiftRight, Int.shiftRight_eq_div_pow]
  rfl

theorem sshiftRight_more : u.sshiftRight n = u.sshiftRight (n + 32) ↔
    -1 ≤ (u.sshiftRight n).toInt ∧ (u.sshiftRight n).toInt < 1 := by
  rw [← BitVec.toInt_inj, toInt_sshiftRight, toInt_sshiftRight, Int.pow_add,
    ← Int.ediv_ediv_of_nonneg (Int.le_of_lt (Int.pow_pos (by decide)))]
  omega

/-! ## The bits that fall out -/

theorem shiftLeft_eq_zero (hn : n ≤ 64) : u <<< n = 0 ↔ 2 ^ (64 - n) ∣ u.toNat := by
  have hpow : 2 ^ 64 = 2 ^ (64 - n) * 2 ^ n := by
    rw [← Nat.pow_add, Nat.sub_add_cancel hn]
  rw [← BitVec.toNat_inj, BitVec.toNat_shiftLeft, Nat.shiftLeft_eq]
  show _ % 2 ^ 64 = 0 ↔ _
  rw [← Nat.dvd_iff_mod_eq_zero, hpow, Nat.mul_dvd_mul_iff_right (Nat.two_pow_pos n)]

theorem ushiftRight_eq_zero : u >>> n = 0 ↔ u.toNat < 2 ^ n := by
  rw [← BitVec.toNat_inj, BitVec.toNat_ushiftRight, Nat.shiftRight_eq_div_pow]
  exact Nat.div_eq_zero_iff_lt (Nat.two_pow_pos n)

theorem sshiftRight_sign : -1 ≤ (u.sshiftRight n).toInt ∧ (u.sshiftRight n).toInt < 1 ↔
    -2 ^ n ≤ u.toInt ∧ u.toInt < 2 ^ n := by
  have hpos : (0 : ℤ) < 2 ^ n := Int.pow_pos (by decide)
  rw [toInt_sshiftRight, Int.le_ediv_iff_mul_le hpos, Int.ediv_lt_iff_lt_mul hpos, Int.one_mul,
    Int.neg_one_mul]

/-- Nothing but 0 loses all its bits on either side. -/
theorem eq_zero_of_shifts (hn : n < 32) (hleft : 2 ^ (64 - n) ∣ u.toNat)
    (hright : u.toNat < 2 ^ n) : u = 0 := by
  have hle : 2 ^ n ≤ 2 ^ (64 - n) := Nat.pow_le_pow_right (by decide) (by omega)
  exact BitVec.eq_of_toNat_eq (Nat.eq_zero_of_dvd_of_lt hleft (Nat.lt_of_lt_of_le hright hle))

/-! ## The amounts -/

variable {b : Word}

/-- The amounts below 64 by the branch they take. -/
theorem amount_cases (hb : b.toNat < 64) :
    b = 0 ∨ (b.toNat % 32 ≠ 0 ∧ b.toNat < 32) ∨ b = 32 ∨
      (b.toNat % 32 ≠ 0 ∧ 32 < b.toNat ∧ b.toNat = b.toNat % 32 + 32) := by
  rcases Nat.eq_zero_or_pos b.toNat with h0 | hpos
  · exact .inl (BitVec.eq_of_toNat_eq h0)
  · rcases Nat.lt_trichotomy b.toNat 32 with hlt | heq | hgt
    · exact .inr (.inl (by omega))
    · exact .inr (.inr (.inl (BitVec.eq_of_toNat_eq heq)))
    · exact .inr (.inr (.inr (by omega)))

theorem ashldi3_iff (hb : b.toNat < 64) :
    ashldi3 u b = u <<< b.toNat ↔ b.toNat ≤ 32 ∨ 2 ^ (96 - b.toNat) ∣ u.toNat := by
  rcases amount_cases hb with rfl | ⟨hrest, hlt⟩ | rfl | ⟨hrest, hgt, heq⟩
  · exact iff_of_true (BitVec.shiftLeft_zero u).symm (.inl (by decide))
  · rw [ashldi3_eq hrest, Nat.mod_eq_of_lt hlt]
    exact iff_of_true rfl (.inl (Nat.le_of_lt hlt))
  · exact iff_of_true (ashldi3_32 u) (.inl (by decide))
  · rw [ashldi3_eq hrest]
    generalize b.toNat % 32 = n at *
    have hexp : 96 - (n + 32) = 64 - n := by omega
    rw [heq, shiftLeft_more, shiftLeft_eq_zero (by omega), or_iff_right (by omega), hexp]

theorem lshrdi3_iff (hb : b.toNat < 64) :
    lshrdi3 u b = u >>> b.toNat ↔ b.toNat ≤ 32 ∨ u.toNat < 2 ^ (b.toNat - 32) := by
  rcases amount_cases hb with rfl | ⟨hrest, hlt⟩ | rfl | ⟨hrest, hgt, heq⟩
  · exact iff_of_true (BitVec.ushiftRight_zero u).symm (.inl (by decide))
  · rw [lshrdi3_eq hrest, Nat.mod_eq_of_lt hlt]
    exact iff_of_true rfl (.inl (Nat.le_of_lt hlt))
  · exact iff_of_true (lshrdi3_32 u) (.inl (by decide))
  · rw [lshrdi3_eq hrest]
    generalize b.toNat % 32 = n at *
    rw [heq, ushiftRight_more, ushiftRight_eq_zero, or_iff_right (by omega), Nat.add_sub_cancel]

/-- A shift by 32 moves the upper half down. -/
theorem sshiftRight_32 (u : BitVec 64) : u.sshiftRight 32 =
    Dwords.all { high := (Dwords.ofAll u).high.sshiftRight 31, low := (Dwords.ofAll u).high } := by
  refine (Dwords.all_eq (fun i hi => ?_) (fun i hi => ?_)).symm
  · rw [Dwords.getLsbD_high, BitVec.getLsbD_sshiftRight, if_pos (by omega),
      decide_eq_false (show ¬64 ≤ i by omega), Bool.not_false, Bool.true_and]
  · rw [BitVec.getLsbD_sshiftRight, BitVec.getLsbD_sshiftRight, Dwords.msb_high,
      decide_eq_false (show ¬32 ≤ i by omega), decide_eq_false (show ¬64 ≤ 32 + i by omega),
      if_neg (show ¬32 + (32 + i) < 64 by omega)]
    split
    · next h =>
      have h0 : i = 0 := by omega
      rw [h0, Dwords.getLsbD_high, BitVec.msb_eq_getLsbD_last]
    · rfl

theorem ashrdi3_32_iff :
    ashrdi3 u 32 = u.sshiftRight 32 ↔ u.toNat / 2 ^ 32 = u.toNat % 2 ^ 32 := by
  rw [ashrdi3_32, sshiftRight_32, ← BitVec.toNat_inj, Dwords.toNat_all, Dwords.toNat_all,
    Nat.add_left_cancel_iff, Dwords.toNat_low, Dwords.toNat_high]
  exact eq_comm

theorem ashrdi3_iff (hb : b.toNat < 64) :
    ashrdi3 u b = u.sshiftRight b.toNat ↔ b.toNat < 32 ∨
      (b.toNat = 32 ∧ u.toNat / 2 ^ 32 = u.toNat % 2 ^ 32) ∨
      (32 < b.toNat ∧ -2 ^ (b.toNat - 32) ≤ u.toInt ∧ u.toInt < 2 ^ (b.toNat - 32)) := by
  rcases amount_cases hb with rfl | ⟨hrest, hlt⟩ | rfl | ⟨hrest, hgt, heq⟩
  · exact iff_of_true (BitVec.sshiftRight_zero).symm (.inl (by decide))
  · rw [ashrdi3_eq hrest, Nat.mod_eq_of_lt hlt]
    exact iff_of_true rfl (.inl hlt)
  · have h32 : (32 : Word).toNat = 32 := rfl
    simp only [h32, ashrdi3_32_iff, Nat.lt_irrefl, true_and, false_or, false_and, or_false]
  · rw [ashrdi3_eq hrest]
    generalize b.toNat % 32 = n at *
    rw [heq, sshiftRight_more, sshiftRight_sign, or_iff_right (by omega), or_iff_right (by omega),
      and_iff_right (show 32 < n + 32 by omega), Nat.add_sub_cancel]

end HfRisc.Soft

namespace HfRisc.Results

open HfRisc.Soft

/-- Which amounts and values each of the shifts gets right, and where all of them are. -/
theorem shifts64 (u : BitVec 64) (b : Word) (hb : b.toNat < 64) :
    (ashldi3 u b = u <<< b.toNat ↔ b.toNat ≤ 32 ∨ 2 ^ (96 - b.toNat) ∣ u.toNat) ∧
    (ashrdi3 u b = u.sshiftRight b.toNat ↔ b.toNat < 32 ∨
      (b.toNat = 32 ∧ u.toNat / 2 ^ 32 = u.toNat % 2 ^ 32) ∨
      (32 < b.toNat ∧ -2 ^ (b.toNat - 32) ≤ u.toInt ∧ u.toInt < 2 ^ (b.toNat - 32))) ∧
    (lshrdi3 u b = u >>> b.toNat ↔ b.toNat ≤ 32 ∨ u.toNat < 2 ^ (b.toNat - 32)) ∧
    (ashldi3 u b = u <<< b.toNat ∧ ashrdi3 u b = u.sshiftRight b.toNat ∧
        lshrdi3 u b = u >>> b.toNat ↔
      b.toNat < 32 ∨ (b.toNat = 32 ∧ u.toNat / 2 ^ 32 = u.toNat % 2 ^ 32) ∨ u = 0) := by
  refine ⟨ashldi3_iff hb, ashrdi3_iff hb, lshrdi3_iff hb, ?_⟩
  rw [ashldi3_iff hb, ashrdi3_iff hb, lshrdi3_iff hb]
  constructor
  · rintro ⟨hleft, hright | hhalf | ⟨hgt, -⟩, hlogical⟩
    · exact .inl hright
    · exact .inr (.inl hhalf)
    · have hexp : 64 - (b.toNat - 32) = 96 - b.toNat := by omega
      have hdvd := hleft.resolve_left (Nat.not_le_of_lt hgt)
      rw [← hexp] at hdvd
      exact .inr (.inr (eq_zero_of_shifts (by omega) hdvd
        (hlogical.resolve_left (Nat.not_le_of_lt hgt))))
  · rintro (hlt | ⟨heq, hhalf⟩ | rfl)
    · exact ⟨.inl (Nat.le_of_lt hlt), .inl hlt, .inl (Nat.le_of_lt hlt)⟩
    · exact ⟨.inl (Nat.le_of_eq heq), .inr (.inl ⟨heq, hhalf⟩), .inl (Nat.le_of_eq heq)⟩
    · have hpos : (0 : ℤ) < 2 ^ (b.toNat - 32) := Int.pow_pos (by decide)
      refine ⟨.inr (dvd_zero _), ?_, .inr (Nat.two_pow_pos _)⟩
      rcases Nat.lt_trichotomy b.toNat 32 with hlt | heq | hgt
      · exact .inl hlt
      · exact .inr (.inl ⟨heq, rfl⟩)
      · exact .inr (.inr ⟨hgt, Int.neg_nonpos_of_nonneg (Int.le_of_lt hpos), hpos⟩)

theorem shifts64_minus_one : ashldi3 (-1) 31 = (-1 : BitVec 64) <<< (31 : Word).toNat ∧
    ashrdi3 (-1) 31 = (-1 : BitVec 64).sshiftRight (31 : Word).toNat ∧
    lshrdi3 (-1) 31 = (-1 : BitVec 64) >>> (31 : Word).toNat :=
  (shifts64 (-1) 31 (by decide)).2.2.2.mpr (.inl (by decide))

/-- A shift of 1 by 33 is a shift by 1. -/
theorem shifts64_high_amount :
    ¬∀ (u : BitVec 64) (b : Word), b.toNat < 64 → ashldi3 u b = u <<< b.toNat ∧
      ashrdi3 u b = u.sshiftRight b.toNat ∧ lshrdi3 u b = u >>> b.toNat :=
  fun h => absurd (h 1 33 (by decide)).1 (by decide)

end HfRisc.Results
