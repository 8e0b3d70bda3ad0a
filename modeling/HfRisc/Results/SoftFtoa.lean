import HfRisc.Results.SoftFloatWord
import HfRisc.Soft.Print

/-!
# `ftoa`

The integer part and 24 bits of the fraction are printed. A digit is what is carried out of them by
a multiplication by 10, so that the digits stand for these bits rounded down, and both roundings
are in the same direction.
-/

namespace HfRisc.Soft

open HfRisc.Lib (Format TextAt FractionDigits)

variable {f : Word}

/-! ## The sign -/

/-- `f < 0.0` tests the sign, of the negative zero as well. -/
theorem ltdf2_zero (f : Word) : (ltdf2 (extendsfdf2 f) 0).slt 0 = f.msb := by
  have hzero : throughFloat 0 = extendsfdf2 0 := rfl
  have hthrough : throughFloat (extendsfdf2 f) = extendsfdf2 f :=
    congrArg extendsfdf2 (truncdfsf2_extendsfdf2 f)
  have hlt : (ltdf2 (extendsfdf2 f) 0).toInt < 0 ↔ f.toInt < (0 : Word).toInt := by
    rw [ltdf2, hzero, hthrough, cmpdf2_eq, lt_convention, extendsfdf2_lt]
  rw [BitVec.msb_eq_toInt, BitVec.slt]
  exact decide_eq_decide.mpr hlt

/-- The number without its sign. -/
def unsigned (f : Word) : Word := if f.msb then negsf2 f else f

theorem toNat_unsigned (f : Word) : (unsigned f).toNat = f.toNat % 2 ^ 31 := by
  have hlt := f.isLt
  rw [unsigned]
  cases hmsb : f.msb with
  | false =>
    have hless := BitVec.msb_eq_false_iff_two_mul_lt.mp hmsb
    rw [if_neg Bool.false_ne_true, Nat.mod_eq_of_lt (by omega)]
  | true =>
    have hge := BitVec.msb_eq_true_iff_two_mul_ge.mp hmsb
    have hne : f ≠ 0 := fun h => by
      rw [h] at hmsb
      cases hmsb
    have hxor := toInt_xor_signbit hmsb
    rw [BitVec.toInt_eq_toNat_cond, BitVec.toInt_eq_toNat_cond] at hxor
    rw [if_pos rfl, negsf2, if_neg hne]
    split_ifs at hxor <;> omega

theorem msb_unsigned (f : Word) : (unsigned f).msb = false := by
  rw [BitVec.msb_eq_false_iff_two_mul_lt, toNat_unsigned]
  omega

theorem magnitude_unsigned (f : Word) : Lib.magnitude (unsigned f) = Lib.magnitude f := by
  rw [Lib.magnitude, Lib.magnitude, toNat_unsigned]
  exact Nat.mod_mod _ _

theorem exponent_unsigned (f : Word) :
    binary32.exponent (unsigned f) = binary32.exponent f := by
  rw [Format.exponent, Format.exponent, magnitude_unsigned]

theorem abs_value_unsigned (f : Word) : |binary32.value (unsigned f)| = |binary32.value f| := by
  rw [Format.abs_value, Format.abs_value, magnitude_unsigned]

theorem value_neg_iff (h : binary32.value f ≠ 0) : binary32.value f < 0 ↔ f.msb = true := by
  have hpos : 0 < |binary32.value f| := abs_pos.mpr h
  rw [Format.abs_value] at hpos
  rw [Format.value_eq_sign]
  cases f.msb with
  | false => exact iff_of_false (by rw [if_neg Bool.false_ne_true]; linarith) Bool.false_ne_true
  | true => exact iff_of_true (by rw [if_pos rfl]; linarith) rfl

/-! ## The text -/

theorem ftoa_eq (fuel : ℕ) (f : Word) (outbuf : ℕ → BitVec 8) (precision : Word) :
    ftoa fuel f outbuf precision =
      let buf := if f.msb then Function.update outbuf 0 (byte '-') else outbuf
      let exp2 := (unsigned f).sshiftRight 23 - 127
      let mantissa := (unsigned f &&& 0xffffff) ||| 0x800000
      if BitVec.sle 31 exp2 then some (buf, -1)
      else
        (Ftoa.integer fuel buf (signText f.msb).length (Ftoa.intPart exp2 mantissa)).bind fun r =>
          (Lib.whileLoop (fun s => s.i.slt precision) Ftoa.digit fuel
            ⟨Function.update r.1 r.2 (byte '.'), r.2 + 1, Ftoa.fracPart exp2 mantissa, 0⟩).bind
            fun s => some (Function.update s.buf s.p 0, 0) := by
  have hlength : (signText f.msb).length = if f.msb then 1 else 0 := by
    cases f.msb <;> rfl
  rw [ftoa, ltdf2_zero, hlength]
  rfl

/-- The text in the buffer, and what its digits are. -/
theorem ftoa_spec {fuel : ℕ} {precision : Word} (hlt : |binary32.value f| < 2 ^ 31)
    (hprecision : precision.toNat < 2 ^ 31) (hfuel : max 10 precision.toNat < fuel)
    (outbuf : ℕ → BitVec 8) :
    ∃ buf n k ds rest, ftoa fuel f outbuf precision = some (buf, 0) ∧
      Ftoa.Parts |binary32.value f| n k ∧ FractionDigits 24 k ds rest ∧
      ds.length = precision.toNat ∧ TextAt buf 0 (signText f.msb ++ (decimal n ++
        byte '.' :: (ds.map (fun d => byte d.digitChar) ++ [0]))) := by
  have hexp : binary32.exponent (unsigned f) < 158 := by
    rw [exponent_unsigned]
    exact abs_value_lt32.mp hlt
  have hfits := (Ftoa.too_large_iff (msb_unsigned f)).not.mpr (Nat.not_le_of_lt hexp)
  have hparts := Ftoa.parts (msb_unsigned f) hexp
  rw [abs_value_unsigned] at hparts
  simp only [ftoa_eq, if_neg hfits]
  generalize (unsigned f &&& 0xffffff) ||| 0x800000 = mantissa at *
  generalize (unsigned f).sshiftRight 23 - 127 = exp2 at *
  generalize hbuf : (if f.msb then Function.update outbuf 0 (byte '-') else outbuf) = buf₀
  have hsign : TextAt buf₀ 0 (signText f.msb) := by
    rw [← hbuf]
    cases f.msb with
    | false => exact TextAt.nil
    | true => exact TextAt.cons_iff.mpr ⟨Function.update_self 0 _ outbuf, TextAt.nil⟩
  have hsmall : (Ftoa.intPart exp2 mantissa).toNat < 2 ^ 31 := by
    rw [hparts.whole, Nat.floor_lt (abs_nonneg _)]
    exact_mod_cast hlt
  obtain ⟨buf₁, hinteger, htext, hframe⟩ :=
    Ftoa.integer_eq (by omega : 10 < fuel) buf₀ (signText f.msb).length hsmall
  obtain ⟨t, ds, rest, hloop, hlength, hdigits, hfraction, hkeep⟩ := Ftoa.fraction_text
    hparts.frac_lt hprecision (by omega : precision.toNat < fuel) buf₁
    ((signText f.msb).length + (decimal (Ftoa.intPart exp2 mantissa).toNat).length)
  refine ⟨Function.update t.buf t.p 0, _, _, ds, rest, ?_, hparts, hdigits, hlength, ?_⟩
  · rw [hinteger, Option.bind_some, hloop, Option.bind_some]
  · -- nothing is written in front of a text that stands
    rw [TextAt.append_iff, TextAt.append_iff, Nat.zero_add]
    exact ⟨hsign.congr fun j _ hj => (hkeep j (by omega)).trans (hframe j (by omega)),
      htext.congr fun j _ hj => hkeep j hj, hfraction⟩

/-- The string at the beginning of a buffer. -/
structure IsString (buf : ℕ → BitVec 8) (text : List Char) : Prop where
  stands : TextAt buf 0 (text.map byte ++ [0])
  nonzero : 0 ∉ text.map byte

/-- A number as a text with `precision` digits behind the point. -/
structure PrintedAs (v : ℚ) (precision : ℕ) (text : List Char) (ds : List ℕ) : Prop where
  text_eq : text = (if v < 0 then ['-'] else []) ++
    (Nat.toDigits 10 ⌊|v|⌋₊ ++ '.' :: ds.map Nat.digitChar)
  length : ds.length = precision
  digit : ∀ d ∈ ds, d < 10
  low : Lib.numeral ⌊|v|⌋₊ ds ≤ |v|
  high : |v| - Lib.numeral ⌊|v|⌋₊ ds < 1 / 10 ^ precision + 1 / 2 ^ 23

theorem map_byte_text (n : ℕ) (ds : List ℕ) (h : binary32.value f ≠ 0) :
    ((if binary32.value f < 0 then ['-'] else []) ++
      (Nat.toDigits 10 n ++ '.' :: ds.map Nat.digitChar)).map byte =
      signText f.msb ++ (decimal n ++ byte '.' :: ds.map fun d => byte d.digitChar) := by
  simp only [value_neg_iff h, List.map_append, List.map_cons, List.map_map]
  cases f.msb <;> rfl

/-- No character of the text ends it. -/
theorem zero_notMem_text (neg : Bool) {n : ℕ} {ds : List ℕ} (h : ∀ d ∈ ds, d < 10) :
    0 ∉ signText neg ++ (decimal n ++ byte '.' :: ds.map fun d => byte d.digitChar) := by
  have hsign : 0 ∉ signText neg := by cases neg <;> decide
  have hdigit : ∀ d < 10, byte d.digitChar ≠ 0 := by decide
  have hdigits : 0 ∉ ds.map fun d => byte d.digitChar := by
    rw [List.mem_map]
    rintro ⟨d, hd, hzero⟩
    exact hdigit d (h d hd) hzero
  have hpoint : 0 ≠ byte '.' := by decide
  rw [List.mem_append, List.mem_append, List.mem_cons]
  exact not_or.mpr ⟨hsign, not_or.mpr ⟨zero_notMem_decimal n, not_or.mpr ⟨hpoint, hdigits⟩⟩⟩

end HfRisc.Soft

namespace HfRisc.Results

open HfRisc.Soft HfRisc.Lib

/-- A number below `2 ^ 31` is printed, and the others are refused. -/
theorem ftoa_prints (f : Word) (outbuf : ℕ → BitVec 8) (precision : Word) :
    (binary32.IsFinite f → binary32.value f ≠ 0 → |binary32.value f| < 2 ^ 31 →
      0 ≤ precision.toInt → ∀ fuel, max 10 precision.toNat < fuel →
        ∃ buf text ds, ftoa fuel f outbuf precision = some (buf, 0) ∧ IsString buf text ∧
          PrintedAs (binary32.value f) precision.toNat text ds) ∧
      (2 ^ 31 ≤ |binary32.value f| →
        ∀ fuel, ∃ buf, ftoa fuel f outbuf precision = some (buf, -1)) := by
  constructor
  · intro _ hne hlt hnonneg fuel hfuel
    have hprecision : precision.toNat < 2 ^ 31 := by
      rw [BitVec.toInt_eq_toNat_cond] at hnonneg
      split at hnonneg <;> omega
    obtain ⟨buf, n, k, ds, rest, hreturn, hparts, hdigits, hlength, htext⟩ :=
      ftoa_spec hlt hprecision hfuel outbuf
    obtain rfl := hparts.whole
    have hbytes := map_byte_text ⌊|binary32.value f|⌋₊ ds hne
    refine ⟨buf, _, ds, hreturn, ⟨?_, ?_⟩, rfl, hlength, hdigits.digit, ?_, ?_⟩
    · rw [hbytes, List.append_assoc, List.append_assoc, List.cons_append]
      exact htext
    · rw [hbytes]
      exact zero_notMem_text f.msb hdigits.digit
    · -- both roundings are down
      have hlow := hdigits.bounds.1
      have hfloor := hparts.low
      rw [numeral]
      linarith
    · have hhigh := hdigits.bounds.2
      have hceil := hparts.high
      rw [numeral, ← hlength]
      linarith
  · intro hge fuel
    have hexp : 158 ≤ binary32.exponent (unsigned f) := by
      rw [exponent_unsigned, ← not_lt, ← abs_value_lt32 (k := 31), not_lt]
      exact hge
    have hlarge := (Ftoa.too_large_iff (msb_unsigned f)).mpr hexp
    simp only [ftoa_eq, if_pos hlarge]
    exact ⟨_, rfl⟩

/-- -3.125 with two digits, and `2 ^ 31`. -/
theorem ftoa_prints_eighth :
    (∃ buf text ds, ftoa 11 0xC0480000 (fun _ => 0) 2 = some (buf, 0) ∧ IsString buf text ∧
      PrintedAs (binary32.value (0xC0480000 : Word)) 2 text ds) ∧
    ∃ buf, ftoa 11 0x4F000000 (fun _ => 0) 2 = some (buf, -1) := by
  have hvalue : binary32.value (0xC0480000 : Word) = -25 / 8 := by
    rw [Format.value_of_fields (b := true) (e := 128) (s := 25 * 2 ^ 19) (by decide) (by decide)
      (by decide) (by decide)]
    norm_num [Format.unitAt, binary32]
  have hlarge : 2 ^ 31 ≤ |binary32.value (0x4F000000 : Word)| :=
    le_of_not_gt (abs_value_lt32.not.mpr (by decide))
  refine ⟨(ftoa_prints 0xC0480000 _ 2).1 (by decide) ?_ ?_ (by decide) 11 (by decide),
    (ftoa_prints 0x4F000000 _ 2).2 hlarge 11⟩
  · rw [hvalue]
    norm_num
  · rw [hvalue, abs_of_neg (by norm_num)]
    norm_num

end HfRisc.Results
