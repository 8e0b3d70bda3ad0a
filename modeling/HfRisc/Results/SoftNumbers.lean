import HfRisc.Lib.Mask
import HfRisc.Soft.Print
import HfRisc.Soft.Scan

/-!
# Numbers as texts

`atoi` reads back all that `itoa` writes in the base 10. `strtol` reads back what has eight digits
at most: its loop has nine rounds, one of which is for the end of the text.
-/

namespace HfRisc.Soft

open HfRisc.Lib (TextAt)

variable {fuel : ℕ} {base n : Word}

/-- `e` is where the string at `s` ends. -/
structure EndsAt (buf : ℕ → BitVec 8) (s e : ℕ) : Prop where
  zero : buf e = 0
  nonzero : ∀ j, s ≤ j → j < e → buf j ≠ 0

/-- A text without a zero ends with the first one. -/
theorem endsAt_of_text {buf : ℕ → BitVec 8} {s : ℕ} {text : List (BitVec 8)}
    (h : TextAt buf s (text ++ [0])) (hnot : 0 ∉ text) : EndsAt buf s (s + text.length) where
  zero := (TextAt.cons_iff.mp (TextAt.append_iff.mp h).2).1
  nonzero j hle hlt hzero := by
    obtain ⟨k, rfl⟩ := Nat.exists_eq_add_of_le hle
    have hk : k < text.length := Nat.add_lt_add_iff_left.mp hlt
    have hc := (TextAt.append_iff.mp h).1 k _ (List.getElem?_eq_getElem hk)
    rw [hzero] at hc
    exact hnot (hc ▸ List.getElem_mem hk)

theorem zero_notMem_number {b : ℕ} (h2 : 2 ≤ b) (h36 : b ≤ 36) (neg : Bool) (m : ℕ) :
    0 ∉ signText neg ++ digitText b m := by
  have hsign : 0 ∉ signText neg := by cases neg <;> decide
  rw [List.mem_append]
  exact not_or.mpr ⟨hsign, zero_notMem_digitText h2 h36 m⟩

/-- The nine rounds are enough for eight digits and the end. -/
theorem strtol_text_iff (h2 : 2 ≤ base.toNat) (h36 : base.toNat ≤ 36) {buf : ℕ → BitVec 8} {s : ℕ}
    (h : TextAt buf s (signText (n.slt 0) ++ digitText base.toNat n.toInt.natAbs ++ [0])) :
    (∃ e, strtol buf s base = (n, e) ∧ EndsAt buf s e) ↔ n.toInt.natAbs < base.toNat ^ 8 := by
  have hends := endsAt_of_text h (zero_notMem_number h2 h36 _ _)
  have hdigits := digitText_eq (b := base.toNat) (by omega) n.toInt.natAbs
  rw [← List.map_reverse] at hdigits
  have hlength : (Lib.backDigits base.toNat n.toInt.natAbs).reverse.length ≤ 8 ↔
      n.toInt.natAbs < base.toNat ^ 8 := by
    rw [List.length_reverse]
    exact Lib.length_backDigits_le_iff (by omega) (by decide)
  have hvalue : (Lib.backDigits base.toNat n.toInt.natAbs).reverse.foldl
      (fun v d => v * base.toNat + d) 0 = n.toInt.natAbs := by
    rw [Lib.foldl_digits, Nat.zero_mul, Nat.zero_add, List.reverse_reverse, Lib.ofDigits_backDigits]
  have hbelow : ∀ d ∈ (Lib.backDigits base.toNat n.toInt.natAbs).reverse, d < 36 := fun d hd =>
    (Lib.lt_of_mem_backDigits (by omega) (List.mem_reverse.mp hd)).trans_le h36
  have hlead : ∀ ds, (Lib.backDigits base.toNat n.toInt.natAbs).reverse = 0 :: ds → ds = [] :=
    fun _ => Lib.backDigits_reverse_eq_zero_cons (by omega)
  have hne : (Lib.backDigits base.toNat n.toInt.natAbs).reverse ≠ [] :=
    List.reverse_eq_nil_iff.not.mpr (List.cons_ne_nil _ _)
  rw [hdigits, List.length_append, List.length_map] at hends
  rw [hdigits] at h
  generalize (Lib.backDigits base.toNat n.toInt.natAbs).reverse = ds at *
  rw [List.append_assoc] at h
  have hread := Strtol.strtol_eq base h hbelow hlead hne
  simp only at hread
  rw [← hlength]
  constructor
  · rintro ⟨e, he, hend⟩
    by_contra hlong
    -- the last character that is read is taken for the end
    have heq : e = s + (signText (n.slt 0)).length + 8 := by
      rw [hread] at he
      have := (Prod.mk.inj he).2
      omega
    exact hends.nonzero e (by omega) (by omega) hend.zero
  · intro hshort
    refine ⟨_, hread.trans (Prod.ext ?_ rfl), ?_⟩
    · simp only [List.take_of_length_le (hshort.trans (by decide : 8 ≤ 9)), hvalue]
      exact Lib.eq_of_sign n
    · rw [Nat.min_eq_left hshort, Nat.add_assoc]
      exact hends

end HfRisc.Soft

namespace HfRisc.Results

open HfRisc.Soft HfRisc.Lib

/-- `itoa` writes the sign of a negative number and the digits of its magnitude, and `atoi` reads
the number that it writes in the base 10. -/
theorem itoa_canonical {fuel : ℕ} (hfuel : 33 < fuel) (n : Word) (buf : ℕ → BitVec 8) (s : ℕ) :
    (∀ base : Word, 2 ≤ base.toNat → base.toNat ≤ 36 →
      ∃ buf', itoa fuel buf n s base = some (buf', s) ∧
        TextAt buf' s (signText (n.slt 0) ++ digitText base.toNat n.toInt.natAbs ++ [0])) ∧
    ∃ buf', itoa fuel buf n s 10 = some (buf', s) ∧ atoi fuel buf' s = some n := by
  have htext : ∀ base : Word, 2 ≤ base.toNat → base.toNat ≤ 36 →
      ∃ buf', itoa fuel buf n s base = some (buf', s) ∧
        TextAt buf' s (signText (n.slt 0) ++ digitText base.toNat n.toInt.natAbs ++ [0]) := by
    intro base h2 h36
    obtain ⟨buf', hreturn, hstands, -⟩ :=
      itoa_text base n h2 h36 ((length_text h2 n).trans_lt hfuel) buf s
    exact ⟨buf', hreturn, hstands⟩
  obtain ⟨buf', hreturn, hstands⟩ := htext 10 (by decide) (by decide)
  have hlength := length_text (b := 10) (by decide) n
  rw [List.length_append] at hlength
  rw [List.append_assoc] at hstands
  have hatoi := Atoi.atoi_eq (k := 0) hstands (by decide)
    (show max 0 (digitText 10 _).length < fuel by omega)
  exact ⟨htext, buf', hreturn, hatoi.trans (congrArg some (Lib.eq_of_sign n))⟩

/-- The most negative number. -/
theorem itoa_canonical_min : (∀ base : Word, 2 ≤ base.toNat → base.toNat ≤ 36 →
      ∃ buf', itoa 34 (fun _ => 0) 0x80000000 0 base = some (buf', 0) ∧
        TextAt buf' 0 (signText ((0x80000000 : Word).slt 0) ++
          digitText base.toNat (0x80000000 : Word).toInt.natAbs ++ [0])) ∧
    ∃ buf', itoa 34 (fun _ => 0) 0x80000000 0 10 = some (buf', 0) ∧
      atoi 34 buf' 0 = some 0x80000000 :=
  itoa_canonical (by decide) 0x80000000 _ 0

/-- `strtol` returns the number that `itoa` wrote, and finds its end, for eight digits at most. -/
theorem strtol_inverts_iff {fuel : ℕ} (hfuel : 33 < fuel) {base : Word} (h2 : 2 ≤ base.toNat)
    (h36 : base.toNat ≤ 36) (n : Word) (buf : ℕ → BitVec 8) (s : ℕ) :
    (∃ buf' e, itoa fuel buf n s base = some (buf', s) ∧ strtol buf' s base = (n, e) ∧
      EndsAt buf' s e) ↔ n.toInt.natAbs < base.toNat ^ 8 := by
  obtain ⟨buf', hreturn, hstands, -⟩ :=
    itoa_text base n h2 h36 ((length_text h2 n).trans_lt hfuel) buf s
  rw [← strtol_text_iff h2 h36 hstands]
  constructor
  · rintro ⟨buf'', e, hreturn', hread, hend⟩
    obtain ⟨rfl, -⟩ := Prod.mk.inj (Option.some.inj (hreturn.symm.trans hreturn'))
    exact ⟨e, hread, hend⟩
  · rintro ⟨e, hread, hend⟩
    exact ⟨buf', e, hreturn, hread, hend⟩

/-- -255 in the base 16. -/
theorem strtol_inverts_byte :
    (∃ buf' e, itoa 34 (fun _ => 0) (-255) 0 16 = some (buf', 0) ∧
      strtol buf' 0 16 = (-255, e) ∧ EndsAt buf' 0 e) ↔
      (-255 : Word).toInt.natAbs < (16 : Word).toNat ^ 8 :=
  strtol_inverts_iff (by decide) (by decide) (by decide) (-255) _ 0

/-- 1234567890 has ten digits. -/
theorem strtol_reads_nine : ¬∀ (n base : Word) (buf : ℕ → BitVec 8) (s fuel : ℕ),
    2 ≤ base.toNat → base.toNat ≤ 36 → 33 < fuel →
      ∃ buf' e, itoa fuel buf n s base = some (buf', s) ∧ strtol buf' s base = (n, e) ∧
        EndsAt buf' s e := by
  intro h
  obtain ⟨buf', e, hreturn, hread, hend⟩ :=
    h 1234567890 10 (fun _ => 0) 0 34 (by decide) (by decide) (by decide)
  obtain ⟨buf'', hreturn', hstands, -⟩ := itoa_text 10 1234567890 (by decide) (by decide)
    (show _ < 34 by decide) (fun _ => 0) 0
  obtain ⟨rfl, -⟩ := Prod.mk.inj (Option.some.inj (hreturn.symm.trans hreturn'))
  exact absurd ((strtol_text_iff (by decide) (by decide) hstands).mp ⟨e, hread, hend⟩) (by decide)

end HfRisc.Results
