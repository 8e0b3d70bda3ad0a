import HfRisc.Isa.Spec
import HfRisc.Lib.Bits
import HfRisc.Rtl.Datapath

/-!
# Instruction fields

The immediates that the decode stage assembles from slices and copies of the sign
bit are the sign-extended immediates of the instruction set, and `decode_cases`
lists the shapes of a legal instruction word.
-/

namespace HfRisc.Isa

open HfRisc.Rtl HfRisc.Lib

/-! ## Immediates -/

section Immediates

variable (control : BitVec 7 → BitVec 3 → BitVec 7 → Control) (w : Word)

theorem ext32_toNat : (ext32 w).toNat = if w.getLsbD 31 then 0xfffff else 0 := by
  rw [ext32]
  split <;> rfl

theorem sign_word : w.getLsbD 31 = decide (2 ^ 31 ≤ w.toNat) := by
  rw [show (31 : ℕ) = 32 - 1 from rfl, ← BitVec.msb_eq_decide, BitVec.msb_eq_getLsbD_last]

theorem immI_eq : (Rtl.decode control w).immI = immI w := by
  refine eq_signExtend (j := 20) (k := 12) rfl ?_
  show (ext32 w ++ w.extractLsb' 20 12).toNat = _
  have hmsb : (w.extractLsb' 20 12).msb = w.getLsbD 31 := by
    rw [BitVec.msb_eq_getLsbD_last]
    simp
  rw [toNat_append, ext32_toNat, hmsb]
  rfl

theorem immS_eq : (Rtl.decode control w).immS = immS w := by
  refine eq_signExtend (j := 20) (k := 12) rfl ?_
  show (ext32 w ++ w.extractLsb' 25 7 ++ w.extractLsb' 7 5).toNat = _
  have hmsb : (w.extractLsb' 25 7 ++ w.extractLsb' 7 5).msb = w.getLsbD 31 := by
    have htop : 64 ≤ w.toNat / 33554432 % 128 ↔ 2147483648 ≤ w.toNat := by omega
    have hlow : w.toNat / 128 % 32 < 32 := Nat.mod_lt _ (by decide)
    rw [sign_word, BitVec.msb_eq_decide, decide_eq_decide, toNat_append, toNat_extract,
      toNat_extract]
    show 2 ^ 11 ≤ w.toNat / 33554432 % 128 * 2 ^ 5 + w.toNat / 128 % 32 ↔ 2 ^ 31 ≤ w.toNat
    omega
  rw [hmsb, toNat_append, toNat_append, toNat_append, ext32_toNat]
  split <;> omega

theorem immSb_eq : (Rtl.decode control w).immSb = immB w := by
  have hzero : (0#1).toNat = 0 := rfl
  refine eq_signExtend (j := 19) (k := 13) rfl ?_
  show ((ext32 w).extractLsb' 1 19 ++ w.extractLsb' 31 1 ++ w.extractLsb' 7 1 ++
      w.extractLsb' 25 6 ++ w.extractLsb' 8 4 ++ 0#1).toNat = _
  have hmsb : (w.extractLsb' 31 1 ++ w.extractLsb' 7 1 ++ w.extractLsb' 25 6 ++
      w.extractLsb' 8 4 ++ 0#1).msb = w.getLsbD 31 := by
    rw [sign_word, BitVec.msb_eq_decide, decide_eq_decide, toNat_append, toNat_append,
      toNat_append, toNat_append, toNat_extract, toNat_extract, toNat_extract, toNat_extract, hzero]
    omega
  rw [hmsb, toNat_append, toNat_append, toNat_append, toNat_append, toNat_append, toNat_append,
    toNat_append, toNat_append, toNat_append, toNat_extract, toNat_extract, toNat_extract,
    toNat_extract, toNat_extract, ext32_toNat, hzero]
  split <;> omega

theorem immUj_eq : (Rtl.decode control w).immUj = immJ w := by
  have hzero : (0#1).toNat = 0 := rfl
  refine eq_signExtend (j := 11) (k := 21) rfl ?_
  show ((ext32 w).extractLsb' 9 11 ++ w.extractLsb' 31 1 ++ w.extractLsb' 12 8 ++
      w.extractLsb' 20 1 ++ w.extractLsb' 21 10 ++ 0#1).toNat = _
  have hmsb : (w.extractLsb' 31 1 ++ w.extractLsb' 12 8 ++ w.extractLsb' 20 1 ++
      w.extractLsb' 21 10 ++ 0#1).msb = w.getLsbD 31 := by
    rw [sign_word, BitVec.msb_eq_decide, decide_eq_decide, toNat_append, toNat_append,
      toNat_append, toNat_append, toNat_extract, toNat_extract, toNat_extract, toNat_extract, hzero]
    omega
  rw [hmsb, toNat_append, toNat_append, toNat_append, toNat_append, toNat_append, toNat_append,
    toNat_append, toNat_append, toNat_append, toNat_extract, toNat_extract, toNat_extract,
    toNat_extract, toNat_extract, ext32_toNat, hzero]
  split <;> omega

/-- The shift amount is the low half of the immediate. -/
theorem toNat_immI_mod : (immI w).toNat % 32 = (rs2 w).toNat := by
  have h : ((immI w).extractLsb' 0 5).toNat = (rs2 w).toNat := by
    congr 1
    ext i hi
    simp only [immI, rs2, BitVec.getElem_extractLsb', BitVec.getLsbD_signExtend,
      BitVec.getLsbD_extractLsb']
    simp [show i < 12 by omega, show i < 32 by omega]
  rw [← h, toNat_extract]
  simp

end Immediates

/-! ## Shapes of an instruction word -/

/-- A three-bit field has eight values. -/
theorem funct3_cases (f₃ : BitVec 3) : f₃ = 0 ∨ f₃ = 1 ∨ f₃ = 2 ∨ f₃ = 3 ∨ f₃ = 4 ∨ f₃ = 5 ∨
    f₃ = 6 ∨ f₃ = 7 := by
  revert f₃
  decide

/-- A legal word is one of these. -/
theorem decode_cases {m : Bool} {w : Word} {i : Instr} (h : decode m w = some i) :
    (opcode w = 0b0110111 ∧ i = .lui (rd w) (immU w)) ∨
    (opcode w = 0b0010111 ∧ i = .auipc (rd w) (immU w)) ∨
    (opcode w = 0b1101111 ∧ i = .jal (rd w) (immJ w)) ∨
    (opcode w = 0b1100111 ∧ i = .jalr (rd w) (rs1 w) (immI w)) ∨
    (opcode w = 0b1100011 ∧ ∃ o, decodeBranch (funct3 w) = some o ∧
      i = .branch o (rs1 w) (rs2 w) (immB w)) ∨
    (opcode w = 0b0000011 ∧ ∃ o, decodeLoad (funct3 w) = some o ∧
      i = .load o (rd w) (rs1 w) (immI w)) ∨
    (opcode w = 0b0100011 ∧ ∃ o, decodeStore (funct3 w) = some o ∧
      i = .store o (rs1 w) (rs2 w) (immS w)) ∨
    (opcode w = 0b0010011 ∧ ∃ o, decodeOpImm (funct3 w) (funct7 w) = some o ∧
      i = .opImm o (rd w) (rs1 w) (immI w)) ∨
    (opcode w = 0b0110011 ∧ ∃ o, decodeOp (funct3 w) (funct7 w) = some o ∧
      i = .op o (rd w) (rs1 w) (rs2 w)) ∨
    (opcode w = 0b0110011 ∧ m = true ∧ ∃ o, decodeMul (funct3 w) (funct7 w) = some o ∧
      i = .mul o (rd w) (rs1 w) (rs2 w)) ∨
    (opcode w = 0b0001111 ∧ i = .fence) := by
  rw [decode] at h
  by_cases ho : opcode w = 0b0110111
  · rw [if_pos ho] at h
    exact .inl ⟨ho, (Option.some.inj h).symm⟩
  rw [if_neg ho] at h
  refine .inr ?_
  by_cases ho : opcode w = 0b0010111
  · rw [if_pos ho] at h
    exact .inl ⟨ho, (Option.some.inj h).symm⟩
  rw [if_neg ho] at h
  refine .inr ?_
  by_cases ho : opcode w = 0b1101111
  · rw [if_pos ho] at h
    exact .inl ⟨ho, (Option.some.inj h).symm⟩
  rw [if_neg ho] at h
  refine .inr ?_
  by_cases ho : opcode w = 0b1100111
  · rw [if_pos ho] at h
    split at h
    · exact .inl ⟨ho, (Option.some.inj h).symm⟩
    · cases h
  rw [if_neg ho] at h
  refine .inr ?_
  by_cases ho : opcode w = 0b1100011
  · rw [if_pos ho] at h
    obtain ⟨o, ho', rfl⟩ := Option.map_eq_some_iff.mp h
    exact .inl ⟨ho, o, ho', rfl⟩
  rw [if_neg ho] at h
  refine .inr ?_
  by_cases ho : opcode w = 0b0000011
  · rw [if_pos ho] at h
    obtain ⟨o, ho', rfl⟩ := Option.map_eq_some_iff.mp h
    exact .inl ⟨ho, o, ho', rfl⟩
  rw [if_neg ho] at h
  refine .inr ?_
  by_cases ho : opcode w = 0b0100011
  · rw [if_pos ho] at h
    obtain ⟨o, ho', rfl⟩ := Option.map_eq_some_iff.mp h
    exact .inl ⟨ho, o, ho', rfl⟩
  rw [if_neg ho] at h
  refine .inr ?_
  by_cases ho : opcode w = 0b0010011
  · rw [if_pos ho] at h
    obtain ⟨o, ho', rfl⟩ := Option.map_eq_some_iff.mp h
    exact .inl ⟨ho, o, ho', rfl⟩
  rw [if_neg ho] at h
  refine .inr ?_
  by_cases ho : opcode w = 0b0110011
  · rw [if_pos ho] at h
    cases hop : decodeOp (funct3 w) (funct7 w) with
    | some o =>
      rw [hop] at h
      exact .inl ⟨ho, o, rfl, (Option.some.inj h).symm⟩
    | none =>
      rw [hop] at h
      replace h : (if m = true then (decodeMul (funct3 w) (funct7 w)).map fun op =>
        Instr.mul op (rd w) (rs1 w) (rs2 w) else none) = some i := h
      split at h
      · rename_i hm
        obtain ⟨o, ho', rfl⟩ := Option.map_eq_some_iff.mp h
        exact .inr (.inl ⟨ho, hm, o, ho', rfl⟩)
      · cases h
  rw [if_neg ho] at h
  refine .inr (.inr ?_)
  by_cases ho : opcode w = 0b0001111
  · rw [if_pos ho] at h
    split at h
    · exact ⟨ho, (Option.some.inj h).symm⟩
    · cases h
  rw [if_neg ho] at h
  cases h

end HfRisc.Isa
