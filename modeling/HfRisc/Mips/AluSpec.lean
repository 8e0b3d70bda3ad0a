import HfRisc.Isa.Refine
import HfRisc.Mips.Sequential
import HfRisc.Rtl.AluSpec

/-!
# What the MIPS execute stage computes

Each instruction has a row of the control unit and an ALU code, and under this code
the ALU computes the instruction's operation. The comparison with zero of a branch
is a subtraction of register 0. Loads and stores select the lanes that the RISC-V
cores select, with the bytes in the other order.
-/

namespace HfRisc.Mips

open HfRisc.Lib
open HfRisc.Rtl (readReg addsub less addsub_add addsub_sub addsub_borrow less_signed less_unsigned
  append_ofBool bshift_left bshift_right_logical bshift_right_arithmetic toNat_shamt swapBytes)
open HfRisc.Isa (LoadOp StoreOp Aligned lane)

/-! ## ALU codes -/

/-- The ALU code of a shift by an immediate, and by a register. -/
def ShiftOp.code : ShiftOp → BitVec 4
  | .sll => 0b1001
  | .srl => 0b1010
  | .sra => 0b1011

@[inherit_doc ShiftOp.code]
def ShiftOp.codeV : ShiftOp → BitVec 4
  | .sll => 0b1100
  | .srl => 0b1101
  | .sra => 0b1110

/-- The ALU code of a computation. -/
def RegOp.code : RegOp → BitVec 4
  | .addu => 0b0100
  | .subu => 0b0101
  | .and => 0b0000
  | .or => 0b0001
  | .xor => 0b0010
  | .nor => 0b0011
  | .slt => 0b0111
  | .sltu => 0b1000

@[inherit_doc RegOp.code]
def ImmOp.code : ImmOp → BitVec 4
  | .addiu => 0b0100
  | .slti => 0b0111
  | .sltiu => 0b1000
  | .andi => 0b0000
  | .ori => 0b0001
  | .xori => 0b0010
  | .lui => 0b0110

/-- Whether the circuit extends the sign of the immediate: for `SLTIU` it does not. -/
def ImmOp.signed : ImmOp → Bool
  | .addiu | .slti => true
  | .sltiu | .andi | .ori | .xori | .lui => false

/-- The kind of a branch. -/
def PairOp.kind : PairOp → BitVec 3
  | .beq => 0b001
  | .bne => 0b010

@[inherit_doc PairOp.kind]
def ZeroOp.kind : ZeroOp → BitVec 3
  | .lez => 0b011
  | .gtz => 0b100
  | .ltz => 0b101
  | .gez => 0b110

/-! ## The rows of the control unit -/

section Rows

variable {o f : BitVec 6} {r : BitVec 5}

theorem row_shift {op : ShiftOp} (h : decodeShift f = some op) :
    control 0b000000 f r = .shiftRow true op.code := by
  rw [eq_of_decodeShift h]
  cases op <;> rfl

theorem row_shiftV {op : ShiftOp} (h : decodeShiftV f = some op) :
    control 0b000000 f r = .shiftRow false op.codeV := by
  rw [eq_of_decodeShiftV h]
  cases op <;> rfl

theorem row_reg {op : RegOp} (h : decodeReg f = some op) :
    control 0b000000 f r = .register op.code := by
  rw [eq_of_decodeReg h]
  cases op <;> rfl

theorem row_imm {op : ImmOp} (h : decodeImm o = some op) :
    control o f r = .immediate op.signed op.code := by
  rw [eq_of_decodeImm h]
  cases op <;> rfl

theorem row_pair {op : PairOp} (h : decodePair o = some op) :
    control o f r = .branchOn op.kind := by
  rw [eq_of_decodePair h]
  cases op <;> rfl

theorem row_zero {op : ZeroOp} (h : decodeZero o = some op) :
    control o f r = .branchOn op.kind := by
  rcases of_decodeZero h with ⟨rfl, rfl⟩ | ⟨rfl, rfl⟩ <;> rfl

theorem row_sign {op : ZeroOp} (h : decodeSign r = some op) :
    control 0b000001 f r = .branchOn op.kind := by
  rcases of_decodeSign h with ⟨rfl, rfl⟩ | ⟨rfl, rfl⟩ <;> rfl

theorem row_link {op : ZeroOp} (h : decodeLink r = some op) :
    control 0b000001 f r = .branchLink op.kind := by
  rcases of_decodeLink h with ⟨rfl, rfl⟩ | ⟨rfl, rfl⟩ <;> rfl

/-- `signed_rd` of a load: the row of `LW` has 0 here, where that of the RISC-V cores has 1. -/
def signedRd : LoadOp → Bool
  | .lb | .lh => true
  | .lw | .lbu | .lhu => false

theorem row_load {op : LoadOp} (h : decodeLoad o = some op) :
    control o f r = .load op.width (signedRd op) := by
  rw [eq_of_decodeLoad h]
  cases op <;> rfl

theorem row_store {op : StoreOp} (h : decodeStore o = some op) :
    control o f r = .store op.width := by
  rw [eq_of_decodeStore h]
  cases op <;> rfl

end Rows

/-! ## The rows that are no `nop` -/

theorem controlSpecial_iff : ∀ f : BitVec 6,
    (∀ op, controlSpecial f ≠ .nop op) ↔ f = 0b001000 ∨ f = 0b001001 ∨
      (decodeShift f).isSome ∨ (decodeShiftV f).isSome ∨ (decodeReg f).isSome := by
  decide +kernel

theorem controlRegimm_iff : ∀ r : BitVec 5,
    (∀ op, controlRegimm r ≠ .nop op) ↔ (decodeSign r).isSome ∨ (decodeLink r).isSome := by
  decide +kernel

theorem control_iff : ∀ o : BitVec 6, o ≠ 0b000000 → o ≠ 0b000001 →
    ((∀ op, control o 0 0 ≠ .nop op) ↔ o = 0b000010 ∨ o = 0b000011 ∨ (decodePair o).isSome ∨
      (decodeZero o).isSome ∨ (decodeImm o).isSome ∨ (decodeLoad o).isSome ∨
      (decodeStore o).isSome) := by
  decide +kernel

/-- The instruction words are those with a row of their own in the control unit. -/
theorem isSome_decodeInstr_iff (w : Word) :
    (decodeInstr w).isSome ↔ ∀ op, control (opcode w) (funct w) (rt w) ≠ .nop op := by
  rw [decodeInstr]
  by_cases h₀ : opcode w = 0b000000
  · rw [if_pos h₀, control, if_pos h₀, controlSpecial_iff, decodeSpecial]
    split_ifs with hjr hjalr
    · exact iff_of_true rfl (.inl hjr)
    · exact iff_of_true rfl (.inr (.inl hjalr))
    · simp only [hjr, hjalr, false_or, Option.orElse_eq_orElse, Option.orElse_eq_or,
        Option.isSome_or, Option.isSome_map, Bool.or_eq_true]
  rw [if_neg h₀]
  by_cases h₁ : opcode w = 0b000001
  · rw [if_pos h₁, control, if_neg h₀, if_pos h₁, controlRegimm_iff]
    simp only [Option.orElse_eq_orElse, Option.orElse_eq_or, Option.isSome_or, Option.isSome_map,
      Bool.or_eq_true]
  have hfields : control (opcode w) (funct w) (rt w) = control (opcode w) 0 0 := by
    rw [control, control, if_neg h₀, if_neg h₁, if_neg h₀, if_neg h₁]
  rw [if_neg h₁, hfields, control_iff _ h₀ h₁]
  split_ifs with hj hjal
  · exact iff_of_true rfl (.inl hj)
  · exact iff_of_true rfl (.inr (.inl hjal))
  · simp only [hj, hjal, false_or, Option.orElse_eq_orElse, Option.orElse_eq_or,
      Option.isSome_or, Option.isSome_map, Bool.or_eq_true]

/-! ## The ALU -/

section Alu

variable (x y : Word)

/-- The comparison under the subtraction code is the signed one, too. -/
theorem less_sub : less x y 0b0101 = x.slt y := by
  rw [← less_signed, less, less, addsub_borrow x y (by decide), addsub_borrow x y (by decide)]
  simp only [show ¬ (0b0101 : BitVec 4) = 0b1000 by decide,
    show ¬ (0b0111 : BitVec 4) = 0b1000 by decide, or_false]

theorem alu_shift (op : ShiftOp) :
    (alu x y op.code).result = op.eval (y.extractLsb' 6 5).toNat x := by
  cases op with
  | sll => exact bshift_left true _ x
  | srl => exact bshift_right_logical _ _
  | sra => exact bshift_right_arithmetic _ _

theorem alu_shiftV (op : ShiftOp) : (alu x y op.codeV).result = op.eval (y.toNat % 32) x := by
  rw [← toNat_shamt y]
  cases op with
  | sll => exact bshift_left true _ x
  | srl => exact bshift_right_logical _ _
  | sra => exact bshift_right_arithmetic _ _

theorem alu_reg (op : RegOp) : (alu x y op.code).result = op.eval x y := by
  cases op with
  | addu => exact addsub_add x y
  | subu => exact addsub_sub x y (by decide)
  | slt =>
    show 0#31 ++ BitVec.ofBool (less x y 0b0111) = _
    rw [less_signed, append_ofBool]
    rfl
  | sltu =>
    show 0#31 ++ BitVec.ofBool (less x y 0b1000) = _
    rw [less_unsigned, append_ofBool]
    rfl
  | _ => rfl

/-- What the circuit computes with an immediate: in `SLTIU` it is not negative. -/
def ImmOp.circuit (x : Word) (imm : BitVec 16) : ImmOp → Word
  | .sltiu => if x.ult (imm.setWidth 32) then 1 else 0
  | op => op.eval x imm

theorem alu_imm (op : ImmOp) (imm : BitVec 16) :
    (alu x (if op.signed then imm.signExtend 32 else imm.setWidth 32) op.code).result =
      op.circuit x imm := by
  cases op with
  | addiu => exact addsub_add x _
  | slti =>
    show 0#31 ++ BitVec.ofBool (less x (imm.signExtend 32) 0b0111) = _
    rw [less_signed, append_ofBool]
    rfl
  | sltiu =>
    show 0#31 ++ BitVec.ofBool (less x (imm.setWidth 32) 0b1000) = _
    rw [less_unsigned, append_ofBool]
    rfl
  | lui =>
    show (imm.setWidth 32).extractLsb' 0 16 ++ 0x0000#16 = imm ++ 0#16
    congr 1
    apply BitVec.eq_of_toNat_eq
    rw [toNat_extract, BitVec.toNat_setWidth]
    omega
  | _ => rfl

theorem zero_sub : (alu x y 0b0101).zero = (x == y) := by
  show ((addsub x y 0b0101).extractLsb' 0 32 == 0) = (x == y)
  rw [addsub_sub x y (by decide), Bool.eq_iff_iff, beq_iff_eq, beq_iff_eq]
  exact sub_eq_zero

end Alu

/-! ## Branches -/

section Branches

variable {e : Execute} {regs : BitVec 5 → Word} {x y : Word}

theorem taken_pair {op : PairOp} (hbr : e.ctl.branch = op.kind)
    (hout : e.aluOut regs = alu x y 0b0101) : e.branchTaken regs = op.holds x y := by
  rw [Execute.branchTaken, hout, hbr, zero_sub]
  cases op <;> simp [PairOp.kind, PairOp.holds, bne]

theorem taken_zero {op : ZeroOp} (hbr : e.ctl.branch = op.kind)
    (hout : e.aluOut regs = alu x 0 0b0101) : e.branchTaken regs = op.holds x := by
  have hless : (alu x 0 0b0101).lessThan = x.msb :=
    (less_sub x 0).trans BitVec.slt_zero_eq_msb
  have hneg : x.msb = true → (x == 0) = false := by
    intro h
    rw [beq_eq_false_iff_ne]
    rintro rfl
    cases h
  rw [Execute.branchTaken, hout, hbr, zero_sub, hless]
  -- a negative word is not zero
  cases op <;> simp only [ZeroOp.kind, ZeroOp.holds] <;> cases hm : x.msb <;> simp [bne]
  all_goals simpa using hneg hm

end Branches

/-! ## Immediates -/

theorem ext32_eq (e : Execute) :
    e.ext32 = if e.ctl.signedImm then e.imm.signExtend 32 else e.imm.setWidth 32 := by
  have hzero : (0x0000#16 ++ e.imm : Word) = e.imm.setWidth 32 := by
    apply BitVec.eq_of_toNat_eq
    rw [toNat_append, BitVec.toNat_setWidth]
    have hlt := e.imm.isLt
    simp
    omega
  have hsign : e.imm.getLsbD 15 = e.imm.msb := (BitVec.msb_eq_getLsbD_last _).symm
  rw [Execute.ext32, hzero, hsign]
  cases hs : e.ctl.signedImm with
  | false => simp
  | true =>
    rw [if_pos rfl]
    refine eq_signExtend (j := 16) (k := 16) rfl ?_
    cases hm : e.imm.msb with
    | false =>
      have hlt := e.imm.isLt
      simp
      omega
    | true =>
      simp
      rw [toNat_append]
      rfl

/-- Two zeros behind a word. -/
theorem append_zeros (w : Word) : (w.extractLsb' 0 30 ++ 0b00#2 : Word) = w <<< 2 := by
  apply BitVec.eq_of_toNat_eq
  rw [toNat_append, toNat_extract, BitVec.toNat_shiftLeft, Nat.shiftLeft_eq]
  simp
  omega

end HfRisc.Mips
