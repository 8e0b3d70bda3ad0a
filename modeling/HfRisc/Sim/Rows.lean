import HfRisc.Isa.Fields
import HfRisc.Sim.Fields

/-!
# The rows of the switch are the instructions

`Instr.action` says what an instruction of the instruction set is as a row of the
switch, and `action_of_decode` that the switch selects exactly this row for every
legal word. The operands stay abstract here: the row is the right one whatever
the program finds in `r`.
-/

namespace HfRisc.Sim

open HfRisc.Lib
open HfRisc.Isa (BranchOp LoadOp StoreOp AluOp MulOp Instr decode decode_cases funct3_cases
  decodeBranch decodeLoad decodeStore decodeOpImm decodeOp decodeMul)

/-- The type of a load. -/
def typeOf : LoadOp → CType
  | .lb => .int8
  | .lh => .int16
  | .lw => .int32
  | .lbu => .uint8
  | .lhu => .uint16

/-- The size of a load. -/
def loadSize : LoadOp → Size
  | .lb | .lbu => .byte
  | .lh | .lhu => .half
  | .lw => .word

/-- The size of a store. -/
def storeSize : StoreOp → Size
  | .sb => .byte
  | .sh => .half
  | .sw => .word

/-- An instruction at `pc` as a row of the switch. -/
def instrAction (pc : Word) (o : Operands) : Instr → Action
  | .lui _ imm => .write imm
  | .auipc _ imm => .write (pc + imm)
  | .jal _ imm => .link (pc + imm)
  | .jalr _ _ imm => .link ((o.jump + imm) &&& ~~~1#32)
  | .branch op _ _ imm => .branch (op.holds o.x o.y) (pc + imm)
  | .load op _ _ imm => .load (typeOf op) (loadSize op) (o.base + imm)
  | .store op _ _ imm => .store (storeSize op) (o.base + imm) o.y
  | .opImm op _ _ imm => .write (op.eval o.x imm)
  | .op op _ _ _ => .write (op.eval o.x o.y)
  | .mul op _ _ _ => .write (op.eval o.x o.y)
  | .fence => .fail

section Rows

variable {f₃ : BitVec 3} {f₇ : BitVec 7} {o : Operands}

theorem actionBranch_eq {op : BranchOp} (h : decodeBranch f₃ = some op) (target : Word) :
    actionBranch (f₃.setWidth 32) o target = .branch (op.holds o.x o.y) target := by
  revert h
  rcases funct3_cases f₃ with rfl | rfl | rfl | rfl | rfl | rfl | rfl | rfl <;>
    intro h <;> cases h <;> rfl

theorem actionLoad_eq {op : LoadOp} (h : decodeLoad f₃ = some op) (ptr : Word) :
    actionLoad (f₃.setWidth 32) ptr = .load (typeOf op) (loadSize op) ptr := by
  revert h
  rcases funct3_cases f₃ with rfl | rfl | rfl | rfl | rfl | rfl | rfl | rfl <;>
    intro h <;> cases h <;> rfl

theorem actionStore_eq {op : StoreOp} (h : decodeStore f₃ = some op) (ptr : Word) :
    actionStore (f₃.setWidth 32) o ptr = .store (storeSize op) ptr o.y := by
  revert h
  rcases funct3_cases f₃ with rfl | rfl | rfl | rfl | rfl | rfl | rfl | rfl <;>
    intro h <;> cases h <;> rfl

/-- The mask of the shift amount keeps all five bits. -/
theorem shamt_eq (w : Word) :
    (rs2 w &&& 0x3f).toNat % 32 = (Isa.immI w).toNat % 32 := by
  have hlow : (rs2 w).toNat = (Isa.rs2 w).toNat := by
    rw [rs2_eq, BitVec.toNat_setWidth]
    have hlt := (Isa.rs2 w).isLt
    omega
  have hmask : (rs2 w &&& 0x3f).toNat = (rs2 w).toNat % 64 :=
    toNat_and_low (rs2 w) (show 6 ≤ 32 by decide)
  have hlt := (Isa.rs2 w).isLt
  rw [hmask, Isa.toNat_immI_mod]
  omega

theorem actionOpImm_eq {op : AluOp} {w : Word} (h : decodeOpImm f₃ f₇ = some op) :
    actionOpImm (f₃.setWidth 32) (f₇.setWidth 32) o (Isa.immI w) (rs2 w) =
      .write (op.eval o.x (Isa.immI w)) := by
  revert h
  rcases funct3_cases f₃ with rfl | rfl | rfl | rfl | rfl | rfl | rfl | rfl <;>
    intro h
  · cases h
    rfl
  · -- `SLLI`
    by_cases h₇ : f₇ = 0
    · subst h₇
      cases h
      show Action.write (o.x <<< _) = _
      rw [shamt_eq]
      rfl
    · replace h : (if f₇ = 0 then some AluOp.sll else none) = some op := h
      rw [if_neg h₇] at h
      cases h
  · cases h
    rfl
  · cases h
    rfl
  · cases h
    rfl
  · -- `SRLI` and `SRAI`
    by_cases h₇ : f₇ = 0
    · subst h₇
      cases h
      show Action.write (o.x >>> _) = _
      rw [shamt_eq]
      rfl
    · by_cases h₂ : f₇ = 0b0100000
      · subst h₂
        cases h
        show Action.write (o.x.sshiftRight _) = _
        rw [shamt_eq]
        rfl
      · replace h : (if f₇ = 0 then some AluOp.srl else if f₇ = 0b0100000 then some AluOp.sra
          else none) = some op := h
        rw [if_neg h₇, if_neg h₂] at h
        cases h
  · cases h
    rfl
  · cases h
    rfl

theorem actionOp_eq {op : AluOp} (h : decodeOp f₃ f₇ = some op) :
    actionOp (f₃.setWidth 32) (f₇.setWidth 32) o = .write (op.eval o.x o.y) := by
  revert h
  by_cases h₇ : f₇ = 0
  · subst h₇
    rcases funct3_cases f₃ with rfl | rfl | rfl | rfl | rfl | rfl | rfl | rfl <;>
      intro h <;> cases h <;> rfl
  · by_cases h₂ : f₇ = 0b0100000
    · subst h₂
      rcases funct3_cases f₃ with rfl | rfl | rfl | rfl | rfl | rfl | rfl | rfl <;>
        intro h <;> cases h <;> rfl
    · intro h
      rw [decodeOp, if_neg h₇, if_neg h₂] at h
      cases h

/-- The upper half of a 64-bit product. -/
theorem setWidth_shiftRight_32 (p : BitVec 64) :
    (p >>> 32).setWidth 32 = p.extractLsb' 32 32 := by
  apply BitVec.eq_of_getLsbD_eq
  intro i hi
  simp [hi]

theorem setWidth_sshiftRight_32 (p : BitVec 64) :
    (p.sshiftRight 32).setWidth 32 = p.extractLsb' 32 32 := by
  apply BitVec.eq_of_getLsbD_eq
  intro i hi
  simp [hi, BitVec.getLsbD_sshiftRight, show ¬ 64 ≤ i by omega, show 32 + i < 64 by omega]

/-- The lower half does not depend on the signs. -/
theorem setWidth_signExtend_mul (x y : Word) :
    (x.signExtend 64 * y.signExtend 64).setWidth 32 = x * y := by
  rw [BitVec.setWidth_mul _ _ (by decide), setWidth_signExtend x (by decide),
    setWidth_signExtend y (by decide)]

theorem actionMulDiv_eq {op : MulOp} (h : decodeMul f₃ f₇ = some op) :
    actionOp (f₃.setWidth 32) (f₇.setWidth 32) o = .write (op.eval o.x o.y) := by
  have h₇ : f₇ = 1 := by
    by_contra hne
    rw [decodeMul, if_neg hne] at h
    cases h
  subst h₇
  revert h
  rcases funct3_cases f₃ with rfl | rfl | rfl | rfl | rfl | rfl | rfl | rfl <;>
    intro h <;> cases h
  · exact congrArg Action.write (setWidth_signExtend_mul o.x o.y)
  · exact congrArg Action.write (setWidth_sshiftRight_32 _)
  · exact congrArg Action.write (setWidth_shiftRight_32 _)

end Rows

/-- The switch selects the row of the instruction. -/
theorem action_of_decode {m : Bool} {w : Word} {i : Instr} (h : decode m w = some i) (pc : Word)
    (o : Operands) : action w pc o = instrAction pc o i := by
  have hop := opcode_eq w
  rcases decode_cases h with ⟨ho, rfl⟩ | ⟨ho, rfl⟩ | ⟨ho, rfl⟩ | ⟨ho, rfl⟩ |
    ⟨ho, op, hf, rfl⟩ | ⟨ho, op, hf, rfl⟩ | ⟨ho, op, hf, rfl⟩ | ⟨ho, op, hf, rfl⟩ |
    ⟨ho, op, hf, rfl⟩ | ⟨ho, -, op, hf, rfl⟩ | ⟨ho, rfl⟩ <;>
    rw [ho] at hop <;> unfold action <;> rw [hop]
  · exact congrArg Action.write (immU_eq w)
  · show Action.write (pc + immU w) = _
    rw [immU_eq]
    rfl
  · show Action.link (pc + immUj w) = _
    rw [immUj_eq]
    rfl
  · show Action.link ((o.jump + immI w) &&& _) = _
    rw [immI_eq]
    rfl
  · show actionBranch (funct3 w) o (pc + immSb w) = _
    rw [funct3_eq, immSb_eq, actionBranch_eq hf]
    rfl
  · show actionLoad (funct3 w) (o.base + immI w) = _
    rw [funct3_eq, immI_eq, actionLoad_eq hf]
    rfl
  · show actionStore (funct3 w) o (o.base + immS w) = _
    rw [funct3_eq, immS_eq, actionStore_eq hf]
    rfl
  · show actionOpImm (funct3 w) (funct7 w) o (immI w) (rs2 w) = _
    rw [funct3_eq, funct7_eq, immI_eq, actionOpImm_eq hf]
    rfl
  · show actionOp (funct3 w) (funct7 w) o = _
    rw [funct3_eq, funct7_eq, actionOp_eq hf]
    rfl
  · show actionOp (funct3 w) (funct7 w) o = _
    rw [funct3_eq, funct7_eq, actionMulDiv_eq hf]
    rfl
  · rfl

end HfRisc.Sim
