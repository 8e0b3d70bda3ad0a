import HfRisc.Mips.Simulator
import HfRisc.Sim.Rows
import Mathlib.Tactic.IntervalCases

/-!
# The rows of the MIPS switch are the instructions

`instrAction` says what an instruction is as a row of the switch, and
`action_of_decodes` that the switch selects this row. What the row reads in `r`
stays as the source reads it: `JALR`, `BLTZAL` and `BGEZAL` after their link.
-/

namespace HfRisc.Mips.Sim

open HfRisc.Lib
open HfRisc.Sim (index index_setWidth slice_eq toNat_and_low truth typeOf loadSize storeSize)
open HfRisc.Isa (LoadOp StoreOp)

/-- An instruction as a row of the switch, in the state in which the switch is
entered. -/
def instrAction (s : State) (ptr : Word) : Instr → Action
  | .shift op rd rt shamt => .write rd (op.eval shamt.toNat (s.r rt))
  | .shiftV op rd rt rs => .write rd (op.eval ((s.r rs).toNat % 32) (s.r rt))
  | .reg op rd rs rt => .write rd (op.eval (s.r rs) (s.r rt))
  | .imm op rt rs imm => .write rt (op.eval (s.r rs) imm)
  | .jr rs => .jump none (s.r rs)
  | .jalr rd rs => .jump (some rd) ((s.setReg rd s.pcNext).r rs)
  | .j index => .jump none (s.pc.extractLsb' 28 4 ++ index ++ 0#2)
  | .jal index => .jump (some 31) (s.pc.extractLsb' 28 4 ++ index ++ 0#2)
  | .branch op rs rt _ => .branch none (op.holds (s.r rs) (s.r rt))
  | .branchZero op rs _ => .branch none (op.holds (s.r rs))
  | .branchLink op rs _ => .branch (some 31) (op.holds ((s.setReg 31 s.pcNext).r rs))
  | .load op rt _ _ => .load (typeOf op) (loadSize op) rt ptr
  | .store op rt _ _ => .store (storeSize op) ptr (s.r rt)

/-! ## Fields -/

section Fields

variable (w : Word)

theorem op_eq : op w = (opcode w).setWidth 32 := slice_eq w 26 6 (by decide)

theorem rt_eq : rt w = (Mips.rt w).setWidth 32 := slice_eq w 16 5 (by decide)

theorem re_eq : re w = (shamt w).setWidth 32 := slice_eq w 6 5 (by decide)

theorem func_eq : func w = (funct w).setWidth 32 := by
  have h := slice_eq w 0 6 (by decide)
  rw [BitVec.ushiftRight_zero] at h
  exact h

theorem imm_eq : imm w = (Mips.imm w).setWidth 32 := by
  have h := slice_eq w 0 16 (by decide)
  rw [BitVec.ushiftRight_zero] at h
  exact h

@[simp] theorem index_rs : index (rs w) = Mips.rs w := by
  rw [show rs w = (Mips.rs w).setWidth 32 from slice_eq w 21 5 (by decide), index_setWidth]

@[simp] theorem index_rt : index (rt w) = Mips.rt w := by rw [rt_eq, index_setWidth]

@[simp] theorem index_rd : index (rd w) = Mips.rd w := by
  rw [show rd w = (Mips.rd w).setWidth 32 from slice_eq w 11 5 (by decide), index_setWidth]

theorem simm_eq : simm w = (Mips.imm w).signExtend 32 := by
  rw [simm, imm_eq, BitVec.setWidth_setWidth_of_le _ (by decide), BitVec.setWidth_eq]

/-- The amount of a shift is below 32. -/
theorem shamt_mod : (re w).toNat % 32 = (shamt w).toNat := by
  have hlt := (shamt w).isLt
  rw [re_eq, BitVec.toNat_setWidth]
  omega

/-- The upper half of a word. -/
theorem shift_imm : imm w <<< (16 : ℕ) = Mips.imm w ++ 0#16 := by
  apply BitVec.eq_of_toNat_eq
  have hlt := (Mips.imm w).isLt
  rw [imm_eq, BitVec.toNat_shiftLeft, Nat.shiftLeft_eq, toNat_append, BitVec.toNat_setWidth]
  simp
  omega

/-- The segment of `pc` and the index of a jump do not overlap. -/
theorem target_eq (pc : Word) :
    (pc &&& 0xf0000000) ||| target w = pc.extractLsb' 28 4 ++ jumpIndex w ++ 0#2 := by
  apply BitVec.eq_of_getLsbD_eq
  intro i hi
  rw [target, jumpIndex]
  simp only [BitVec.getLsbD_append]
  interval_cases i <;> simp

end Fields

/-! ## Rows -/

section Rows

variable {s : State} {w : Word}

theorem actionSpecial_shift {op : ShiftOp} (h : decodeShift (funct w) = some op) :
    actionSpecial s w = .write (Mips.rd w) (op.eval (shamt w).toNat (s.r (Mips.rt w))) := by
  unfold actionSpecial x y
  rw [func_eq, eq_of_decodeShift h, index_rd, index_rs, index_rt, shamt_mod]
  cases op <;> rfl

theorem actionSpecial_shiftV {op : ShiftOp} (h : decodeShiftV (funct w) = some op) :
    actionSpecial s w = .write (Mips.rd w)
      (op.eval ((s.r (Mips.rs w)).toNat % 32) (s.r (Mips.rt w))) := by
  unfold actionSpecial x y
  rw [func_eq, eq_of_decodeShiftV h, index_rd, index_rs, index_rt]
  cases op <;> rfl

theorem actionSpecial_reg {op : RegOp} (h : decodeReg (funct w) = some op) :
    actionSpecial s w = .write (Mips.rd w)
      (op.eval (s.r (Mips.rs w)) (s.r (Mips.rt w))) := by
  unfold actionSpecial x y
  rw [func_eq, eq_of_decodeReg h, index_rd, index_rs, index_rt]
  cases op <;> rfl

theorem action_imm {op : ImmOp} (h : decodeImm (opcode w) = some op) (ptr : Word) :
    action s w ptr = .write (Mips.rt w) (op.eval (s.r (Mips.rs w)) (Mips.imm w)) := by
  unfold action x y
  rw [op_eq, eq_of_decodeImm h, index_rs, index_rt, simm_eq, shift_imm, imm_eq]
  cases op <;> rfl

theorem actionRegimm_sign {op : ZeroOp} (h : decodeSign (Mips.rt w) = some op) :
    actionRegimm s w = .branch none (op.holds (s.r (Mips.rs w))) := by
  unfold actionRegimm x
  rw [rt_eq, index_rs]
  rcases of_decodeSign h with ⟨rfl, hr⟩ | ⟨rfl, hr⟩ <;> rw [hr, ZeroOp.holds]
  · exact congrArg (Action.branch none) BitVec.slt_zero_eq_msb
  · exact congrArg (fun b => Action.branch none !b) BitVec.slt_zero_eq_msb

theorem actionRegimm_link {op : ZeroOp} (h : decodeLink (Mips.rt w) = some op) :
    actionRegimm s w =
      .branch (some 31) (op.holds ((s.setReg 31 s.pcNext).r (Mips.rs w))) := by
  unfold actionRegimm linked x
  rw [rt_eq, index_rs]
  rcases of_decodeLink h with ⟨rfl, hr⟩ | ⟨rfl, hr⟩ <;> rw [hr, ZeroOp.holds]
  · exact congrArg (Action.branch (some 31)) BitVec.slt_zero_eq_msb
  · exact congrArg (fun b => Action.branch (some 31) !b) BitVec.slt_zero_eq_msb

theorem action_pair {op : PairOp} (h : decodePair (opcode w) = some op) (ptr : Word) :
    action s w ptr = .branch none (op.holds (s.r (Mips.rs w)) (s.r (Mips.rt w))) := by
  unfold action x y
  rw [op_eq, eq_of_decodePair h, index_rs, index_rt]
  cases op <;> rfl

/-- Not above zero: the sign, or the zero. -/
theorem sle_zero (x : Word) : x.sle 0 = (x.msb || x == 0) := by
  rw [BitVec.sle_eq_slt_or_eq]
  exact congrArg (· || x == 0) BitVec.slt_zero_eq_msb

theorem action_zero {op : ZeroOp} (h : decodeZero (opcode w) = some op) (ptr : Word) :
    action s w ptr = .branch none (op.holds (s.r (Mips.rs w))) := by
  unfold action x y
  rw [op_eq, index_rs, index_rt]
  rcases of_decodeZero h with ⟨rfl, hr⟩ | ⟨rfl, hr⟩ <;> rw [hr, ZeroOp.holds]
  · exact congrArg (Action.branch none) (sle_zero _)
  · refine congrArg (Action.branch none) ?_
    rw [sle_zero, Bool.not_or]
    rfl

theorem action_load {op : LoadOp} (h : decodeLoad (opcode w) = some op) (ptr : Word) :
    action s w ptr = .load (typeOf op) (loadSize op) (Mips.rt w) ptr := by
  unfold action
  rw [op_eq, eq_of_decodeLoad h, index_rt]
  cases op <;> rfl

theorem action_store {op : StoreOp} (h : decodeStore (opcode w) = some op) (ptr : Word) :
    action s w ptr = .store (storeSize op) ptr (s.r (Mips.rt w)) := by
  unfold action y
  rw [op_eq, eq_of_decodeStore h, index_rt]
  cases op <;> rfl

/-- The switch selects the row of the instruction. -/
theorem action_of_decodes {i : Instr} (h : Decodes w i) (ptr : Word) :
    action s w ptr = instrAction s ptr i := by
  have hspecial : opcode w = 0b000000 → action s w ptr = actionSpecial s w := by
    intro ho
    unfold action
    rw [op_eq, ho]
    rfl
  have hregimm : opcode w = 0b000001 → action s w ptr = actionRegimm s w := by
    intro ho
    unfold action
    rw [op_eq, ho]
    rfl
  cases h with
  | jr ho hf =>
    rw [hspecial ho]
    unfold actionSpecial x
    rw [func_eq, hf, index_rs]
    rfl
  | jalr ho hf =>
    rw [hspecial ho]
    unfold actionSpecial linked x
    rw [func_eq, hf, index_rs, index_rd]
    rfl
  | shift ho hf => exact (hspecial ho).trans (actionSpecial_shift hf)
  | shiftV ho hf => exact (hspecial ho).trans (actionSpecial_shiftV hf)
  | reg ho hf => exact (hspecial ho).trans (actionSpecial_reg hf)
  | sign ho hf => exact (hregimm ho).trans (actionRegimm_sign hf)
  | link ho hf => exact (hregimm ho).trans (actionRegimm_link hf)
  | j ho =>
    unfold action
    rw [op_eq, ho, target_eq]
    rfl
  | jal ho =>
    unfold action
    rw [op_eq, ho, target_eq]
    rfl
  | pair ho => exact action_pair ho ptr
  | zero ho => exact action_zero ho ptr
  | imm ho => exact action_imm ho ptr
  | load ho => exact action_load ho ptr
  | store ho => exact action_store ho ptr

end Rows

end HfRisc.Mips.Sim
