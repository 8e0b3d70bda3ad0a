import HfRisc.Rtl.Alu

/-!
# The ALU of the rv32im core (`alu.vhd`, `mul.vhd`)

`Mul` is the state of the serial multiplier: it takes one multiplier bit a
cycle, or four at once while they are all zero. `MulAlu` is the state of the
ALU around it: the multiplier and the two registers that turn its `rdy` into a
single trigger per instruction.
-/

namespace HfRisc.Rtl

/-- The states of the multiplier. -/
inductive MulState
  | start
  | multiply
  | done
deriving DecidableEq, Repr

/-- The registers of `mul.vhd` at `mul_width = 32`. -/
structure Mul where
  currentState : MulState
  reg : BitVec 65
  i0Reg : Word
  rdySig : Bool
  counter : BitVec 5
deriving DecidableEq, Repr

namespace Mul

/-- `a`: the multiplicand, sign-extended when `sig0` is high. -/
def a (m : Mul) (sig0 : Bool) : BitVec 33 :=
  BitVec.ofBool (sig0 && m.i0Reg.getLsbD 31) ++ m.i0Reg

/-- `add_sub`: the partial product, subtracted at the last bit of a signed
multiplication. -/
def addSub (m : Mul) (sig0 : Bool) : BitVec 33 :=
  if m.counter = 31 ∧ sig0 = true then m.reg.extractLsb' 32 33 - m.a sig0
  else m.reg.extractLsb' 32 33 + m.a sig0

/-- The combinational next state. -/
def nextState (m : Mul) (trg : Bool) : MulState :=
  match m.currentState with
  | .start => if trg then .multiply else .start
  | .multiply => if m.counter = 31 then .done else .multiply
  | .done => .start

/-- One clock edge. -/
def step (m : Mul) (trg sig0 : Bool) (i0 i1 : Word) : Mul :=
  match m.currentState with
  | .start =>
    { m with currentState := m.nextState trg, i0Reg := i0, reg := 0#33 ++ i1, counter := 0 }
  | .multiply =>
    let m' := { m with currentState := m.nextState trg, rdySig := false }
    let top := m.reg.extractLsb' 64 1
    if m.reg.getLsbD 0 then
      { m' with reg := BitVec.ofBool (sig0 && (m.addSub sig0).getLsbD 32) ++ m.addSub sig0 ++
                  m.reg.extractLsb' 1 31
                counter := m.counter + 1 }
    else if m.reg.extractLsb' 0 4 = 0b0000 ∧ m.counter < 28 then
      { m' with reg := top ++ top ++ top ++ top ++ m.reg.extractLsb' 4 61
                counter := m.counter + 4 }
    else
      { m' with reg := top ++ m.reg.extractLsb' 1 64
                counter := m.counter + 1 }
  | .done => { m with currentState := m.nextState trg, rdySig := true }

/-- `o1`: the high half of the product. -/
def o1 (m : Mul) : Word := m.reg.extractLsb' 32 32

/-- `o0`: the low half of the product. -/
def o0 (m : Mul) : Word := m.reg.extractLsb' 0 32

end Mul

/-- The registers of the rv32im ALU, with `alu_wait2` and `alu_wait3`, the two
registers of its datapath that delay `alu_wait`. -/
structure MulAlu where
  mul : Mul
  mulHold : Bool
  mulRdy2 : Bool
  aluWait2 : Bool
  aluWait3 : Bool
deriving DecidableEq, Repr

namespace MulAlu

/-- `mul_trg`: a multiply code meets a multiplier that has been ready for two
cycles. -/
def mulTrg (m : MulAlu) (aluOp : BitVec 4) : Bool :=
  decide (aluOp ≥ 0b1100) && m.mul.rdySig && m.mulRdy2

/-- `alu_wait`: the instruction in execute is not finished. -/
def aluWait (m : MulAlu) (aluOp : BitVec 4) : Bool :=
  m.mulTrg aluOp || m.mulHold || !m.mul.rdySig

/-- `mul_sig0`: the operands are signed. -/
def mulSig0 (aluOp : BitVec 4) : Bool := !aluOp.getLsbD 1

/-- One clock edge of the ALU and of the two delay registers. -/
def step (m : MulAlu) (op1 op2 : Word) (aluOp : BitVec 4) : MulAlu where
  mul := m.mul.step (m.mulTrg aluOp) (mulSig0 aluOp) op1 op2
  mulHold := m.mulTrg aluOp
  mulRdy2 := m.mul.rdySig
  aluWait2 := m.aluWait aluOp
  aluWait3 := m.aluWait2

end MulAlu

/-- `core_rv32im_nodiv/alu.vhd`: the combinational outputs. -/
def aluRv32im (m : MulAlu) (op1 op2 : Word) (aluOp : BitVec 4) : AluOut :=
  let left := !aluOp.getLsbD 1
  let logical := aluOp.extractLsb' 0 2 != 0b11
  let shift := bshift left logical (op2.extractLsb' 0 5) op1
  let rest :=
    if aluOp = 0b1001 ∨ aluOp = 0b1010 ∨ aluOp = 0b1011 then shift
    else if aluOp = 0b1100 then m.mul.o0
    else m.mul.o1
  let r := aluResult op1 op2 aluOp rest
  { result := r
    zero := r == 0
    lessThan := less op1 op2 aluOp }

end HfRisc.Rtl
