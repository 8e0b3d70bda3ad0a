import HfRisc.Rtl.Control

/-!
# The ALU of the rv32i core (`alu.vhd`, `bshifter.vhd`)

The adder/subtractor with its borrow bit, the comparison built on it, the
five-stage barrel shifter and the result multiplexer. The rv32im core reuses
all of it with other codes for the shifts (`Rtl/Mul.lean`), so the parts are
separate definitions.
-/

namespace HfRisc.Rtl

/-! ## The barrel shifter -/

/-- `fill`: copies of the sign for an arithmetic right shift. -/
def bshiftFill (logical : Bool) (input : Word) : BitVec 16 :=
  if logical = false then (if input.getLsbD 31 then 0xffff else 0x0000) else 0x0000

/-- The left half: five conditional shifts by 1, 2, 4, 8 and 16. -/
def bshiftLeft (shift : BitVec 5) (input : Word) : Word :=
  let shift1l : Word :=
    if shift.getLsbD 0 then input.extractLsb' 0 31 ++ 0#1 else input
  let shift2l : Word :=
    if shift.getLsbD 1 then shift1l.extractLsb' 0 30 ++ 0#2 else shift1l
  let shift4l : Word :=
    if shift.getLsbD 2 then shift2l.extractLsb' 0 28 ++ 0#4 else shift2l
  let shift8l : Word :=
    if shift.getLsbD 3 then shift4l.extractLsb' 0 24 ++ 0#8 else shift4l
  if shift.getLsbD 4 then shift8l.extractLsb' 0 16 ++ 0#16 else shift8l

/-- The right half: the same stages, filling from the top with `fill`. -/
def bshiftRight (fill : BitVec 16) (shift : BitVec 5) (input : Word) : Word :=
  let shift1r : Word :=
    if shift.getLsbD 0 then fill.extractLsb' 15 1 ++ input.extractLsb' 1 31 else input
  let shift2r : Word :=
    if shift.getLsbD 1 then fill.extractLsb' 14 2 ++ shift1r.extractLsb' 2 30 else shift1r
  let shift4r : Word :=
    if shift.getLsbD 2 then fill.extractLsb' 12 4 ++ shift2r.extractLsb' 4 28 else shift2r
  let shift8r : Word :=
    if shift.getLsbD 3 then fill.extractLsb' 8 8 ++ shift4r.extractLsb' 8 24 else shift4r
  if shift.getLsbD 4 then fill ++ shift8r.extractLsb' 16 16 else shift8r

/-- `bshift`: `left` selects the direction, `logical` the fill. -/
def bshift (left logical : Bool) (shift : BitVec 5) (input : Word) : Word :=
  if left = false then bshiftRight (bshiftFill logical input) shift input
  else bshiftLeft shift input

/-! ## Adder, comparison, result -/

/-- The outputs of the ALU. -/
structure AluOut where
  result : Word
  zero : Bool
  lessThan : Bool
deriving DecidableEq, Repr

/-- `addsub`: 33 bits, so that bit 32 is the carry or the borrow. -/
def addsub (op1 op2 : Word) (aluOp : BitVec 4) : BitVec 33 :=
  if aluOp > 0b0100 then (0#1 ++ op1) - (0#1 ++ op2) else (0#1 ++ op1) + (0#1 ++ op2)

/-- `less`: the borrow where the signs agree or the comparison is unsigned,
else the sign of the first operand. -/
def less (op1 op2 : Word) (aluOp : BitVec 4) : Bool :=
  if op1.getLsbD 31 = op2.getLsbD 31 ∨ aluOp = 0b1000 then (addsub op1 op2 aluOp).getLsbD 32
  else op1.getLsbD 31

/-- The codes below the shifts, common to both cores; `rest` is what the
`when others` branch selects. -/
def aluResult (op1 op2 : Word) (aluOp : BitVec 4) (rest : Word) : Word :=
  if aluOp = 0b0000 then op1 &&& op2
  else if aluOp = 0b0001 then op1 ||| op2
  else if aluOp = 0b0010 then op1 ^^^ op2
  else if aluOp = 0b0100 ∨ aluOp = 0b0101 then (addsub op1 op2 aluOp).extractLsb' 0 32
  else if aluOp = 0b0110 then op2
  else if aluOp = 0b0111 ∨ aluOp = 0b1000 then 0#31 ++ BitVec.ofBool (less op1 op2 aluOp)
  else rest

/-- `core_rv32i/alu.vhd`. -/
def aluRv32i (op1 op2 : Word) (aluOp : BitVec 4) : AluOut :=
  let left := aluOp.getLsbD 0
  let logical := !aluOp.getLsbD 2
  let shift := bshift left logical (op2.extractLsb' 0 5) op1
  let r := aluResult op1 op2 aluOp shift
  { result := r
    zero := r == 0
    lessThan := less op1 op2 aluOp }

end HfRisc.Rtl
