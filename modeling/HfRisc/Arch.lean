import Mathlib.Data.BitVec

/-!
# What the machines have in common

The word size, the part of the address space where the RAM lies, and the
architectural effects in which the circuits, the instruction set and the
simulator are compared.
-/

namespace HfRisc

/-- A 32-bit bus or register value. -/
abbrev Word := BitVec 32

/-- The RAM lies at `0x4…`: `address(31 downto 28) = "0100"`. -/
def ramSel (address : Word) : Bool := address.extractLsb' 28 4 == 0b0100

/-- An architectural effect: a register file write (never of register 0), or
the bytes of a store with their addresses. -/
inductive Commit
  | reg (rd : BitVec 5) (value : Word)
  | mem (bytes : List (Word × BitVec 8))
deriving DecidableEq, Repr

/-- The effect of writing `v` to register `rd`. -/
def commitReg (rd : BitVec 5) (v : Word) : List Commit :=
  if rd ≠ 0 then [.reg rd v] else []

end HfRisc
