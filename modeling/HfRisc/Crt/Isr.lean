import HfRisc.Pipe.Flow

/-!
# The interrupt service routine (`crt0.s` 45-108)

The words of `_isr`, from the NOP at the interrupt vector to the jump back to
`_restore_exception`: `enter` is the part up to the branch on the enabled causes (46-74),
`restore` the one that both handlers return to (76-99), and `exception` what stands in
front of the call of `exception_handler` (100-106). The calls of `irq_handler` and
`exception_handler` (75 and 107) are what the linker makes of them, and parameters here.
-/

namespace HfRisc.Crt

open HfRisc.Rtl

/-! ## The instructions it uses -/

namespace Asm

section Words

variable (rd rs1 rs2 : BitVec 5) (imm : BitVec 12)

/-- `addi rd, rs1, imm`, of the format I: the immediate in the upper 12 bits. -/
def addi : Word := imm ++ rs1 ++ 0b000#3 ++ rd ++ 0b0010011#7

/-- `ori rd, rs1, imm`. -/
def ori : Word := imm ++ rs1 ++ 0b110#3 ++ rd ++ 0b0010011#7

/-- `and rd, rs1, rs2`, of the format R. -/
def and : Word := 0b0000000#7 ++ rs2 ++ rs1 ++ 0b111#3 ++ rd ++ 0b0110011#7

/-- `lw rd, imm(rs1)`. -/
def lw : Word := imm ++ rs1 ++ 0b010#3 ++ rd ++ 0b0000011#7

/-- `sw rs2, imm(rs1)`, of the format S: the immediate is cut in two. -/
def sw : Word := imm.extractLsb' 5 7 ++ rs2 ++ rs1 ++ 0b010#3 ++ imm.extractLsb' 0 5 ++ 0b0100011#7

/-- `lui rd, imm`, of the format U: the immediate is the upper 20 bits. -/
def lui (imm : BitVec 20) : Word := imm ++ rd ++ 0b0110111#7

/-- `jalr rd, rs1, imm`. -/
def jalr : Word := imm ++ rs1 ++ 0b000#3 ++ rd ++ 0b1100111#7

/-- `jal rd, imm`, of the format J; the immediate is the distance in bytes. -/
def jal (imm : BitVec 21) : Word :=
  imm.extractLsb' 20 1 ++ imm.extractLsb' 1 10 ++ imm.extractLsb' 11 1 ++ imm.extractLsb' 12 8 ++
    rd ++ 0b1101111#7

/-- `beq rs1, rs2, imm`, of the format B; the immediate is the distance in bytes. -/
def beq (imm : BitVec 13) : Word :=
  imm.extractLsb' 12 1 ++ imm.extractLsb' 5 6 ++ rs2 ++ rs1 ++ 0b000#3 ++ imm.extractLsb' 1 4 ++
    imm.extractLsb' 11 1 ++ 0b1100011#7

end Words

/-- `ecall`, which `syscall` executes (`crt0.s` 160). -/
def ecall : Word := 0x00000073

/-! ## Registers, under the names that the assembler has for them -/

def zero : BitVec 5 := 0
def ra : BitVec 5 := 1
def sp : BitVec 5 := 2
def t0 : BitVec 5 := 5
def t1 : BitVec 5 := 6
def t2 : BitVec 5 := 7
def a0 : BitVec 5 := 10
def a1 : BitVec 5 := 11
def a2 : BitVec 5 := 12
def a3 : BitVec 5 := 13
def a4 : BitVec 5 := 14
def a5 : BitVec 5 := 15
def a6 : BitVec 5 := 16
def a7 : BitVec 5 := 17
def s10 : BitVec 5 := 26
def s11 : BitVec 5 := 27
def t3 : BitVec 5 := 28
def t4 : BitVec 5 := 29
def t5 : BitVec 5 := 30
def t6 : BitVec 5 := 31

end Asm

/-! ## The routine -/

open Asm

/-- `_isr` (`crt0.s` 46-74): save the registers and the rolled back `IRQ_EPC` in a frame of
68 bytes, and dispatch on `IRQ_CAUSE` and `IRQ_MASK`. -/
def enter : List Word :=
  [Pipe.nop, addi sp sp (-68),
    sw sp ra 0, sw sp t0 4, sw sp t1 8, sw sp t2 12, sw sp a0 16, sw sp a1 20, sw sp a2 24,
    sw sp a3 28, sw sp a4 32, sw sp a5 36, sw sp a6 40, sw sp a7 44, sw sp t3 48, sw sp t4 52,
    sw sp t5 56, sw sp t6 60,
    lui s10 0xf0000, addi s10 s10 0x40, lw s10 s10 0, addi s10 s10 (-4), sw sp s10 64,
    lui a1 0xf0000, lw a0 a1 0x10, lw a2 a1 0x20, and a0 a0 a2, addi a1 sp 0, beq a0 zero 100]

/-- Set `IRQ_STATUS`, with its address in `s10`. -/
def swStatus : Word := sw s10 s11 0

/-- Load the saved program counter. -/
def lwSaved : Word := lw s10 sp (-4)

/-- And jump to it. -/
def jalrSaved : Word := jalr zero s10 0

/-- `_restore` and `_restore_exception` (`crt0.s` 76-99). The exception enters behind the first
two words, so that `a0` and `a1` keep what the handler returns. -/
def restore : List Word :=
  [lw a0 sp 16, lw a1 sp 20,
    lw ra sp 0, lw t0 sp 4, lw t1 sp 8, lw t2 sp 12, lw a2 sp 24, lw a3 sp 28, lw a4 sp 32,
    lw a5 sp 36, lw a6 sp 40, lw a7 sp 44, lw t3 sp 48, lw t4 sp 52, lw t5 sp 56, lw t6 sp 60,
    addi sp sp 68, ori s11 zero 1, lui s10 0xf0000, addi s10 s10 0x30, swStatus, lwSaved,
    jalrSaved]

/-- `_exception`, up to the call (`crt0.s` 100-106): the number of the service and its
arguments go to where C expects them. -/
def exception : List Word := [addi a0 a7 0, lw a1 sp 20, lw a2 sp 24, lw a3 sp 28]

/-- The routine, with its calls of `irq_handler` and `exception_handler`. -/
def isr (callIrq callException : Word) : List Word :=
  enter ++ [callIrq] ++ restore ++ exception ++ [callException, jal zero (-104)]

/-- The routine with a handler that only returns behind it. -/
def isrWithRet : List Word := isr (jal ra 120) (jal ra 8) ++ [jalr zero ra 0]

end HfRisc.Crt
