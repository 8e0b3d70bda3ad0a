import HfRisc.Mips.Spec
import HfRisc.Sim.Decode

/-!
# The MIPS simulator (`hf_risc_sim.c`)

Its `state` is that of the RISC-V simulators with `hi`, `lo` and two flags, and
without a cycle count; the counters of the statistics and the message of an unknown
opcode are left out. Host integers are words as in `Sim/State.lean`.

`action` is the instruction switch, with the registers in the order in which the rows
read and write them: a link is written before the row reads `r[rs]`.
-/

namespace HfRisc.Mips.Sim

open HfRisc.Sim (Base Size CType truth index EXIT_TRAP UART0)

/-! ## State -/

/-- The ways out of `cycle`. -/
inductive Stop
  /-- `unaligned access (load|store …) pc=… addr=…`, exit code 1. -/
  | unaligned (store : Bool) (size : Size) (pc address : Word)
  /-- `end of simulation.`, exit code 0. -/
  | endOfSimulation
  /-- The C program has no defined behaviour. -/
  | undefined
deriving DecidableEq, Repr

/-- The state of the simulator; `cycles` of the base is not used. `j` says that the
last instruction was a branch or jump, `nox_bds` that its delay slot is not executed. -/
structure State extends Base where
  hi : Word
  lo : Word
  j : Bool
  noxBds : Bool

/-! ## Memory -/

/-- `ntohs`, on a value of sixteen bits, and `htons`. -/
def ntohs (a : Word) : Word := (a >>> (8 : ℕ)) ||| ((a &&& 0xff) <<< (8 : ℕ))

/-- `ntohl` and `htonl`. -/
def ntohl (a : Word) : Word :=
  (a >>> (24 : ℕ)) ||| ((a &&& 0xff0000) >>> (8 : ℕ)) ||| ((a &&& 0xff00) <<< (8 : ℕ)) |||
    (a <<< (24 : ℕ))

namespace State

variable (s : State)

/-- The host's unsigned value at an offset of the array, in the order of the target. -/
def value (size : Size) (k : BitVec 20) : Word :=
  match size with
  | .byte => (s.mem k).setWidth 32
  | .half => ntohs ((s.mem (k + 1) ++ s.mem k).setWidth 32)
  | .word => ntohl (s.mem (k + 3) ++ s.mem (k + 2) ++ s.mem (k + 1) ++ s.mem k)

/-- `mem_read`: the value, and the state after `getchar` where the UART is read. -/
def memRead (size : Size) (address : Word) : Except Stop (Word × State) :=
  if address = UART0 then .ok (s.getchar.1, { s with toBase := s.getchar.2 })
  else
    match s.register address with
    | some value => .ok (value, s)
    | none =>
      if EXIT_TRAP ≤ address then .ok (0, s)
      else if address &&& size.unaligned ≠ 0 then .error (.unaligned false size s.pc address)
      else .ok (s.value size (Base.offset address), s)

/-- What `mem_write` hands to the host. -/
def hostOrder (size : Size) (value : Word) : Word :=
  match size with
  | .byte => value
  | .half => ntohs (value &&& 0xffff)
  | .word => ntohl value

/-- `mem_write`. -/
def memWrite (size : Size) (address value : Word) : Except Stop State :=
  if address = EXIT_TRAP then .error .endOfSimulation
  else
    match s.setRegister address value with
    | some b => .ok { s with toBase := b }
    | none =>
      if EXIT_TRAP ≤ address then .ok s
      else if address &&& size.unaligned ≠ 0 then .error (.unaligned true size s.pc address)
      else .ok { s with toBase := s.poke size (Base.offset address) (hostOrder size value) }

/-- `r[k] = v`. -/
def setReg (k : BitVec 5) (v : Word) : State := { s with toBase := s.toBase.setReg k v }

end State

/-! ## Fields -/

section Fields

variable (opcode : Word)

def op : Word := (opcode >>> (26 : ℕ)) &&& 0x3f
def rs : Word := (opcode >>> (21 : ℕ)) &&& 0x1f
def rt : Word := (opcode >>> (16 : ℕ)) &&& 0x1f
def rd : Word := (opcode >>> (11 : ℕ)) &&& 0x1f
def re : Word := (opcode >>> (6 : ℕ)) &&& 0x1f
def func : Word := opcode &&& 0x3f
def imm : Word := opcode &&& 0xffff

/-- `(int16_t)imm`. -/
def simm : Word := ((imm opcode).setWidth 16).signExtend 32

def immShift : Word := (simm opcode <<< (2 : ℕ)) - 4
def target : Word := (opcode <<< (6 : ℕ)) >>> (4 : ℕ)

end Fields

/-! ## Multiplication -/

/-- `mult_unsigned`: `hi` and `lo` from four products of halves. -/
def multUnsigned (a b : Word) : Word × Word :=
  let ahi := a >>> (16 : ℕ)
  let alo := a &&& 0xffff
  let bhi := b >>> (16 : ℕ)
  let blo := b &&& 0xffff
  let c0 := alo * blo
  let c1a := ahi * blo
  let c1b := alo * bhi
  let c2 := ahi * bhi + ((c1a >>> (16 : ℕ)) + (c1b >>> (16 : ℕ)))
  let c1 := (c1a &&& 0xffff) + (c1b &&& 0xffff) + (c0 >>> (16 : ℕ))
  (c2 + (c1 >>> (16 : ℕ)), (c1 <<< (16 : ℕ)) + (c0 &&& 0xffff))

/-- `mult_signed`: the upper halves and the mixed products are signed. -/
def multSigned (a b : Word) : Word × Word :=
  let ahi := a.sshiftRight 16
  let alo := a &&& 0xffff
  let bhi := b.sshiftRight 16
  let blo := b &&& 0xffff
  let c0 := alo * blo
  let c1a := ahi * blo
  let c1b := alo * bhi
  let c2 := ahi * bhi + (c1a.sshiftRight 16 + c1b.sshiftRight 16)
  let c1 := (c1a &&& 0xffff) + (c1b &&& 0xffff) + (c0 >>> (16 : ℕ))
  (c2 + (c1 >>> (16 : ℕ)), (c1 <<< (16 : ℕ)) + (c0 &&& 0xffff))

/-! ## The instruction switch -/

/-- What a row of the switch does. -/
inductive Action
  /-- `r[k] = v` -/
  | write (k : BitVec 5) (v : Word)
  /-- `s->hi = hi; s->lo = lo` -/
  | hilo (hi lo : Word)
  /-- `s->hi = s->lo = 0; r[k] = v`: a division by zero falls through to `ADDU` -/
  | clearWrite (k : BitVec 5) (v : Word)
  /-- `r[k] = s->pc_next` if there is a link, `s->pc_next = target; s->j = 1` -/
  | jump (link : Option (BitVec 5)) (target : Word)
  /-- `r[31] = s->pc_next` if there is a link, `branch = taken; s->j = 1` -/
  | branch (link : Option (BitVec 5)) (taken : Bool)
  /-- `r[k] = (type)mem_read(s, size, address)` -/
  | load (type : CType) (size : Size) (k : BitVec 5) (address : Word)
  /-- `mem_write(s, size, address, v)` -/
  | store (size : Size) (address v : Word)
  /-- the message of an unknown opcode -/
  | invalid
  /-- C gives the row no meaning -/
  | undefined
deriving DecidableEq, Repr

section Switch

variable (s : State) (opcode : Word)

/-- `r[rs]` and `r[rt]`. -/
def x : Word := s.r (index (rs opcode))

@[inherit_doc x]
def y : Word := s.r (index (rt opcode))

/-- `r[rs]` after `r[k] = s->pc_next`. -/
def linked (k : BitVec 5) : Word := x (s.setReg k s.pcNext) opcode

/-- The rows of opcode `0x00`. -/
def actionSpecial : Action :=
  let k := index (rd opcode)
  let x := x s opcode
  let y := y s opcode
  if func opcode = 0x00 then .write k (y <<< ((re opcode).toNat % 32))                  -- SLL
  else if func opcode = 0x02 then .write k (y >>> ((re opcode).toNat % 32))             -- SRL
  else if func opcode = 0x03 then .write k (y.sshiftRight ((re opcode).toNat % 32))     -- SRA
  else if func opcode = 0x04 then .write k (y <<< (x.toNat % 32))                       -- SLLV
  else if func opcode = 0x06 then .write k (y >>> (x.toNat % 32))                       -- SRLV
  else if func opcode = 0x07 then .write k (y.sshiftRight (x.toNat % 32))               -- SRAV
  else if func opcode = 0x08 then .jump none x                                          -- JR
  else if func opcode = 0x09 then .jump (some k) (linked s opcode k)                    -- JALR
  else if func opcode = 0x10 then .write k s.hi                                         -- MFHI
  else if func opcode = 0x11 then .hilo x s.lo                                          -- MTHI
  else if func opcode = 0x12 then .write k s.lo                                         -- MFLO
  else if func opcode = 0x13 then .hilo s.hi x                                          -- MTLO
  else if func opcode = 0x18 then .hilo (multSigned x y).1 (multSigned x y).2           -- MULT
  else if func opcode = 0x19 then .hilo (multUnsigned x y).1 (multUnsigned x y).2       -- MULTU
  else if func opcode = 0x1a then                                                       -- DIV
    if y = 0 then .clearWrite k (x + y)
    else if x = BitVec.intMin 32 ∧ y = -1 then .undefined
    else .hilo (x.srem y) (x.sdiv y)
  else if func opcode = 0x1b then                                                       -- DIVU
    if y = 0 then .clearWrite k (x + y) else .hilo (x % y) (x / y)
  else if func opcode = 0x21 then .write k (x + y)                                      -- ADDU
  else if func opcode = 0x23 then .write k (x - y)                                      -- SUBU
  else if func opcode = 0x24 then .write k (x &&& y)                                    -- AND
  else if func opcode = 0x25 then .write k (x ||| y)                                    -- OR
  else if func opcode = 0x26 then .write k (x ^^^ y)                                    -- XOR
  else if func opcode = 0x27 then .write k (~~~(x ||| y))                               -- NOR
  else if func opcode = 0x2a then .write k (truth (x.slt y))                            -- SLT
  else if func opcode = 0x2b then .write k (truth (x.ult y))                            -- SLTU
  else .invalid

/-- The rows of opcode `0x01`; each linking row falls through to the one behind it. -/
def actionRegimm : Action :=
  if rt opcode = 0x10 then .branch (some 31) ((linked s opcode 31).slt 0)               -- BLTZAL
  else if rt opcode = 0x00 then .branch none ((x s opcode).slt 0)                       -- BLTZ
  else if rt opcode = 0x11 then .branch (some 31) (!(linked s opcode 31).slt 0)         -- BGEZAL
  else if rt opcode = 0x01 then .branch none (!(x s opcode).slt 0)                      -- BGEZ
  else .invalid

/-- The switch over `op`, with `ptr` the address of a load or store. -/
def action (ptr : Word) : Action :=
  let k := index (rt opcode)
  let x := x s opcode
  let y := y s opcode
  if op opcode = 0x00 then actionSpecial s opcode
  else if op opcode = 0x01 then actionRegimm s opcode
  else if op opcode = 0x03 then                                                         -- JAL
    .jump (some 31) ((s.pc &&& 0xf0000000) ||| target opcode)
  else if op opcode = 0x02 then .jump none ((s.pc &&& 0xf0000000) ||| target opcode)    -- J
  else if op opcode = 0x04 then .branch none (x == y)                                   -- BEQ
  else if op opcode = 0x05 then .branch none (x != y)                                   -- BNE
  else if op opcode = 0x06 then .branch none (x.sle 0)                                  -- BLEZ
  else if op opcode = 0x07 then .branch none (!x.sle 0)                                 -- BGTZ
  else if op opcode = 0x09 then .write k (x + simm opcode)                              -- ADDIU
  else if op opcode = 0x0a then .write k (truth (x.slt (simm opcode)))                  -- SLTI
  else if op opcode = 0x0b then .write k (truth (x.ult (simm opcode)))                  -- SLTIU
  else if op opcode = 0x0c then .write k (x &&& imm opcode)                             -- ANDI
  else if op opcode = 0x0d then .write k (x ||| imm opcode)                             -- ORI
  else if op opcode = 0x0e then .write k (x ^^^ imm opcode)                             -- XORI
  else if op opcode = 0x0f then .write k (imm opcode <<< (16 : ℕ))                      -- LUI
  else if op opcode = 0x20 then .load .int8 .byte k ptr                                 -- LB
  else if op opcode = 0x21 then .load .int16 .half k ptr                                -- LH
  else if op opcode = 0x23 then .load .int32 .word k ptr                                -- LW
  else if op opcode = 0x24 then .load .uint8 .byte k ptr                                -- LBU
  else if op opcode = 0x25 then .load .uint16 .half k ptr                               -- LHU
  else if op opcode = 0x28 then .store .byte ptr y                                      -- SB
  else if op opcode = 0x29 then .store .half ptr y                                      -- SH
  else if op opcode = 0x2b then .store .word ptr y                                      -- SW
  else .invalid

end Switch

/-- The variable `branch` at the end of the switch. -/
def Action.taken : Action → Bool
  | .branch _ taken => taken
  | _ => false

/-! ## One cycle -/

namespace State

variable (s : State)

/-- `r[k] = s->pc_next`, if there is a link. -/
def link : Option (BitVec 5) → State
  | some k => s.setReg k s.pcNext
  | none => s

/-- What a row of the switch does to the state. -/
def perform : Action → Except Stop State
  | .write k v => .ok (s.setReg k v)
  | .hilo hi lo => .ok { s with hi := hi, lo := lo }
  | .clearWrite k v => .ok ({ s with hi := 0, lo := 0 }.setReg k v)
  | .jump k target => .ok { s.link k with pcNext := target, j := true }
  | .branch k _ => .ok { s.link k with j := true }
  | .load type size k address => do
    let (value, s') ← s.memRead size address
    .ok (s'.setReg k (type.cast value))
  | .store size address v => s.memWrite size address v
  | .invalid => .ok s
  | .undefined => .error .undefined

/-- An interrupt is taken at the head of `cycle`: not in a delay slot. -/
def pending : Prop := s.status ≠ 0 ∧ s.cause &&& s.mask ≠ 0 ∧ s.j = false

instance : Decidable s.pending := inferInstanceAs (Decidable (_ ∧ _))

/-- The jump to the handler; the instruction fetched next is skipped. -/
def enter : State :=
  { s with
    epc := s.pc + 4
    pcNext := s.vector
    status := 0
    statusDly := fun _ => 0
    noxBds := true }

/-- Between the fetch and the switch. -/
def head : State :=
  let b := (s.setReg 0 0).toBase.shiftStatus
  { s with
    toBase := { b with pc := s.pcNext, pcNext := s.pcNext + 4 }
    j := false }

/-- `imm_shift` is added to `pc_next` for a taken branch. -/
def step (offset : Word) : State := { s with pcNext := (s.pcNext + offset) &&& ~~~3#32 }

/-- The causes and counters at the end of `cycle`. -/
def tick : State :=
  let timercause := s.timercauseNext
  let s0cause : Word := if (timercause ^^^ s.timercauseInv) &&& s.timermask ≠ 0 then 0x04 else 0x00
  { s with
    timercause := timercause
    s0cause := s0cause
    cause := if s0cause ≠ 0 then 0x01 else 0x00
    timer0 := s.timer0 + 1
    timer1 := s.timer1Next }

/-- The switch on the fetched word, and what follows it. -/
def execute (opcode ptr : Word) : Except Stop State := do
  let a := action s opcode ptr
  let s' ← s.perform a
  .ok (s'.step (if a.taken then immShift opcode else 0)).tick

/-- `cycle`; `ptr` is computed before `r[0] = 0`. -/
def cycle : Except Stop State :=
  if s.pending then .ok s.enter
  else do
    let (opcode, s') ← s.memRead .word s.pc
    let ptr := simm opcode + x s' opcode
    if s'.noxBds then .ok { s'.head with noxBds := false }
    else s'.head.execute opcode ptr

end State

end HfRisc.Mips.Sim
