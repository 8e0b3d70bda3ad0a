import HfRisc.Lib.Mealy
import HfRisc.Sim.Decode

/-!
# The plain simulator (`hf_riscv_sim.c`)

`mem_fetch`, `mem_read`, `mem_write` and `cycle`, and the loop of `main` that
drives one input pin from `timer0` before every cycle.
-/

namespace HfRisc.Sim

namespace State

variable (s : State)

/-- The GPIO registers that a read returns, then those of `Base`. -/
def register (address : Word) : Option Word :=
  if address = GPIOCAUSE then some s.gpiocause
  else if address = GPIOCAUSEINV then some s.gpiocauseInv
  else if address = GPIOMASK then some s.gpiomask
  else if address = PADDR then some s.paddr
  else if address = PAOUT then some s.paout
  else if address = PAIN then some s.pain
  else if address = PAININV then some s.painInv
  else if address = PAINMASK then some s.painMask
  else s.toBase.register address

/-- The GPIO registers that a write changes, then those of `Base`. -/
def setRegister (address value : Word) : Option State :=
  if address = GPIOCAUSE then some { s with gpiocause := value &&& 0xffff }
  else if address = GPIOCAUSEINV then some { s with gpiocauseInv := value &&& 0xffff }
  else if address = GPIOMASK then some { s with gpiomask := value &&& 0xffff }
  else if address = PADDR then some { s with paddr := value &&& 0xffff }
  else if address = PAOUT then some { s with paout := value &&& 0xffff }
  else if address = PAININV then some { s with painInv := value &&& 0xffff }
  else if address = PAINMASK then some { s with painMask := value &&& 0xffff }
  else (s.toBase.setRegister address value).map fun b => { s with toBase := b }

/-- `mem_fetch`. -/
def memFetch (address : Word) : Except Stop Word := s.toBase.fetch address

/-- `mem_read`: the value, and the state after `getchar` where the UART is read. -/
def memRead (size : Size) (address : Word) : Except Stop (Word × State) :=
  if address = UART0 then .ok (s.getchar.1, { s with toBase := s.getchar.2 })
  else
    match s.register address with
    | some value => .ok (value, s)
    | none =>
      if EXIT_TRAP ≤ address then .ok (0, s)
      else if address &&& size.unaligned ≠ 0 then .error (.unaligned false size s.pc address)
      else .ok (s.peek size (Base.offset address), s)

/-- `mem_write`. -/
def memWrite (size : Size) (address value : Word) : Except Stop State :=
  if address = EXIT_TRAP then .error (.endOfSimulation s.cycles (s.r 10))
  else
    match s.setRegister address value with
    | some s' => .ok s'
    | none =>
      if EXIT_TRAP ≤ address then .ok s
      else if address &&& size.unaligned ≠ 0 then .error (.unaligned true size s.pc address)
      else .ok { s with toBase := s.poke size (Base.offset address) value }

/-- `r[k] = v`. -/
def setReg (k : BitVec 5) (v : Word) : State := { s with toBase := s.toBase.setReg k v }

/-- The `SYSTEM` row: `SBREAK` waits for a key, `SCALL` and the CSR instructions
raise the exception. -/
def system (inst : Word) : Except Stop State :=
  if funct3 inst = 0 then
    if immI inst = 0 then .ok { s with exception := 1 }
    else if immI inst = 1 then .ok { s with toBase := s.getchar.2 }
    else .error (.invalidOpcode s.pc inst)
  else .ok { s with exception := 1 }

/-- What a row of the switch does to the state. -/
def perform (inst : Word) : Action → Except Stop State
  | .write v => .ok (s.setReg (index (rd inst)) v)
  | .link target =>
    .ok { s.setReg (index (rd inst)) s.pcNext with pcNext := target }
  | .branch taken target => .ok (if taken then { s with pcNext := target } else s)
  | .load type size address => do
    let (value, s') ← s.memRead size address
    .ok (s'.setReg (index (rd inst)) (type.cast value))
  | .store size address v => s.memWrite size address v
  | .system => s.system inst
  | .fail => .error (.invalidOpcode s.pc inst)
  | .undefined => .error .undefined

/-- An interrupt or an exception is taken at the head of `cycle`. -/
def pending : Prop := s.status ≠ 0 ∧ s.cause &&& s.mask ≠ 0 ∨ s.exception ≠ 0

instance : Decidable s.pending := inferInstanceAs (Decidable (_ ∨ _))

/-- The head of `cycle`. -/
def takeInterrupt : State :=
  if s.pending then { s with toBase := s.toBase.enter, exception := 0 } else s

/-- The cause of the GPIO port. -/
def gpiocauseNext : Word := if (s.pain ^^^ s.painInv) &&& s.painMask ≠ 0 then 0x01 else 0x00

/-- The tail of `cycle`. -/
def advance : State :=
  let gpio : Word := if (s.gpiocauseNext ^^^ s.gpiocauseInv) &&& s.gpiomask ≠ 0 then 0x02 else 0x00
  { s with toBase := s.toBase.advance gpio, gpiocause := s.gpiocauseNext }

/-- The instruction: the operands are read, `r[0]` is cleared, the row is performed. -/
def execute (inst : Word) : Except Stop State :=
  (s.setReg 0 0).perform inst (action inst s.pc (s.operands inst))

/-- `cycle`. -/
def cycle : Except Stop State := do
  let s := s.takeInterrupt
  let inst ← s.memFetch s.pc
  let s' ← s.execute inst
  .ok s'.advance

/-- The input pin that `main` drives. -/
def drivePin : State :=
  { s with pain := if s.timer0 &&& 0x80000 ≠ 0 then s.pain ||| 0x8 else s.pain &&& ~~~0x8 }

/-- One turn of the loop of `main`. -/
def turn : Except Stop State := s.drivePin.cycle

end State

/-- The first `k` turns of the loop of `main`; a run that has stopped stays
stopped. -/
def run (s : State) : ℕ → Except Stop State
  | 0 => .ok s
  | k + 1 => run s k >>= State.turn

/-- The start of `main`, with the program in memory and the stack pointer at its end. -/
def start (mem : BitVec 20 → BitVec 8) (stdin : List (BitVec 8)) (logEnabled : Bool) : State :=
  .start (.start (fun k => if k = 2 then 0x000ffffc else 0) 0x40000000 0x40000004 mem stdin
    logEnabled)

end HfRisc.Sim
