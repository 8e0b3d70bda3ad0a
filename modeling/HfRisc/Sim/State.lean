import HfRisc.Arch

/-!
# The state of the simulators (`hf_riscv_sim.c`, `hf_riscv_sim_cache.c`)

Two simulators interpret the instruction set. The one with caches is an older
copy: its `state` has no `exception` and no GPIO registers. `Base` is that
`state`, and `State` adds what only the plain simulator has.

Host integers are words: signed additions wrap around, shift counts are taken
modulo 32, and a narrowing conversion keeps the low bits, as on the hosts the
simulators are built for. What no host gives a value is `Stop.undefined`.
-/

namespace HfRisc.Sim

/-! ## The memory map -/

def EXIT_TRAP : Word := 0xe0000000
def IRQ_VECTOR : Word := 0xf0000000
def IRQ_CAUSE : Word := 0xf0000010
def IRQ_MASK : Word := 0xf0000020
def IRQ_STATUS : Word := 0xf0000030
def IRQ_EPC : Word := 0xf0000040
def DEBUG_ADDR : Word := 0xf00000d0
def S0CAUSE : Word := 0xe1000400
def GPIOCAUSE : Word := 0xe1010400
def GPIOCAUSEINV : Word := 0xe1010800
def GPIOMASK : Word := 0xe1010c00
def PADDR : Word := 0xe1014000
def PAOUT : Word := 0xe1014010
def PAIN : Word := 0xe1014020
def PAININV : Word := 0xe1014030
def PAINMASK : Word := 0xe1014040
def TIMERCAUSE : Word := 0xe1020400
def TIMERCAUSE_INV : Word := 0xe1020800
def TIMERMASK : Word := 0xe1020c00
def TIMER0 : Word := 0xe1024000
def TIMER1 : Word := 0xe1024400
def TIMER1_PRE : Word := 0xe1024410
def TIMER1_CTC : Word := 0xe1024420
def TIMER1_OCR : Word := 0xe1024430
def UARTCAUSE : Word := 0xe1030400
def UARTCAUSE_INV : Word := 0xe1030800
def UARTMASK : Word := 0xe1030c00
def UART0 : Word := 0xe1034000
def UART0_DIV : Word := 0xe1034010

/-! ## How a run ends -/

/-- The size of a memory access. -/
inductive Size
  | byte | half | word
deriving DecidableEq, Repr

/-- The address bits that must be zero. -/
def Size.unaligned : Size → Word
  | .byte => 0
  | .half => 1
  | .word => 3

/-- The ways out of `cycle`. -/
inductive Stop
  /-- `unaligned access (load|store …) pc=… addr=…`, exit code 1. -/
  | unaligned (store : Bool) (size : Size) (pc address : Word)
  /-- `invalid opcode (pc=… opcode=…)`, exit code 0. -/
  | invalidOpcode (pc inst : Word)
  /-- `end of simulation - … cycles`, with the exit code. -/
  | endOfSimulation (cycles : BitVec 64) (code : Word)
  /-- The C program has no defined behaviour. -/
  | undefined
deriving DecidableEq, Repr

/-! ## Registers and memory -/

/-- The registers the two simulators share, the memory array, and the streams
that the UART and the debug port read and write. -/
structure Base where
  r : BitVec 5 → Word
  pc : Word
  pcNext : Word
  mem : BitVec 20 → BitVec 8
  vector : Word
  cause : Word
  mask : Word
  status : Word
  statusDly : Fin 4 → Word
  epc : Word
  s0cause : Word
  timercause : Word
  timercauseInv : Word
  timermask : Word
  timer0 : Word
  timer1 : Word
  timer1Pre : Word
  timer1Ctc : Word
  timer1Ocr : Word
  uartcause : Word
  uartcauseInv : Word
  uartmask : Word
  cycles : BitVec 64
  stdin : List (BitVec 8)
  stdout : List (BitVec 8)
  log : List (BitVec 8)
  logEnabled : Bool

namespace Base

/-- The state after `memset(s, 0, …)`, with registers, program counters and memory
set up. -/
def start (r : BitVec 5 → Word) (pc pcNext : Word) (mem : BitVec 20 → BitVec 8)
    (stdin : List (BitVec 8)) (logEnabled : Bool) : Base where
  r
  pc
  pcNext
  mem
  vector := 0
  cause := 0
  mask := 0
  status := 0
  statusDly _ := 0
  epc := 0
  s0cause := 0
  timercause := 0
  timercauseInv := 0
  timermask := 0
  timer0 := 0
  timer1 := 0
  timer1Pre := 0
  timer1Ctc := 0
  timer1Ocr := 0
  uartcause := 0
  uartcauseInv := 0
  uartmask := 0
  cycles := 0
  stdin
  stdout := []
  log := []
  logEnabled

variable (s : Base)

/-- `r[k] = v`; `r[0]` is a cell like the others. -/
def setReg (k : BitVec 5) (v : Word) : Base :=
  { s with r := fun j => if j = k then v else s.r j }

/-- `address % MEM_SIZE`. -/
def offset (address : Word) : BitVec 20 := address.setWidth 20

/-- The value of type `size` at an offset of the array, little endian and sign
extended. -/
def peek (size : Size) (k : BitVec 20) : Word :=
  match size with
  | .byte => (s.mem k).signExtend 32
  | .half => (s.mem (k + 1) ++ s.mem k).signExtend 32
  | .word => s.mem (k + 3) ++ s.mem (k + 2) ++ s.mem (k + 1) ++ s.mem k

/-- One byte of the array. -/
def setByte (k : BitVec 20) (v : BitVec 8) : Base :=
  { s with mem := fun j => if j = k then v else s.mem j }

/-- Store the low bytes of `v` at an offset of the array, little endian. -/
def poke (size : Size) (k : BitVec 20) (v : Word) : Base :=
  match size with
  | .byte => s.setByte k (v.extractLsb' 0 8)
  | .half => (s.setByte k (v.extractLsb' 0 8)).setByte (k + 1) (v.extractLsb' 8 8)
  | .word =>
    (((s.setByte k (v.extractLsb' 0 8)).setByte (k + 1) (v.extractLsb' 8 8)).setByte (k + 2)
      (v.extractLsb' 16 8)).setByte (k + 3) (v.extractLsb' 24 8)

/-- `mem_fetch`: four bytes from the array, which end with it. -/
def fetch (address : Word) : Except Stop Word :=
  if (offset address).toNat + 4 ≤ 0x00100000 then .ok (s.peek .word (offset address))
  else .error .undefined

/-- `getchar()`: the next character, or `EOF`. -/
def getchar : Word × Base :=
  match s.stdin with
  | c :: rest => (c.setWidth 32, { s with stdin := rest })
  | [] => (0xffffffff, s)

/-- The registers that a read returns, one `case` a line. -/
def register (address : Word) : Option Word :=
  if address = IRQ_VECTOR then some s.vector
  else if address = IRQ_CAUSE then some s.cause
  else if address = IRQ_MASK then some s.mask
  else if address = IRQ_STATUS then some s.status
  else if address = IRQ_EPC then some s.epc
  else if address = S0CAUSE then some s.s0cause
  else if address = TIMERCAUSE then some s.timercause
  else if address = TIMERCAUSE_INV then some s.timercauseInv
  else if address = TIMERMASK then some s.timermask
  else if address = TIMER0 then some s.timer0
  else if address = TIMER1 then some s.timer1
  else if address = TIMER1_PRE then some s.timer1Pre
  else if address = TIMER1_CTC then some s.timer1Ctc
  else if address = TIMER1_OCR then some s.timer1Ocr
  else if address = UARTCAUSE then some s.uartcause
  else if address = UARTCAUSE_INV then some s.uartcauseInv
  else if address = UARTMASK then some s.uartmask
  else if address = UART0_DIV then some 0
  else none

/-- `fprintf(fptr, "%c", …)`, when there is a log file. -/
def logChar (value : Word) : Base :=
  if s.logEnabled then { s with log := s.log ++ [value.setWidth 8] } else s

/-- The registers that a write changes, one `case` a line. -/
def setRegister (address value : Word) : Option Base :=
  if address = IRQ_VECTOR then some { s with vector := value }
  else if address = IRQ_MASK then some { s with mask := value }
  else if address = IRQ_STATUS then
    if value = 0 then some { s with status := 0, statusDly := fun _ => 0 }
    else some { s with statusDly := fun i => if i = 3 then value else s.statusDly i }
  else if address = IRQ_EPC then some { s with epc := value }
  else if address = TIMERCAUSE_INV then some { s with timercauseInv := value &&& 0xff }
  else if address = TIMERMASK then some { s with timermask := value &&& 0xff }
  else if address = TIMER0 then some s
  else if address = TIMER1 then some { s with timer1 := value &&& 0xffff }
  else if address = TIMER1_PRE then some { s with timer1Pre := value &&& 0xffff }
  else if address = TIMER1_CTC then some { s with timer1Ctc := value &&& 0xffff }
  else if address = TIMER1_OCR then some { s with timer1Ocr := value &&& 0xffff }
  else if address = UARTCAUSE_INV then some { s with uartcauseInv := value &&& 0xff }
  else if address = UARTMASK then some { s with uartmask := value &&& 0xff }
  else if address = DEBUG_ADDR then some (s.logChar value)
  else if address = UART0 then some { s with stdout := s.stdout ++ [value.setWidth 8] }
  else if address = UART0_DIV then some s
  else none

/-- `status = status_dly[0]`, and the delay line moves on: what the MIPS simulator does
at the head of `cycle`. -/
def shiftStatus : Base :=
  { s with
    status := s.statusDly 0
    statusDly := fun i => if i = 3 then s.statusDly 3 else s.statusDly (i + 1) }

/-- The jump to the handler at the head of `cycle`. -/
def enter : Base :=
  { s with
    epc := s.pcNext
    pc := s.vector
    pcNext := s.vector + 4
    status := 0
    statusDly := fun _ => 0 }

/-! ## The end of `cycle` -/

/-- `if (p) x |= bit; else x &= keep`. -/
def setBit (p : Prop) [Decidable p] (x bit keep : Word) : Word :=
  if p then x ||| bit else x &&& keep

/-- The cycles of `timer0` between two counts of `timer1`, minus one. -/
def prescale (pre : Word) : Word :=
  if pre = 1 then 3
  else if pre = 2 then 15
  else if pre = 3 then 63
  else if pre = 4 then 255
  else if pre = 5 then 1023
  else if pre = 6 then 4095
  else if pre = 7 then 16383
  else 0

/-- The compare match of `timer1`. -/
def ctcMatch : Bool := s.timer1 == s.timer1Ctc

/-- The timer causes of this cycle. -/
def timercauseNext : Word :=
  let c := setBit (s.timer0 &&& 0x10000 ≠ 0) s.timercause 0x01 0xfe
  let c := setBit (s.timer0 &&& 0x40000 ≠ 0) c 0x02 0xfd
  let c := if s.ctcMatch then c ^^^ 0x4 else c
  setBit ((if s.ctcMatch then 0 else s.timer1).ult s.timer1Ocr) c 0x8 0xf7

/-- `timer1` at the end of the cycle: reset by the match, then counted when the
prescaler, which looks at `timer0` after it was counted, lets it. -/
def timer1Next : Word :=
  let t := if s.ctcMatch then 0 else s.timer1
  (if (s.timer0 + 1) &&& prescale s.timer1Pre = 0 then t + 1 else t) &&& 0xffff

/-- The part of `cycle` after the instruction: the program counters, the delayed
status, the causes and the counters. `gpio` is the cause of the GPIO port. -/
def advance (gpio : Word) : Base :=
  let timercause := s.timercauseNext
  let s0cause := gpio ||| if (timercause ^^^ s.timercauseInv) &&& s.timermask ≠ 0 then 0x04 else 0
  { s with
    pc := s.pcNext
    pcNext := s.pcNext + 4
    status := s.statusDly 0
    statusDly := fun i => if i = 3 then s.statusDly 3 else s.statusDly (i + 1)
    timercause := timercause
    s0cause := s0cause
    cause := if s0cause ≠ 0 then 1 else 0
    cycles := s.cycles + 1
    timer0 := s.timer0 + 1
    timer1 := s.timer1Next }

end Base

/-- The state of the plain simulator. -/
structure State extends Base where
  exception : Word
  gpiocause : Word
  gpiocauseInv : Word
  gpiomask : Word
  paddr : Word
  paout : Word
  pain : Word
  painInv : Word
  painMask : Word

/-- The state after `memset`, with `b` set up. -/
def State.start (b : Base) : State where
  toBase := b
  exception := 0
  gpiocause := 0
  gpiocauseInv := 0
  gpiomask := 0
  paddr := 0
  paout := 0
  pain := 0
  painInv := 0
  painMask := 0

end HfRisc.Sim
