import HfRisc.Arch
import HfRisc.Lib.BitLoop

/-!
# Interrupt dispatch (`interrupt.c`, `standard_soc.vhd`)

`irq_handler` calls a handler for every line, `irq0_handler` one for every source of the peripherals
that it finds pending. The sources toggle while it runs: every access to a register takes some
number of clocks, and so does every handler, and in each of them pins, timers, UARTs and SPIs may
change. The handlers themselves are not modelled: what is recorded is that they were called.

Of the peripherals this is the logic between the sources and `s0cause`, with the registers that the
handler reads or writes. Ports C and D do not exist: their registers read as zero.
-/

namespace HfRisc.Soft

open HfRisc.Lib

/-! ## The peripherals -/

/-- A port: `PAIN`, `PAININV` and `PAINMASK`. -/
structure GpioPort where
  pins : BitVec 16
  inv : BitVec 16
  mask : BitVec 16

/-- `(PAIN ^ PAININV) & PAINMASK`. -/
def GpioPort.changed (p : GpioPort) : BitVec 16 := (p.pins ^^^ p.inv) &&& p.mask

/-- `int_gpioa`, `int_gpiob`. -/
def GpioPort.int (p : GpioPort) : Bool := p.changed != 0

/-- The sources and the registers in front of the interrupt line. -/
structure Peripherals where
  porta : GpioPort
  portb : GpioPort
  gpiocauseInv : BitVec 4
  gpiomask : BitVec 4
  timercause : BitVec 4
  timercauseInv : BitVec 4
  timermask : BitVec 4
  intUart : Bool
  intSpi : Bool

namespace Peripherals

variable (p : Peripherals)

def gpiocause : BitVec 4 := 0b00#2 ++ BitVec.ofBool p.portb.int ++ BitVec.ofBool p.porta.int

/-- `(GPIOCAUSE ^ GPIOCAUSEINV) & GPIOMASK`. -/
def gpioIrq : BitVec 4 := (p.gpiocause ^^^ p.gpiocauseInv) &&& p.gpiomask

/-- `(TIMERCAUSE ^ TIMERCAUSEINV) & TIMERMASK`. -/
def timerIrq : BitVec 4 := (p.timercause ^^^ p.timercauseInv) &&& p.timermask

def s0cause : BitVec 5 :=
  BitVec.ofBool p.intSpi ++ BitVec.ofBool p.intUart ++ BitVec.ofBool (p.timerIrq != 0) ++
    BitVec.ofBool (p.gpioIrq != 0) ++ 0b0#1

/-- The line of the peripherals. -/
def irqO : Bool := p.s0cause != 0

end Peripherals

/-! ## Time -/

/-- What changes in one clock: the pins and timer causes that toggle, the lines of the UARTs and
SPIs. -/
structure Change where
  porta : BitVec 16
  portb : BitVec 16
  timer : BitVec 4
  uart : Bool
  spi : Bool

/-- Nothing changes. -/
def Change.none : Change := ⟨0, 0, 0, false, false⟩

/-- What the peripherals do, and how many clocks an access or a handler takes that starts at a given
time. -/
structure World where
  change : ℕ → Change
  delay : ℕ → ℕ

/-- A handler of the program. -/
inductive Handler
  | irq (i : ℕ)
  | gpio (i : ℕ)
  | timer (i : ℕ)
  /-- `unknown irq source` -/
  | unknown
deriving DecidableEq, Repr

/-- The peripherals, the time, and the handlers called so far. -/
structure Machine where
  soc : Peripherals
  time : ℕ
  calls : List Handler

def Peripherals.toggle (p : Peripherals) (c : Change) : Peripherals :=
  { p with
    porta := { p.porta with pins := p.porta.pins ^^^ c.porta }
    portb := { p.portb with pins := p.portb.pins ^^^ c.portb }
    timercause := p.timercause ^^^ c.timer
    intUart := p.intUart ^^ c.uart
    intSpi := p.intSpi ^^ c.spi }

namespace Machine

variable (env : World) (m : Machine)

/-- One clock. -/
def tick : Machine := { m with soc := m.soc.toggle (env.change m.time), time := m.time + 1 }

/-- An access, or a handler. -/
def elapse : Machine := (tick env)^[env.delay m.time] m

/-- A read of a register. -/
def read {w : ℕ} (f : Peripherals → BitVec w) : Word × Machine :=
  ((f (m.elapse env).soc).setWidth 32, m.elapse env)

/-- A write of a register. -/
def write (f : Peripherals → Peripherals) : Machine :=
  { m.elapse env with soc := f (m.elapse env).soc }

/-- A handler is called. -/
def call (h : Handler) : Machine := { m.elapse env with calls := m.calls ++ [h] }

/-! ## The handlers of the library -/

/-- `pins = (PAIN ^ PAININV) & PAINMASK; PAININV ^= pins;` for a port at `get`. -/
def acknowledgePort (get : Peripherals → GpioPort) (set : GpioPort → Peripherals → Peripherals) :
    Machine :=
  let (pin, m) := m.read env fun p => (get p).pins
  let (inv, m) := m.read env fun p => (get p).inv
  let (mask, m) := m.read env fun p => (get p).mask
  let pins := (pin ^^^ inv) &&& mask
  let (inv, m) := m.read env fun p => (get p).inv
  m.write env fun p => set { get p with inv := (inv ^^^ pins).setWidth 16 } p

/-- The same for a port that does not exist: three reads, a read and a write. -/
def acknowledgeNone : Machine :=
  ((((m.elapse env).elapse env).elapse env).elapse env).elapse env

/-- `switch (i)` and the call of `gpio_vector[i]`. -/
def serveGpio (i : ℕ) : Option Machine :=
  if i = 0 then
    some ((m.acknowledgePort env Peripherals.porta fun q p => { p with porta := q }).call env
      (.gpio i))
  else if i = 1 then
    some ((m.acknowledgePort env Peripherals.portb fun q p => { p with portb := q }).call env
      (.gpio i))
  else if i < 4 then some ((m.acknowledgeNone env).call env (.gpio i))
  else none

/-- `TIMERCAUSEINV ^= (irq & 0x1) << i`, where the bit is set, and the call of `timer_vector[i]`. -/
def serveTimer (i : ℕ) : Option Machine :=
  if i < 16 then
    let (inv, m) := m.read env Peripherals.timercauseInv
    let m := m.write env fun p => { p with timercauseInv := (inv ^^^ (1 <<< i)).setWidth 4 }
    some (m.call env (.timer i))
  else none

/-- The GPIO sources. -/
def gpioSources : Option Machine :=
  let (cause, m) := m.read env Peripherals.gpiocause
  let (inv, m) := m.read env Peripherals.gpiocauseInv
  let (mask, m) := m.read env Peripherals.gpiomask
  bitLoop (fun i m => m.serveGpio env i) 32 ((cause ^^^ inv) &&& mask) 0 m

/-- The timers. -/
def timerSources : Option Machine :=
  let (cause, m) := m.read env Peripherals.timercause
  let (inv, m) := m.read env Peripherals.timercauseInv
  let (mask, m) := m.read env Peripherals.timermask
  bitLoop (fun i m => m.serveTimer env i) 32 ((cause ^^^ inv) &&& mask) 0 m

/-- `switch (S0CAUSE & k)`: bit 0 is `BASE`, bit 1 `GPIO`, bit 2 `TIMER`, bits 3 to 5 `UART`, `SPI`
and `I2C`. -/
def segment (k : Word) : Option Machine :=
  let (cause, m) := m.read env Peripherals.s0cause
  if cause &&& k = 0 then some m
  else if cause &&& k = 1 <<< 0 then some m
  else if cause &&& k = 1 <<< 1 then m.gpioSources env
  else if cause &&& k = 1 <<< 2 then m.timerSources env
  else if cause &&& k = 1 <<< 3 then some m
  else if cause &&& k = 1 <<< 4 then some m
  else if cause &&& k = 1 <<< 5 then some m
  else some ((m.elapse env).call env .unknown)

/-- `do { … k <<= 1; } while (S0CAUSE && k)`. -/
def irq0Loop : ℕ → Word → Machine → Option Machine
  | 0, _, _ => none
  | fuel + 1, k, m => do
    let m ← m.segment env k
    let (cause, m) := m.read env Peripherals.s0cause
    if cause ≠ 0 ∧ k <<< 1 ≠ 0 then irq0Loop fuel (k <<< 1) m else some m

/-- A round of the loop. -/
theorem irq0Loop_succ {env : World} {m m' : Machine} {k : Word} (h : m.segment env k = some m')
    (fuel : ℕ) :
    m.irq0Loop env (fuel + 1) k =
      if (m'.read env Peripherals.s0cause).1 ≠ 0 ∧ k <<< 1 ≠ 0 then
        (m'.elapse env).irq0Loop env fuel (k <<< 1)
      else some (m'.elapse env) := by
  rw [irq0Loop, h]
  rfl

/-- `irq0_handler`: `k` is zero after 32 rounds. -/
def irq0Handler : Option Machine := irq0Loop env 32 1 m

/-- The call of `irq_vector[i]`. -/
def serveIrq (i : ℕ) : Option Machine :=
  if i = 0 then m.irq0Handler env
  else if i < 8 then some (m.call env (.irq i))
  else none

/-- `irq_handler`. -/
def irqHandler (cause : Word) : Option Machine :=
  bitLoop (fun i m => m.serveIrq env i) 32 cause 0 m

end Machine

end HfRisc.Soft
