import HfRisc.Rtl.Timers
import HfRisc.Rtl.Uart

/-!
# The UARTs of the standard SoC (`standard_soc.vhd`)

Each UART has a data register and a divisor on the bus of the peripherals. The access to
the data register is registered: `enable_w` and `enable_r` reach the UART one cycle after
the access, and stay until the next cycle without a write, or without any access. The
register `PAALTCFG0` connects the receivers to the pins of port A.

The registers of class `"0011"` are modelled with their readback. What the bus reads
from the other classes is an input.
-/

namespace HfRisc.Rtl

/-- The inputs of the peripherals in one cycle, with the word that the registers of the
other classes give to a read. -/
structure PeriphIn extends PeriphBus where
  gpioaIn : BitVec 16
  other : Word

namespace PeriphBus

variable (b : PeriphBus)

/-- The access goes to a register of the UARTs. -/
def uartsSelect : Bool := b.sel && b.segment == 0b0001 && b.deviceClass == 0b0011

/-- The access goes to the data register of the UART at `device`, read or write. -/
def selectsData (device : BitVec 6) : Bool :=
  b.uartsSelect && b.device == device && b.funct == 0b0000

/-- The processor reads the data register of `UART0`. -/
def readsUart0 : Bool := b.selectsData 0b010000 && !b.wr

/-- The processor writes the data register of `UART0`. -/
def writesUart0 : Bool := b.selectsData 0b010000 && b.wr

end PeriphBus

/-- A UART with its bus registers. -/
structure UartPort where
  enableW : Bool
  dataWrite : BitVec 8
  divisor : BitVec 16
  enableR : Bool
  uart : Uart
deriving DecidableEq, Repr

namespace UartPort

def reset : UartPort where
  enableW := false
  dataWrite := 0
  divisor := 0
  enableR := false
  uart := Uart.reset

variable (s : UartPort) (device : BitVec 6) (b : PeriphBus) (rx : Bool)

/-- The port map of the entity. -/
def input : UartIn where
  divisor := s.divisor.extractLsb' 0 12
  enableRead := s.enableR
  enableWrite := s.enableW
  dataIn := s.dataWrite
  uartRead := rx

/-- The register write of this cycle. Only a cycle without any write takes `enable_w`
back. -/
def write : UartPort :=
  if b.sel && b.wr then
    if b.uartsSelect && b.device == device then
      if b.funct = 0b0000 then { s with dataWrite := b.data.extractLsb' 0 8, enableW := true }
      else if b.funct = 0b0001 then { s with divisor := b.data.extractLsb' 0 16 }
      else s
    else s
  else { s with enableW := false }

/-- The read process drives `enable_r`. It looks at `sel_i` alone. -/
def nextEnableR : Bool :=
  if b.sel then
    if b.selectsData device then true else s.enableR
  else false

def step : UartPort :=
  { s.write device b with
    enableR := s.nextEnableR device b
    uart := s.uart.step (s.input rx) }

end UartPort

/-- The registers of the UARTs, with `PAALTCFG0` and the word on the bus. -/
structure Uarts where
  paaltcfg0 : Word
  uartcauseInv : BitVec 4
  uartmask : BitVec 4
  uart0 : UartPort
  uart1 : UartPort
  dataO : Word
deriving DecidableEq, Repr

namespace Uarts

def reset : Uarts where
  paaltcfg0 := 0
  uartcauseInv := 0
  uartmask := 0
  uart0 := UartPort.reset
  uart1 := UartPort.reset
  dataO := 0

variable (s : Uarts) (x : PeriphIn)

/-- A receiver input: pin `p`, or pin `q`, or no pin, by the fields of `PAALTCFG0` at
`f` and `g`. -/
def altInput (cfg : Word) (pain : BitVec 16) (f p g q : ℕ) : Bool :=
  if cfg.extractLsb' f 2 = 0b01 then pain.getLsbD p
  else if cfg.extractLsb' g 2 = 0b01 then pain.getLsbD q
  else true

def uart0Rx : Bool := altInput s.paaltcfg0 x.gpioaIn 6 3 22 11

def uart1Rx : Bool := altInput s.paaltcfg0 x.gpioaIn 10 5 26 13

def uartcause : BitVec 4 :=
  BitVec.ofBool s.uart1.uart.busyWrite ++ BitVec.ofBool s.uart1.uart.dataAvail ++
    BitVec.ofBool s.uart0.uart.busyWrite ++ BitVec.ofBool s.uart0.uart.dataAvail

def intUart : Bool := ((s.uartcause ^^^ s.uartcauseInv) &&& s.uartmask) != 0

/-- The data register and the divisor of a UART, read by the bus. -/
def readPort (p : UartPort) (funct : BitVec 4) : Word :=
  if funct = 0b0000 then p.uart.dataOut.setWidth 32
  else if funct = 0b0001 then p.divisor.setWidth 32
  else s.dataO

/-- The word that the bus reads. -/
def nextDataO : Word :=
  if x.uartsSelect then
    if x.device = 0b000001 then s.uartcause.setWidth 32
    else if x.device = 0b000010 then s.uartcauseInv.setWidth 32
    else if x.device = 0b000011 then s.uartmask.setWidth 32
    else if x.device = 0b010000 then s.readPort s.uart0 x.funct
    else if x.device = 0b010001 then s.readPort s.uart1 x.funct
    else s.dataO
  else if x.sel then
    if x.segment = 0b0001 ∧ x.deviceClass = 0b0000 ∧ x.device = 0b010000 then s.paaltcfg0
    else x.other
  else s.dataO

/-- The register write of this cycle, but for those of the two UARTs. -/
def write (b : PeriphBus) : Uarts :=
  if b.sel && b.wr && b.segment == 0b0001 then
    if b.deviceClass = 0b0000 then
      if b.device = 0b010000 then { s with paaltcfg0 := b.data } else s
    else if b.deviceClass = 0b0011 then
      if b.device = 0b000010 then { s with uartcauseInv := b.data.extractLsb' 0 4 }
      else if b.device = 0b000011 then { s with uartmask := b.data.extractLsb' 0 4 }
      else s
    else s
  else s

/-- One clock edge. -/
def step : Uarts :=
  { s.write x.toPeriphBus with
    uart0 := s.uart0.step 0b010000 x.toPeriphBus (s.uart0Rx x)
    uart1 := s.uart1.step 0b010001 x.toPeriphBus (s.uart1Rx x)
    dataO := s.nextDataO x }

/-- The UARTs as a machine that emits the interrupt line. -/
def machine : Lib.Mealy Uarts PeriphIn Bool where
  step := step
  out s _ := [s.intUart]

/-- The registers after the first `n` cycles from reset. -/
def after (x : ℕ → PeriphIn) (n : ℕ) : Uarts := machine.run reset (Lib.Mealy.inputs x n)

theorem after_succ (x : ℕ → PeriphIn) (n : ℕ) : after x (n + 1) = (after x n).step (x n) :=
  machine.run_inputs_succ reset x n

/-! ## The receive acknowledge -/

/-- The byte that the receiver of `UART0` completes in this cycle. -/
def completed0 : Option (BitVec 8) := s.uart0.uart.completed (s.uart0.input (s.uart0Rx x))

/-- The byte register of `UART0` is a mailbox that `enable_r` empties. -/
theorem mailbox (x : ℕ → PeriphIn) :
    Lib.Mailbox (fun n => (after x n).uart0.uart.dataAvail)
      (fun n => (after x n).uart0.uart.dataOut) (fun n => (after x n).completed0 (x n))
      fun n => (after x n).uart0.enableR := by
  refine Receiver.mailbox (r := fun n => (after x n).uart0.uart.toReceiver)
    (y := fun n => (after x n).uart0.input ((after x n).uart0Rx (x n))) fun n => ?_
  rw [after_succ]
  rfl

/-- An access to the data register of `UART0` in this cycle or before, with the
peripherals selected in every cycle since. -/
def Held (x : ℕ → PeriphIn) (n : ℕ) : Prop :=
  ∃ k ≤ n, (x k).selectsData 0b010000 = true ∧ ∀ i, k < i → i ≤ n → (x i).sel = true

theorem held_succ (x : ℕ → PeriphIn) (n : ℕ) :
    Held x (n + 1) ↔ (x (n + 1)).selectsData 0b010000 = true ∨
      (x (n + 1)).sel = true ∧ Held x n := by
  constructor
  · rintro ⟨k, hk, hd, hheld⟩
    rcases Nat.le_succ_iff.mp hk with hle | rfl
    · exact .inr ⟨hheld _ (Nat.lt_succ_of_le hle) le_rfl,
        k, hle, hd, fun i hi hi' => hheld i hi (Nat.le_succ_of_le hi')⟩
    · exact .inl hd
  · rintro (hd | ⟨hs, k, hk, hd, hheld⟩)
    · exact ⟨n + 1, le_rfl, hd, fun i hi hi' => absurd hi (Nat.not_lt.mpr hi')⟩
    · refine ⟨k, Nat.le_succ_of_le hk, hd, fun i hi hi' => ?_⟩
      rcases Nat.le_succ_iff.mp hi' with hle | rfl
      · exact hheld i hi hle
      · exact hs

theorem held_zero (x : ℕ → PeriphIn) : Held x 0 ↔ (x 0).selectsData 0b010000 = true := by
  constructor
  · rintro ⟨k, hk, hd, -⟩
    rwa [Nat.le_zero.mp hk] at hd
  · intro hd
    exact ⟨0, le_rfl, hd, fun i hi hi' => absurd hi (Nat.not_lt.mpr hi')⟩

theorem sel_of_selectsData {b : PeriphBus} {device : BitVec 6} (h : b.selectsData device = true) :
    b.sel = true := by
  simp only [PeriphBus.selectsData, PeriphBus.uartsSelect, Bool.and_eq_true] at h
  exact h.1.1.1.1

theorem nextEnableR_iff {p : UartPort} {device : BitVec 6} {b : PeriphBus} :
    p.nextEnableR device b = true ↔
      b.selectsData device = true ∨ b.sel = true ∧ p.enableR = true := by
  rw [UartPort.nextEnableR]
  by_cases hs : b.sel = true
  · rw [if_pos hs]
    by_cases hd : b.selectsData device = true
    · simp [hd]
    · simp [hd, hs]
  · have hd : ¬ b.selectsData device = true := fun hd => hs (sel_of_selectsData hd)
    simp [hs, hd]

/-- `enable_r` is held from an access to the data register until the bus pauses. -/
theorem enableR_succ_iff (x : ℕ → PeriphIn) (n : ℕ) :
    (after x (n + 1)).uart0.enableR = true ↔ Held x n := by
  have hstep : ∀ n, (after x (n + 1)).uart0.enableR =
      (after x n).uart0.nextEnableR 0b010000 (x n).toPeriphBus := fun n => by
    rw [after_succ]
    rfl
  induction n with
  | zero =>
    rw [hstep, nextEnableR_iff, held_zero]
    exact or_iff_left fun h => absurd h.2 Bool.false_ne_true
  | succ n ih =>
    rw [hstep, nextEnableR_iff, held_succ]
    exact or_congr_right (and_congr_right' ih)

end Uarts

end HfRisc.Rtl
