import HfRisc.Arch
import HfRisc.Lib.Mailbox
import HfRisc.Lib.Mealy
import HfRisc.Lib.UpDown

/-!
# The UART (`uart.vhd`)

The process of the entity has three parts that share only the clock and the divisor:
the transmitter, the filter of the line and the receiver. The transmitter keeps each
bit on the line for `divisor + 1` cycles. The receiver waits half a period after the
filtered line has gone low and then samples it every `divisor + 1` cycles.
-/

namespace HfRisc.Rtl

/-- The registers of the UART write part. -/
structure Transmitter where
  delayWriteReg : BitVec 12
  bitsWriteReg : BitVec 4
  dataWriteReg : BitVec 9
deriving DecidableEq, Repr

/-- The registers of the filter and of the UART read part. -/
structure Receiver where
  readValueReg : BitVec 8
  delayReadReg : BitVec 12
  bitsReadReg : BitVec 4
  dataReadReg : BitVec 8
  dataSaveReg : BitVec 9
deriving DecidableEq, Repr

/-- The registers of the entity. -/
structure Uart extends Transmitter, Receiver
deriving DecidableEq, Repr

/-- The inputs of the entity in one cycle. -/
structure UartIn where
  divisor : BitVec 12
  enableRead : Bool
  enableWrite : Bool
  dataIn : BitVec 8
  uartRead : Bool

/-! ## UART write -/

namespace Transmitter

def reset : Transmitter where
  delayWriteReg := 0
  bitsWriteReg := 0b0000
  dataWriteReg := 0#8 ++ 1#1

variable (s : Transmitter) (i : UartIn)

def busyWrite : Bool := s.bitsWriteReg ≠ 0b0000

def uartWrite : Bool := s.dataWriteReg.getLsbD 0

def step : Transmitter :=
  if s.bitsWriteReg = 0b0000 then
    if i.enableWrite then
      { delayWriteReg := 0
        bitsWriteReg := 0b1010
        dataWriteReg := i.dataIn ++ 0#1 }
    else s
  else if s.delayWriteReg ≠ i.divisor then
    { s with delayWriteReg := s.delayWriteReg + 1 }
  else
    { delayWriteReg := 0
      bitsWriteReg := s.bitsWriteReg - 1
      dataWriteReg := 1#1 ++ s.dataWriteReg.extractLsb' 1 8 }

end Transmitter

/-! ## UART read -/

namespace Receiver

def reset : Receiver where
  readValueReg := BitVec.allOnes 8
  delayReadReg := 0
  bitsReadReg := 0b0000
  dataReadReg := 0
  dataSaveReg := 0

variable (s : Receiver) (i : UartIn)

/-- The filtered line. -/
def uartRead2 : Bool := s.readValueReg.getLsbD 7

def dataAvail : Bool := s.dataSaveReg.getLsbD 8

def dataOut : BitVec 8 := s.dataSaveReg.extractLsb' 0 8

/-- The average of `uart_read`. -/
def average : BitVec 8 :=
  if i.uartRead then
    if s.readValueReg ≠ 0xff then s.readValueReg + 1 else s.readValueReg
  else if s.readValueReg ≠ 0x00 then s.readValueReg - 1
  else s.readValueReg

/-- The sampling of the filtered line. A start bit is waited for half a period. -/
def sample : Receiver :=
  if s.delayReadReg = 0 then
    if s.bitsReadReg = 0b0000 then
      if s.uartRead2 = false then
        { s with
          delayReadReg := 0#1 ++ i.divisor.extractLsb' 1 11
          bitsReadReg := 0b1001 }
      else s
    else
      { s with
        delayReadReg := i.divisor
        bitsReadReg := s.bitsReadReg - 1
        dataReadReg := BitVec.ofBool s.uartRead2 ++ s.dataReadReg.extractLsb' 1 7 }
  else { s with delayReadReg := s.delayReadReg - 1 }

/-- A byte is complete in this cycle. -/
def complete : Bool := s.bitsReadReg = 0b0000 ∧ s.delayReadReg = i.divisor

/-- The byte register with the flag `data_avail` on top. -/
def save : BitVec 9 :=
  if s.complete i then 1#1 ++ s.dataReadReg
  else if i.enableRead then 0#1 ++ s.dataSaveReg.extractLsb' 0 8
  else s.dataSaveReg

def step : Receiver :=
  { s.sample i with
    readValueReg := s.average i
    dataSaveReg := s.save i }

end Receiver

namespace Uart

def reset : Uart := { Transmitter.reset, Receiver.reset with }

/-- One clock edge. -/
def step (s : Uart) (i : UartIn) : Uart :=
  { s.toTransmitter.step i, s.toReceiver.step i with }

/-- The entity as a machine. Its observation is the line. -/
def machine : Lib.Mealy Uart UartIn Bool where
  step := step
  out s _ := [s.uartWrite]

/-- The registers after the first `n` inputs of a stream. -/
def after (x : ℕ → UartIn) (n : ℕ) : Uart := machine.run reset (Lib.Mealy.inputs x n)

theorem after_zero (x : ℕ → UartIn) : after x 0 = reset := rfl

theorem after_succ (x : ℕ → UartIn) (n : ℕ) : after x (n + 1) = (after x n).step (x n) :=
  machine.run_inputs_succ reset x n

theorem step_toReceiver (s : Uart) (i : UartIn) :
    (s.step i).toReceiver = s.toReceiver.step i := rfl

end Uart

/-! ## The byte register as a mailbox -/

namespace Receiver

variable (s : Receiver) (i : UartIn)

/-- The byte that the receiver completes in this cycle. -/
def completed : Option (BitVec 8) := if s.complete i then some s.dataReadReg else none

/-- The flag on top of a byte. -/
theorem append_getLsbD_eight (b : BitVec 1) (x : BitVec 8) :
    (b ++ x).getLsbD 8 = b.getLsbD 0 := by
  rw [BitVec.getLsbD_append, if_neg (Nat.lt_irrefl 8)]

theorem step_dataAvail :
    (s.step i).dataAvail = ((s.completed i).isSome || (s.dataAvail && !i.enableRead)) := by
  show (s.save i).getLsbD 8 = _
  unfold save completed dataAvail
  cases s.complete i with
  | true => exact append_getLsbD_eight _ _
  | false =>
    cases i.enableRead with
    | true => simpa using append_getLsbD_eight 0#1 _
    | false => simp

theorem step_dataOut : (s.step i).dataOut = (s.completed i).getD s.dataOut := by
  show (s.save i).extractLsb' 0 8 = _
  unfold save completed dataOut
  cases s.complete i with
  | true => exact BitVec.extractLsb'_append_eq_right
  | false =>
    cases i.enableRead with
    | true => exact BitVec.extractLsb'_append_eq_right
    | false => rfl

/-- No byte completes in the cycle after another one. -/
theorem completed_step (h : (s.completed i).isSome) {j : UartIn} (hd : j.divisor = i.divisor)
    (hpos : i.divisor ≠ 0) : (s.step i).completed j = none := by
  have hc : s.complete i = true := by
    by_contra hc
    rw [completed, if_neg hc] at h
    exact absurd h Bool.false_ne_true
  rw [complete, decide_eq_true_iff] at hc
  have hdelay : (s.step i).delayReadReg = i.divisor - 1 := by
    show (s.sample i).delayReadReg = _
    rw [sample, if_neg (by rw [hc.2]; exact hpos)]
    exact congrArg (· - 1) hc.2
  have hne : i.divisor - 1 ≠ i.divisor := by
    bv_omega
  rw [completed, complete, hdelay, hd, if_neg]
  rw [decide_eq_true_iff]
  exact fun h => hne h.2

/-- Along every run the byte register is a mailbox. -/
theorem mailbox {r : ℕ → Receiver} {y : ℕ → UartIn} (h : ∀ n, r (n + 1) = (r n).step (y n)) :
    Lib.Mailbox (fun n => (r n).dataAvail) (fun n => (r n).dataOut)
      (fun n => (r n).completed (y n)) (fun n => (y n).enableRead) where
  full_succ n := by rw [h, step_dataAvail]
  value_succ n := by rw [h, step_dataOut]

/-! ## The filter -/

theorem average_toNat : (s.average i).toNat =
    if i.uartRead then min (s.readValueReg.toNat + 1) 255 else s.readValueReg.toNat - 1 := by
  have hlt := s.readValueReg.isLt
  unfold average
  cases i.uartRead with
  | true =>
    by_cases h : s.readValueReg = 0xff
    · simp [h]
    · have hne : s.readValueReg.toNat ≠ 255 := fun hc => h (BitVec.eq_of_toNat_eq hc)
      simp only [if_true, h, not_false_eq_true, BitVec.toNat_add, ne_eq]
      show (s.readValueReg.toNat + 1) % 256 = _
      omega
  | false =>
    by_cases h : s.readValueReg = 0x00
    · simp [h]
    · have hne : s.readValueReg.toNat ≠ 0 := fun hc => h (BitVec.eq_of_toNat_eq hc)
      simp only [Bool.false_eq_true, if_false, ne_eq, h, not_false_eq_true, if_true]
      bv_omega

theorem uartRead2_iff : s.uartRead2 = true ↔ 128 ≤ s.readValueReg.toNat := by
  have hlt := s.readValueReg.isLt
  rw [uartRead2, ← BitVec.msb_eq_getLsbD_last s.readValueReg, BitVec.msb_eq_decide]
  exact decide_eq_true_iff

theorem upDown {r : ℕ → Receiver} {y : ℕ → UartIn} (h : ∀ n, r (n + 1) = (r n).step (y n))
    (h0 : r 0 = reset) :
    Lib.UpDown 255 (fun n => (y n).uartRead) fun n => (r n).readValueReg.toNat where
  start := by rw [h0]; rfl
  step n := by
    rw [h]
    exact average_toNat (r n) (y n)

end Receiver

end HfRisc.Rtl
