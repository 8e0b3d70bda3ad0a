import HfRisc.Rtl.UartFrame
import HfRisc.Rtl.UartPort

/-!
# The UART on a line and on the bus

The transmitter of a UART drives the receiver of another one, or its own. Both run with
the same clock and the same divisor. The filter of the receiver is a delay of 128
cycles, since a bit on the line lasts at least 255 cycles, and from the start bit to the
last sample the receiver stays inside the cells of the transmitter: each sample comes
`divisor / 2 + 1` cycles after the beginning of its cell. So a byte is received a fixed
number of cycles after it was written.

`enable_read` clears the flag, and the read process of the SoC sets it for every access
to the data register: it decodes the address and does not look at `wr_i`. So a byte that
is written for transmission takes the received byte away. The acknowledge is taken back
only when the peripherals are deselected, so an older access can also take a byte that
completes while the bus goes on with other registers.
-/

namespace HfRisc.Results

open HfRisc.Rtl

/-- The transmitter of the UART with inputs `x` drives the receiver of the UART with
inputs `y`. With `x = y` a UART hears itself. -/
structure Loopback (d : BitVec 12) (x y : ℕ → UartIn) : Prop where
  writeDivisor : ∀ n, (x n).divisor = d
  readDivisor : ∀ n, (y n).divisor = d
  line : ∀ n, (y n).uartRead = (Uart.after x n).uartWrite

/-- The byte written in this cycle. -/
def uartWritten (x : ℕ → UartIn) (n : ℕ) : Option (BitVec 8) := Transmitter.written (x n)

/-- The byte completed in this cycle. -/
def uartCompleted (y : ℕ → UartIn) (n : ℕ) : Option (BitVec 8) :=
  (Uart.after y n).completed (y n)

/-- The byte with which `data_avail` rises at the end of this cycle. -/
def uartRaised (y : ℕ → UartIn) : ℕ → Option (BitVec 8) :=
  Lib.Mailbox.raised (fun n => (Uart.after y n).dataAvail) fun n => (Uart.after y n).dataOut

/-- The byte that `enable_read` finds available in this cycle. -/
def uartTaken (y : ℕ → UartIn) : ℕ → Option (BitVec 8) :=
  Lib.Mailbox.taken (fun n => (Uart.after y n).dataAvail) (fun n => (Uart.after y n).dataOut)
    fun n => (y n).enableRead

/-- The byte that waits to be read. -/
def uartPending (y : ℕ → UartIn) : ℕ → List (BitVec 8) :=
  Lib.Mailbox.pending (fun n => (Uart.after y n).dataAvail) fun n => (Uart.after y n).dataOut

/-- Each received byte is read before the next one completes. -/
def ReadsPromptly (y : ℕ → UartIn) : Prop :=
  Lib.Mailbox.Prompt (uartCompleted y) fun n => (y n).enableRead

/-- Each byte is written while `busy_write` is 0. -/
def WritesFree (x : ℕ → UartIn) : Prop :=
  ∀ n, (x n).enableWrite = true → (Uart.after x n).busyWrite = false

/-- The cycles from the write of a byte to `data_avail`. -/
def uartLatency (d : BitVec 12) : ℕ := Wire.byteAge d.toNat + 1 + 128

variable {d : BitVec 12} {x y : ℕ → UartIn}

theorem Loopback.carries (h : Loopback d x y) (n : ℕ) :
    Transmitter.Sends d.toNat (Wire.wire d.toNat (uartWritten x) n)
      (Uart.after x n).toTransmitter :=
  Transmitter.sends_run (fun n => by rw [h.writeDivisor]) n

/-- A write to a free transmitter meets an idle wire. -/
theorem Loopback.free (h : Loopback d x y) (hw : WritesFree x) (n : ℕ)
    (hn : (uartWritten x n).isSome) : Wire.wire d.toNat (uartWritten x) n = .idle := by
  refine ((h.carries n).busyWrite ((Wire.carries_wire _).valid n)).mp (hw n ?_)
  by_contra hno
  rw [uartWritten, Transmitter.written, if_neg hno] at hn
  exact absurd hn Bool.false_ne_true

/-- The receiver completes the byte of the frame that has reached `byteAge`. -/
theorem Loopback.completed (h : Loopback d x y) (hd : 255 ≤ d.toNat) (n : ℕ) :
    uartCompleted y n = (Wire.Carries.late 128 (Wire.wire d.toNat (uartWritten x)) n).begun
      (Wire.byteAge d.toNat) := by
  have hline : ∀ n, (y n).uartRead = (Wire.wire d.toNat (uartWritten x) n).line d.toNat :=
    fun n => by rw [h.line, (h.carries n).uartWrite]
  have hdiv : ∀ n, (y n).divisor.toNat = d.toNat := fun n => by rw [h.readDivisor]
  have hears := Receiver.hears_run (Wire.carries_wire _) (by omega) hdiv hline n
  exact hears.completed (hdiv n) (by omega)

/-- The bytes completed are the bytes written, `uartLatency` cycles before. -/
theorem Loopback.emitted_completed (h : Loopback d x y) (hd : 255 ≤ d.toNat)
    (hw : WritesFree x) (N : ℕ) :
    Lib.emitted (uartCompleted y) (N + uartLatency d) = Lib.emitted (uartWritten x) N := by
  rw [Lib.emitted_congr fun n _ => h.completed hd n]
  exact (Wire.carries_wire _).emitted_begun (h.free hw) (Wire.byteAge_lt (by omega)) N

/-- The byte register of a run. -/
theorem mailbox_after (y : ℕ → UartIn) :
    Lib.Mailbox (fun n => (Uart.after y n).dataAvail) (fun n => (Uart.after y n).dataOut)
      (uartCompleted y) fun n => (y n).enableRead :=
  Receiver.mailbox fun n => congrArg Uart.toReceiver (Uart.after_succ y n)

/-- For every divisor from 255, with bytes that are written to a free transmitter and
read before the next one completes: the bytes with which `data_avail` rises are the
bytes written, in order, and so are the bytes read, but for one that still waits. -/
theorem uart_loopback (h : Loopback d x y) (hd : 255 ≤ d.toNat) (hw : WritesFree x)
    (hr : ReadsPromptly y) (N : ℕ) :
    Lib.emitted (uartRaised y) (N + uartLatency d) = Lib.emitted (uartWritten x) N ∧
      Lib.emitted (uartTaken y) (N + uartLatency d) ++ uartPending y (N + uartLatency d) =
        Lib.emitted (uartWritten x) N := by
  have hcomplete := h.emitted_completed hd hw N
  have hempty : (Uart.after y 0).dataAvail = false := by
    rw [Uart.after_zero]
    rfl
  constructor
  · rw [← hcomplete]
    exact Lib.emitted_congr fun n _ => (mailbox_after y).raised_eq hempty hr n
  · rw [← hcomplete]
    exact (mailbox_after y).taken_append_pending hempty hr _

/-- The inputs of a UART that writes `0x55`, and `0xaa` in the first cycle in which the
transmitter is free again. -/
def writeTwice (n : ℕ) : UartIn where
  divisor := 255
  enableRead := true
  enableWrite := n = 0 ∨ n = 2561
  dataIn := if n = 0 then 0x55 else 0xaa
  uartRead := true

/-- The inputs of a UART that hears `writeTwice` and reads in every cycle. -/
def hearTwice (n : ℕ) : UartIn where
  divisor := 255
  enableRead := true
  enableWrite := false
  dataIn := 0
  uartRead := (Uart.after writeTwice n).uartWrite

/-- The first frame takes 2560 cycles. -/
theorem writeTwice_wire {t : ℕ} (ht : t < 2560) :
    Wire.wire 255 (uartWritten writeTwice) (t + 1) = .sending 0x55 t := by
  induction t with
  | zero => rfl
  | succ t ih =>
    rw [Wire.wire, ih (Nat.lt_of_succ_lt ht), Wire.next, if_pos ht]

/-- And nothing else is written meanwhile. -/
theorem writeTwice_emitted {t : ℕ} (ht : t ≤ 2560) :
    Lib.emitted (uartWritten writeTwice) (t + 1) = [0x55] := by
  induction t with
  | zero => rfl
  | succ t ih =>
    have hnone : uartWritten writeTwice (t + 1) = none := if_neg fun hwrite => by
      have hcases : t + 1 = 0 ∨ t + 1 = 2561 := of_decide_eq_true hwrite
      omega
    rw [Lib.emitted_succ, ih (Nat.le_of_succ_le ht), hnone]
    rfl

/-- Two bytes, one right behind the other, with the smallest divisor. -/
theorem uart_loopback_twice :
    (Uart.after writeTwice 2560).busyWrite = true ∧
      Lib.emitted (uartRaised hearTwice) (2562 + uartLatency 255) = [0x55, 0xaa] := by
  have hloop : Loopback 255 writeTwice hearTwice := ⟨fun _ => rfl, fun _ => rfl, fun _ => rfl⟩
  have hbusy : ∀ n, (Uart.after writeTwice n).busyWrite = false ↔
      Wire.wire 255 (uartWritten writeTwice) n = .idle := fun n =>
    (hloop.carries n).busyWrite ((Wire.carries_wire _).valid n)
  have hlast := writeTwice_wire (t := 2559) (by decide)
  have hidle : Wire.wire 255 (uartWritten writeTwice) 2561 = .idle := by
    rw [Wire.wire, hlast, Wire.next, if_neg (by decide)]
  have hw : WritesFree writeTwice := fun n hn => by
    rw [writeTwice, decide_eq_true_iff] at hn
    rcases hn with rfl | rfl
    · rfl
    · exact (hbusy 2561).mpr hidle
  have hr : ReadsPromptly hearTwice := fun m n hmn hm hn => by
    have hne : m + 1 ≠ n := fun heq => by
      have hnone : uartCompleted hearTwice (m + 1) = none := by
        rw [uartCompleted, Uart.after_succ, Uart.step_toReceiver]
        exact Receiver.completed_step _ _ hm rfl (show (255 : BitVec 12) ≠ 0 by decide)
      rw [← heq, hnone] at hn
      exact absurd hn Bool.false_ne_true
    exact ⟨m + 1, Nat.lt_succ_self m, Nat.lt_of_le_of_ne hmn hne, rfl⟩
  constructor
  · by_contra hno
    have heq := (hbusy 2560).mp (Bool.eq_false_of_not_eq_true hno)
    rw [hlast] at heq
    cases heq
  · rw [(uart_loopback hloop (by decide) hw hr 2562).1, Lib.emitted_succ,
      writeTwice_emitted (le_refl 2560)]
    rfl

end HfRisc.Results

/-! ## The receive flag of `UART0` and the bus -/

namespace HfRisc.Results

open HfRisc.Rtl

variable (x : ℕ → PeriphIn)

/-- The receiver of `UART0` completes a byte in cycle `n`. -/
def CompletesByte (n : ℕ) : Prop := ((Uarts.after x n).completed0 (x n)).isSome = true

/-- The flag `data_avail` of `UART0` at the beginning of cycle `n`. -/
def byteAvail (n : ℕ) : Bool := (Uarts.after x n).uart0.uart.dataAvail

/-- The next `n` cycles after `m` neither read the data register of `UART0` nor complete
another byte. -/
structure Unread (m n : ℕ) : Prop where
  noRead : ∀ k, m < k → k ≤ m + n → (x k).readsUart0 = false
  noByte : ∀ k, m < k → k ≤ m + n → ¬ CompletesByte x k

/-- A byte that is complete stays available until it is read. -/
def KeepsByte : Prop :=
  ∀ m n, CompletesByte x m → Unread x m n → byteAvail x (m + 1 + n) = true

instance (n : ℕ) : Decidable (CompletesByte x n) := inferInstanceAs (Decidable (_ = true))

variable {x}

/-- Without reads and without new bytes, the flag goes with the first `enable_r`. -/
theorem Unread.avail_iff {m n : ℕ} (h : Unread x m n) (hm : CompletesByte x m) :
    byteAvail x (m + 1 + n) = true ↔
      ∀ k < n, (Uarts.after x (m + 1 + k)).uart0.enableR = false := by
  have hbox := Uarts.mailbox x
  have hput : ∀ k < n, (Uarts.after x (m + 1 + k)).completed0 (x (m + 1 + k)) = none := by
    intro k hk
    exact Option.not_isSome_iff_eq_none.mp (h.noByte (m + 1 + k) (by omega) (by omega))
  have hset : (Uarts.after x (m + 1)).uart0.uart.dataAvail = true := by
    have hsucc := hbox.full_succ m
    rw [show ((Uarts.after x m).completed0 (x m)).isSome = true from hm] at hsucc
    exact hsucc
  exact (hbox.full_add_iff (m + 1) n hput).trans (and_iff_right hset)

/-- An access that is no read is a write. -/
theorem selectsData_iff_writes {b : PeriphBus} (h : b.readsUart0 = false) :
    b.selectsData 0b010000 = b.writesUart0 := by
  rw [PeriphBus.readsUart0] at h
  rw [PeriphBus.writesUart0]
  revert h
  cases b.selectsData 0b010000 <;> cases b.wr <;> decide

/-- In every run from reset: a byte that completed in cycle `m` and was not read is still
available `n` cycles later if and only if no access to the data register was held when it
completed, and none of the cycles in between but the last writes the data register. -/
theorem uart0_byte_kept {m n : ℕ} (hm : CompletesByte x m) (h : Unread x m n) :
    byteAvail x (m + 1 + n) = true ↔
      n = 0 ∨ ¬ Uarts.Held x m ∧ ∀ k, m < k → k < m + n → (x k).writesUart0 = false := by
  rw [h.avail_iff hm]
  have hheld : ∀ k, (Uarts.after x (k + 1)).uart0.enableR = false ↔ ¬ Uarts.Held x k :=
    fun k => by rw [← Uarts.enableR_succ_iff, Bool.not_eq_true]
  constructor
  · intro hclear
    rcases Nat.eq_zero_or_pos n with hn | hn
    · exact .inl hn
    refine .inr ⟨(hheld m).mp (hclear 0 hn), fun k hk hk' => ?_⟩
    -- a write in cycle `k` would be acknowledged in the next one
    have hk1 := hclear (k - m) (by omega)
    rw [show m + 1 + (k - m) = k + 1 by omega, hheld] at hk1
    rw [← selectsData_iff_writes (h.noRead k hk hk'.le)]
    by_contra hd
    exact hk1 ⟨k, le_rfl, Bool.ne_false_iff.mp hd, fun i hi hi' => absurd hi (Nat.not_lt.mpr hi')⟩
  · rintro (rfl | ⟨hfirst, hwrite⟩)
    · intro k hk
      exact absurd hk (Nat.not_lt_zero k)
    · intro k hk
      induction k with
      | zero => exact (hheld m).mpr hfirst
      | succ k ih =>
        have hquiet := (hheld (m + k)).mp (by
          rw [Nat.add_right_comm]
          exact ih (Nat.lt_of_succ_lt hk))
        rw [show m + 1 + (k + 1) = m + k + 1 + 1 by omega, hheld, Uarts.held_succ,
          selectsData_iff_writes (h.noRead _ (by omega) (by omega)),
          hwrite _ (by omega) (by omega)]
        rintro (hd | ⟨-, hheld'⟩)
        · exact Bool.false_ne_true hd
        · exact hquiet hheld'

/-- A bus access while the line of `UART0` is low. -/
def lowAccess (wr : Bool) (addr data : Word) : PeriphIn where
  sel := true
  wr := wr
  addr := addr
  data := data
  gpioaIn := 0
  other := 0

/-- `UART0` is connected to a low line with divisor 15 and its register is read. The
receiver completes `0x00` in cycle 266, and in the next cycle `0x41` is written for
transmission. -/
def sendAfterByte (n : ℕ) : PeriphIn :=
  if n = 0 then lowAccess true 0xe1004000 0x40
  else if n = 1 then lowAccess true 0xe1034010 15
  else if n = 2 then lowAccess false 0xe1034000 0
  else if n = 267 then lowAccess true 0xe1034000 0x41
  else { lowAccess false 0 0 with sel := false }

theorem sendAfterByte_unread : Unread sendAfterByte 266 2 := by
  have hcases : ∀ k, 266 < k → k ≤ 268 → k = 267 ∨ k = 268 := by
    omega
  constructor
  · intro k hk hk'
    rcases hcases k hk hk' with rfl | rfl <;> decide +kernel
  · intro k hk hk'
    rcases hcases k hk hk' with rfl | rfl <;> decide +kernel

/-- The write of cycle 267 leaves the byte for one more cycle. -/
theorem uart0_byte_kept_one : byteAvail sendAfterByte 268 = true :=
  (uart0_byte_kept (m := 266) (n := 1) (by decide +kernel)
    ⟨fun k hk hk' => sendAfterByte_unread.noRead k hk (Nat.le_succ_of_le hk'),
      fun k hk hk' => sendAfterByte_unread.noByte k hk (Nat.le_succ_of_le hk')⟩).mpr
    (.inr ⟨by
      rw [← Uarts.enableR_succ_iff]
      decide +kernel, fun k hk hk' => absurd hk (Nat.not_lt.mpr (Nat.le_of_lt_succ hk'))⟩)

/-- A write to the data register loses the byte. -/
theorem uart0_byte_lost : ¬ ∀ x, KeepsByte x := by
  intro h
  have hkept := h sendAfterByte 266 2 (by decide +kernel) sendAfterByte_unread
  revert hkept
  decide +kernel

end HfRisc.Results
