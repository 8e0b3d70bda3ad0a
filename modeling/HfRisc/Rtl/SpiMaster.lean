import HfRisc.Lib.Mealy
import HfRisc.Lib.Serial
import Mathlib.Data.Nat.Init

/-!
# The SPI master (`spi_master.vhd`)

One shift register sends a word of `n` bits and takes another one in. A bit takes four
cycles: `mosi` is driven, the clock rises, `miso` is sampled, the clock falls. All outputs
are registers, so they follow the state by one cycle.
-/

namespace HfRisc.Rtl

/-- The states of the master. -/
inductive SpiState
  | idle | data1 | clock1 | data2 | clock2 | done
deriving DecidableEq, Repr

/-- The registers at `BYTE_SIZE = n`. -/
structure SpiMaster (n : ℕ) where
  state : SpiState
  dataReg : BitVec n
  counter : BitVec n
  dataValid : Bool
  spiClk : Bool
  spiMosi : Bool
deriving DecidableEq, Repr

/-- The inputs in one cycle. -/
structure SpiMasterIn (n : ℕ) where
  dataI : BitVec n
  wrenI : Bool
  spiMiso : Bool

namespace SpiMaster

variable {n : ℕ}

/-- The registers after `rst_i`. -/
def reset (n : ℕ) : SpiMaster n where
  state := .idle
  dataReg := 0
  counter := 0
  dataValid := false
  spiClk := false
  spiMosi := false

/-- One clock edge. -/
def step (s : SpiMaster n) (i : SpiMasterIn n) : SpiMaster n :=
  match s.state with
  | .idle =>
    { state := if i.wrenI then .data1 else .idle
      dataReg := i.dataI
      counter := 0
      dataValid := false
      spiClk := false
      spiMosi := false }
  | .data1 => { s with state := .clock1, dataValid := false, spiMosi := s.dataReg.msb }
  | .clock1 => { s with state := .data2, spiClk := true }
  | .data2 => { s with state := .clock2, dataReg := s.dataReg.shiftConcat i.spiMiso }
  | .clock2 =>
    { s with
      state := if s.counter.toNat < n - 1 then .data1 else .done
      spiClk := false
      counter := s.counter + 1 }
  | .done =>
    { s with
      state := if i.wrenI = false then .idle else .done
      counter := 0
      dataValid := true
      spiMosi := false }

/-- `data_o`. -/
def dataO (s : SpiMaster n) : BitVec n := s.dataReg

/-- The entity as a machine that emits its clock and its data line. -/
def machine : Lib.Mealy (SpiMaster n) (SpiMasterIn n) (Bool × Bool) where
  step := step
  out s _ := [(s.spiClk, s.spiMosi)]

/-- The registers after the first `k` inputs of a stream. -/
def after (s : SpiMaster n) (x : ℕ → SpiMasterIn n) (k : ℕ) : SpiMaster n :=
  machine.run s (Lib.Mealy.inputs x k)

variable {s : SpiMaster n} {x : ℕ → SpiMasterIn n} {i k d : ℕ}

theorem after_succ : s.after x (k + 1) = (s.after x k).step (x k) := machine.run_inputs_succ s x k

/-! ## A transfer -/

/-- The bit that the master samples as its bit `i`. -/
def sampled (x : ℕ → SpiMasterIn n) (i : ℕ) : Bool := (x (4 * i + 3)).spiMiso

/-- The registers in cycle `p` of bit `i`, when `a` is sent and `b` comes in. -/
def bitCycle (a : BitVec n) (b : ℕ → Bool) (i p : ℕ) : SpiMaster n where
  state := if p = 0 then .data1 else if p = 1 then .clock1 else if p = 2 then .data2 else .clock2
  dataReg := Lib.shifted a b (if p = 3 then i + 1 else i)
  counter := BitVec.ofNat n i
  dataValid := false
  spiClk := decide (2 ≤ p)
  spiMosi := if p = 0 then decide (0 < i) && a.getMsbD (i - 1) else a.getMsbD i

/-- The registers in the first cycle behind the last bit. -/
def finished (a : BitVec n) (b : ℕ → Bool) : SpiMaster n where
  state := .done
  dataReg := Lib.serial n b
  counter := BitVec.ofNat n n
  dataValid := false
  spiClk := false
  spiMosi := a.getMsbD (n - 1)

/-- The registers in the cycles behind that one, up to the first one of `idle`. -/
def waiting (state : SpiState) (b : ℕ → Bool) : SpiMaster n where
  state := state
  dataReg := Lib.serial n b
  counter := 0
  dataValid := true
  spiClk := false
  spiMosi := false

section Bit

variable {a : BitVec n} {b : ℕ → Bool} {y : SpiMasterIn n}

theorem step_data1 (hi : i < n) : (bitCycle a b i 0).step y = bitCycle a b i 1 := by
  have hmsb : (bitCycle a b i 0).dataReg.msb = a.getMsbD i := Lib.msb_shifted hi
  show { bitCycle a b i 0 with
    state := .clock1, dataValid := false, spiMosi := (bitCycle a b i 0).dataReg.msb } = _
  rw [hmsb]
  rfl

theorem step_clock1 : (bitCycle a b i 1).step y = bitCycle a b i 2 := rfl

theorem step_data2 (hy : y.spiMiso = b i) : (bitCycle a b i 2).step y = bitCycle a b i 3 := by
  show { bitCycle a b i 2 with
    state := .clock2, dataReg := (bitCycle a b i 2).dataReg.shiftConcat y.spiMiso } = _
  rw [hy]
  rfl

theorem step_clock2 (hi : i < n) : (bitCycle a b i 3).step y =
    if i + 1 < n then bitCycle a b (i + 1) 0 else finished a b := by
  have hcount : (BitVec.ofNat n i).toNat = i := by
    rw [BitVec.toNat_ofNat, Nat.mod_eq_of_lt (Nat.lt_trans hi Nat.lt_two_pow_self)]
  have hnext : BitVec.ofNat n i + 1 = BitVec.ofNat n (i + 1) := (BitVec.ofNat_add i 1).symm
  show { bitCycle a b i 3 with
    state := if (BitVec.ofNat n i).toNat < n - 1 then .data1 else .done
    spiClk := false
    counter := BitVec.ofNat n i + 1 } = _
  rw [hcount, hnext]
  by_cases hlast : i + 1 < n
  · rw [if_pos hlast, if_pos (by omega)]
    rfl
  · have hn : n = i + 1 := by omega
    rw [if_neg hlast, if_neg (by omega)]
    subst hn
    show SpiMaster.mk _ _ _ _ _ _ = SpiMaster.mk _ _ _ _ _ _
    rw [← Lib.shifted_all (x := a)]
    rfl

end Bit

/-- The four cycles of a bit. -/
theorem after_bit_of_first (hi : i < n)
    (h : s.after x (4 * i + 1) = bitCycle (x 0).dataI (sampled x) i 0) :
    ∀ p < 4, s.after x (4 * i + 1 + p) = bitCycle (x 0).dataI (sampled x) i p := by
  have h1 : s.after x (4 * i + 1 + 1) = bitCycle (x 0).dataI (sampled x) i 1 := by
    rw [after_succ, h, step_data1 hi]
  have h2 : s.after x (4 * i + 1 + 2) = bitCycle (x 0).dataI (sampled x) i 2 := by
    rw [after_succ, h1, step_clock1]
  have h3 : s.after x (4 * i + 1 + 3) = bitCycle (x 0).dataI (sampled x) i 3 := by
    rw [after_succ, h2, step_data2 rfl]
  intro p hp
  rcases (by omega : p = 0 ∨ p = 1 ∨ p = 2 ∨ p = 3) with rfl | rfl | rfl | rfl
  · exact h
  · exact h1
  · exact h2
  · exact h3

section Transfer

variable (hidle : s.state = .idle) (hwren : (x 0).wrenI = true)
include hidle hwren

/-- The registers in every cycle of a transfer. -/
theorem after_bit (hi : i < n) :
    ∀ p < 4, s.after x (4 * i + 1 + p) = bitCycle (x 0).dataI (sampled x) i p := by
  refine after_bit_of_first hi ?_
  induction i with
  | zero =>
    rw [Nat.mul_zero, after_succ]
    show s.step (x 0) = _
    rw [step, hidle]
    simp only [hwren, if_true]
    rfl
  | succ i ih =>
    have hprev : i < n := Nat.lt_of_succ_lt hi
    have hlast := after_bit_of_first hprev (ih hprev) 3 (by omega)
    rw [show 4 * (i + 1) + 1 = 4 * i + 1 + 3 + 1 by omega, after_succ, hlast,
      step_clock2 hprev, if_pos hi]

theorem after_finished (hn : 0 < n) :
    s.after x (4 * n + 1) = finished (x 0).dataI (sampled x) := by
  have hlast := after_bit hidle hwren (Nat.sub_lt hn Nat.one_pos) 3 (by omega)
  rw [show 4 * n + 1 = 4 * (n - 1) + 1 + 3 + 1 by omega, after_succ, hlast,
    step_clock2 (Nat.sub_lt hn Nat.one_pos), if_neg (by omega)]

/-- While `wren` is high, the master waits. -/
theorem after_waiting (hn : 0 < n) (hd : 4 * n + 1 ≤ d)
    (hhigh : ∀ k, 4 * n + 1 ≤ k → k < d → (x k).wrenI = true) :
    s.after x (d + 1) = waiting (if (x d).wrenI = false then .idle else .done) (sampled x) := by
  induction d, hd using Nat.le_induction with
  | base =>
    rw [after_succ, after_finished hidle hwren hn]
    rfl
  | succ d hd ih =>
    rw [after_succ, ih fun k hlo hhi => hhigh k hlo (Nat.lt_succ_of_lt hhi),
      hhigh d hd (Nat.lt_succ_self d)]
    rfl

end Transfer

end SpiMaster

end HfRisc.Rtl
