import HfRisc.Lib.Mealy
import HfRisc.Lib.Serial
import Mathlib.Data.Nat.Init

/-!
# The SPI master and slave (`spi_master_slave.vhd`)

One entity for both sides of the bus. As a master (`spi_ssn_i` high) it moves in the cycles
in which its clock divider is at zero; as a slave it moves in every cycle and follows the
clock of the other side.
-/

namespace HfRisc.Rtl

/-- The states of the entity: the slave has its own for a bit. -/
inductive SpiDuplexState
  | idle | data1 | clock1 | data2 | clock2 | sdata1 | sdata2 | done
deriving DecidableEq, Repr

/-- The registers at `BYTE_SIZE = n`. -/
structure SpiMasterSlave (n : ℕ) where
  state : SpiDuplexState
  dataReg : BitVec n
  clkCnt : BitVec 9
  counter : BitVec 9
  dataValid : Bool
  spiClkO : Bool
  spiDoO : Bool
deriving DecidableEq, Repr

/-- The inputs in one cycle. -/
structure SpiMasterSlaveIn (n : ℕ) where
  dataI : BitVec n
  wrenI : Bool
  clkDivI : BitVec 9
  spiSsnI : Bool
  spiClkI : Bool
  spiDiI : Bool

namespace SpiMasterSlave

variable {n : ℕ}

/-- The registers after `rst_i`. -/
def reset (n : ℕ) : SpiMasterSlave n where
  state := .idle
  dataReg := 0
  clkCnt := 0
  counter := 0
  dataValid := false
  spiClkO := false
  spiDoO := false

variable (s : SpiMasterSlave n) (i : SpiMasterSlaveIn n)

def fsmTrigger : Bool := s.clkCnt == 0 || !i.spiSsnI

/-- What the two processes do at a clock edge with the trigger. -/
def fire : SpiMasterSlave n :=
  match s.state with
  | .idle =>
    { s with
      state := if i.spiSsnI then (if i.wrenI then .data1 else .idle) else .sdata1
      dataReg := i.dataI
      counter := 0
      dataValid := false
      spiClkO := false
      spiDoO := false }
  | .data1 => { s with state := .clock1, dataValid := false, spiDoO := s.dataReg.msb }
  | .clock1 => { s with state := .data2, spiClkO := true }
  | .data2 => { s with state := .clock2, dataReg := s.dataReg.shiftConcat i.spiDiI }
  | .clock2 =>
    { s with
      state := if s.counter.toNat < n - 1 then .data1 else .done
      spiClkO := false
      counter := s.counter + 1 }
  | .sdata1 =>
    { s with
      state := if i.spiClkI then .sdata2 else .sdata1
      dataValid := false
      spiDoO := s.dataReg.msb }
  | .sdata2 =>
    if i.spiClkI then s
    else
      { s with
        state := if s.counter.toNat < n - 1 then .sdata1 else .done
        dataReg := s.dataReg.shiftConcat i.spiDiI
        counter := s.counter + 1
        spiDoO := s.dataReg.msb }
  | .done =>
    { s with
      state :=
        if i.spiSsnI then (if i.wrenI then .done else .idle)
        else (if i.spiClkI then .sdata1 else .done)
      counter := 0
      dataValid := true
      spiDoO := false }

/-- One clock edge. -/
def step : SpiMasterSlave n :=
  { (if s.fsmTrigger i then s.fire i else s) with
    clkCnt := if s.clkCnt < i.clkDivI then s.clkCnt + 1 else 0 }

/-- `data_o`. -/
def dataO : BitVec n := s.dataReg

variable {s i}

/-- Without the trigger only the divider moves. -/
theorem step_hold (h : s.fsmTrigger i = false) :
    s.step i = { s with clkCnt := if s.clkCnt < i.clkDivI then s.clkCnt + 1 else 0 } := by
  rw [step, h]
  rfl

theorem step_fire (h : s.fsmTrigger i = true) : s.step i =
    { s.fire i with clkCnt := if s.clkCnt < i.clkDivI then s.clkCnt + 1 else 0 } := by
  rw [step, h]
  rfl

/-- A slave moves in every cycle. -/
theorem fsmTrigger_slave (h : i.spiSsnI = false) : s.fsmTrigger i = true := by
  rw [fsmTrigger, h, Bool.not_false, Bool.or_true]

theorem fsmTrigger_master (h : i.spiSsnI = true) : s.fsmTrigger i = true ↔ s.clkCnt = 0 := by
  rw [fsmTrigger, h, Bool.not_true, Bool.or_false, beq_iff_eq]

/-- Whatever the divider is set to, it comes back to zero. -/
theorem exists_clkCnt {u : ℕ → SpiMasterSlave n} {x : ℕ → SpiMasterSlaveIn n}
    (hu : ∀ k, u (k + 1) = (u k).step (x k)) (k : ℕ) : ∃ j, k ≤ j ∧ (u j).clkCnt = 0 := by
  have hup : ∀ b k, 511 ≤ (u k).clkCnt.toNat + b → ∃ j, k ≤ j ∧ (u j).clkCnt = 0 := by
    intro b
    induction b with
    | zero =>
      intro k hb
      refine ⟨k + 1, Nat.le_succ k, ?_⟩
      rw [hu, step]
      show (if (u k).clkCnt < (x k).clkDivI then (u k).clkCnt + 1 else 0) = 0
      split
      · have hlt := (u k).clkCnt.isLt
        bv_omega
      · rfl
    | succ b ih =>
      intro k hb
      by_cases hlt : (u k).clkCnt < (x k).clkDivI
      · have hnext : (u (k + 1)).clkCnt = (u k).clkCnt + 1 := by
          rw [hu, step]
          exact if_pos hlt
        obtain ⟨j, hj, h0⟩ := ih (k + 1) (by
          rw [hnext]
          have hdiv := (x k).clkDivI.isLt
          have hlt' : (u k).clkCnt.toNat < (x k).clkDivI.toNat := hlt
          rw [BitVec.toNat_add]
          simp
          omega)
        exact ⟨j, by omega, h0⟩
      · refine ⟨k + 1, Nat.le_succ k, ?_⟩
        rw [hu, step]
        exact if_neg hlt
  exact hup 511 k (Nat.le_add_left _ _)

/-! ## `data_valid` -/

/-- While `data_valid` is high, the entity is done, or has just left that state. -/
def Valid (s : SpiMasterSlave n) : Prop :=
  s.dataValid = true → s.state = .idle ∨ s.state = .done ∨ s.state = .sdata1

theorem Valid.fire (h : s.Valid) : (s.fire i).Valid := by
  intro hv
  -- the bits of a transfer leave `data_valid` as it is
  have hbit : s.state ≠ .idle → s.state ≠ .done → s.state ≠ .sdata1 → s.dataValid ≠ true := by
    intro h₁ h₂ h₃ hv'
    rcases h hv' with h' | h' | h'
    · exact h₁ h'
    · exact h₂ h'
    · exact h₃ h'
  cases hs : s.state with
  | idle =>
    rw [SpiMasterSlave.fire, hs] at hv
    cases hv
  | data1 =>
    rw [SpiMasterSlave.fire, hs] at hv
    cases hv
  | sdata1 =>
    rw [SpiMasterSlave.fire, hs] at hv
    cases hv
  | done =>
    rw [SpiMasterSlave.fire, hs]
    dsimp only
    split_ifs <;> simp
  | clock1 =>
    rw [SpiMasterSlave.fire, hs] at hv
    exact absurd hv (hbit (by simp [hs]) (by simp [hs]) (by simp [hs]))
  | data2 =>
    rw [SpiMasterSlave.fire, hs] at hv
    exact absurd hv (hbit (by simp [hs]) (by simp [hs]) (by simp [hs]))
  | clock2 =>
    rw [SpiMasterSlave.fire, hs] at hv
    exact absurd hv (hbit (by simp [hs]) (by simp [hs]) (by simp [hs]))
  | sdata2 =>
    rw [SpiMasterSlave.fire, hs] at hv
    have hv' : s.dataValid = true := by
      cases hclk : i.spiClkI <;> simpa [hclk] using hv
    exact absurd hv' (hbit (by simp [hs]) (by simp [hs]) (by simp [hs]))

theorem Valid.step (h : s.Valid) : (s.step i).Valid := by
  cases ht : s.fsmTrigger i with
  | false =>
    rw [step_hold ht]
    exact h
  | true =>
    rw [step_fire ht]
    exact h.fire

/-- The word on `data_o` stays while `data_valid` does. -/
theorem Valid.dataO_step (h : s.Valid) (hv : s.dataValid = true)
    (hv' : (s.step i).dataValid = true) : (s.step i).dataO = s.dataO := by
  cases ht : s.fsmTrigger i with
  | false =>
    rw [step_hold ht]
    rfl
  | true =>
    rw [step_fire ht] at hv' ⊢
    change (s.fire i).dataValid = true at hv'
    show (s.fire i).dataReg = s.dataReg
    rcases h hv with hs | hs | hs
    · rw [SpiMasterSlave.fire, hs] at hv'
      cases hv'
    · rw [SpiMasterSlave.fire, hs]
    · rw [SpiMasterSlave.fire, hs]

end SpiMasterSlave

end HfRisc.Rtl
