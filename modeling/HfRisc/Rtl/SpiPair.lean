import HfRisc.Rtl.SpiMasterSlave

/-!
# A master and a slave on one bus

Two instances of `spi_master_slave` on one clock, each with its data line at the other's
input. The slave sees a clock edge of the master in the next cycle and needs one more to
drive its next bit. `During` says where it can be in each cycle of a bit; the master's
divider only makes the cycles of a bit longer.
-/

namespace HfRisc.Rtl

/-- The registers of both. -/
structure SpiPair (n : ℕ) where
  master : SpiMasterSlave n
  slave : SpiMasterSlave n

/-- The inputs that do not come from the other side. -/
structure SpiPairIn (n : ℕ) where
  masterData : BitVec n
  masterWren : Bool
  masterDiv : BitVec 9
  masterClk : Bool
  slaveData : BitVec n
  slaveWren : Bool
  slaveDiv : BitVec 9

namespace SpiPair

variable {n : ℕ}

def reset (n : ℕ) : SpiPair n := ⟨.reset n, .reset n⟩

section Wires

variable (s : SpiPair n) (i : SpiPairIn n)

def masterIn : SpiMasterSlaveIn n :=
  ⟨i.masterData, i.masterWren, i.masterDiv, true, i.masterClk, s.slave.spiDoO⟩

def slaveIn : SpiMasterSlaveIn n :=
  ⟨i.slaveData, i.slaveWren, i.slaveDiv, false, s.master.spiClkO, s.master.spiDoO⟩

/-- One clock edge of both. -/
def step : SpiPair n := ⟨s.master.step (s.masterIn i), s.slave.step (s.slaveIn i)⟩

/-- The master moves in this cycle. -/
def Triggers : Prop := s.master.clkCnt = 0

/-- The master starts a transfer in this cycle. -/
def Starts : Prop := s.master.state = .idle ∧ s.Triggers ∧ i.masterWren = true

instance : Decidable s.Triggers := inferInstanceAs (Decidable (_ = _))

instance : Decidable (s.Starts i) := inferInstanceAs (Decidable (_ ∧ _))

end Wires

/-- The pair as a machine that emits the clock line of the bus. -/
def machine : Lib.Mealy (SpiPair n) (SpiPairIn n) Bool where
  step := step
  out s _ := [s.master.spiClkO]

/-- The registers after the first `k` inputs of a stream, from the reset of both. -/
def after (x : ℕ → SpiPairIn n) (k : ℕ) : SpiPair n :=
  machine.run (reset n) (Lib.Mealy.inputs x k)

theorem after_succ {x : ℕ → SpiPairIn n} {k : ℕ} :
    after x (k + 1) = (after x k).step (x k) := machine.run_inputs_succ _ x k

/-! ## The slave in a bit -/

variable {s : SpiMasterSlave n} {i : SpiMasterSlaveIn n} {w m r : BitVec n} {j : ℕ}
  {first : Bool}

/-- The slave waits for the clock of bit `j`; `w` is its word, `m` the master's. -/
structure Low (first : Bool) (w m : BitVec n) (j : ℕ) (s : SpiMasterSlave n) : Prop where
  state : s.state = .sdata1
  counter : s.counter.toNat = j
  reg : s.dataReg = Lib.shifted w m.getMsbD j
  valid : first = true → s.dataValid = false

/-- The slave has seen the clock of bit `j` rise. -/
structure High (w m : BitVec n) (j : ℕ) (s : SpiMasterSlave n) : Prop where
  state : s.state = .sdata2
  counter : s.counter.toNat = j
  reg : s.dataReg = Lib.shifted w m.getMsbD j
  valid : s.dataValid = false
  line : s.spiDoO = w.getMsbD j

/-- The slave has the word `r` of a transfer. -/
structure Waiting (r : BitVec n) (s : SpiMasterSlave n) : Prop where
  state : s.state = .done
  reg : s.dataReg = r

section Slave

variable (hssn : i.spiSsnI = false)
include hssn

theorem Low.step (h : Low first w m j s) (hj : j < n) (hclk : i.spiClkI = false) :
    Low first w m j (s.step i) ∧ (s.step i).spiDoO = w.getMsbD j := by
  have hmsb : s.dataReg.msb = w.getMsbD j := by rw [h.reg, Lib.msb_shifted hj]
  rw [SpiMasterSlave.step_fire (SpiMasterSlave.fsmTrigger_slave hssn), SpiMasterSlave.fire, h.state]
  simp only [hclk, Bool.false_eq_true, if_false]
  exact ⟨⟨rfl, h.counter, h.reg, fun _ => rfl⟩, hmsb⟩

theorem Low.step_rise (h : Low first w m j s) (hj : j < n) (hclk : i.spiClkI = true) :
    High w m j (s.step i) := by
  have hmsb : s.dataReg.msb = w.getMsbD j := by rw [h.reg, Lib.msb_shifted hj]
  rw [SpiMasterSlave.step_fire (SpiMasterSlave.fsmTrigger_slave hssn), SpiMasterSlave.fire, h.state]
  simp only [hclk, if_true]
  exact ⟨rfl, h.counter, h.reg, rfl, hmsb⟩

theorem High.step (h : High w m j s) (hclk : i.spiClkI = true) : High w m j (s.step i) := by
  rw [SpiMasterSlave.step_fire (SpiMasterSlave.fsmTrigger_slave hssn), SpiMasterSlave.fire, h.state]
  simp only [hclk, if_true]
  exact ⟨h.state, h.counter, h.reg, h.valid, h.line⟩

/-- The clock falls: the bit on the line is taken. -/
theorem High.step_fall (h : High w m j s) (hn : n ≤ 512) (hclk : i.spiClkI = false)
    (hline : i.spiDiI = m.getMsbD j) :
    (j + 1 < n → Low true w m (j + 1) (s.step i)) ∧
      (j + 1 = n → Waiting m (s.step i) ∧ (s.step i).dataValid = false) := by
  have hreg : s.dataReg.shiftConcat i.spiDiI = Lib.shifted w m.getMsbD (j + 1) := by
    rw [hline, h.reg, Lib.shifted_succ]
  rw [SpiMasterSlave.step_fire (SpiMasterSlave.fsmTrigger_slave hssn), SpiMasterSlave.fire, h.state]
  simp only [hclk, Bool.false_eq_true, if_false, h.counter, hreg]
  constructor
  · intro hlt
    have hcount : (s.counter + 1).toNat = j + 1 := by
      rw [BitVec.toNat_add, h.counter]
      simp
      omega
    rw [if_pos (by omega)]
    exact ⟨rfl, hcount, rfl, fun _ => h.valid⟩
  · intro heq
    rw [if_neg (by omega)]
    refine ⟨⟨rfl, ?_⟩, h.valid⟩
    show Lib.shifted w m.getMsbD (j + 1) = m
    rw [heq, Lib.shifted_all]
    exact Lib.serial_eq fun _ _ => rfl

theorem Waiting.step (h : Waiting r s) (hclk : i.spiClkI = false) :
    Waiting r (s.step i) ∧ (s.step i).dataValid = true := by
  rw [SpiMasterSlave.step_fire (SpiMasterSlave.fsmTrigger_slave hssn), SpiMasterSlave.fire, h.state]
  simp only [hssn, hclk, Bool.false_eq_true, if_false]
  exact ⟨⟨rfl, h.reg⟩, trivial⟩

/-- The clock of the next transfer: the old word is the one that is sent. -/
theorem Waiting.step_rise (h : Waiting r s) (hclk : i.spiClkI = true) :
    Low false r m 0 (s.step i) := by
  rw [SpiMasterSlave.step_fire (SpiMasterSlave.fsmTrigger_slave hssn), SpiMasterSlave.fire, h.state]
  simp only [hssn, hclk, Bool.false_eq_true, if_false, if_true]
  exact ⟨rfl, rfl, h.reg, fun hf => absurd hf Bool.false_ne_true⟩

end Slave

/-! ## The master in a bit -/

/-- The bits that have been sampled. -/
def taken (p : SpiDuplexState) (j : ℕ) : ℕ := if p = .clock2 then j + 1 else j

/-- The master sends bit `j` of `m`; in a first transfer it has taken those of `w`. -/
structure Driving (first : Bool) (m w : BitVec n) (p : SpiDuplexState) (j : ℕ)
    (s : SpiMasterSlave n) : Prop where
  state : s.state = p
  counter : s.counter.toNat = j
  clk : s.spiClkO = decide (p = .data2 ∨ p = .clock2)
  line : s.spiDoO = if p = .data1 then decide (0 < j) && m.getMsbD (j - 1) else m.getMsbD j
  valid : s.dataValid = false
  reg : ∃ b, s.dataReg = Lib.shifted m b (taken p j) ∧
    (first = true → ∀ k < taken p j, b k = w.getMsbD k)

/-- The master has sent its last bit. -/
structure Sent (first : Bool) (m w : BitVec n) (s : SpiMasterSlave n) : Prop where
  state : s.state = .done
  clk : s.spiClkO = false
  line : s.spiDoO = m.getMsbD (n - 1)
  valid : s.dataValid = false
  reg : first = true → s.dataReg = w

section Master

variable {p : SpiDuplexState}

/-- Without the trigger nothing on the bus changes. -/
theorem Driving.hold (h : Driving first m w p j s) (ht : s.fsmTrigger i = false) :
    Driving first m w p j (s.step i) := by
  rw [SpiMasterSlave.step_hold ht]
  exact ⟨h.state, h.counter, h.clk, h.line, h.valid, h.reg⟩

variable (ht : s.fsmTrigger i = true)
include ht

theorem Driving.step_data1 (h : Driving first m w .data1 j s) (hj : j < n) :
    Driving first m w .clock1 j (s.step i) := by
  obtain ⟨b, hreg, hb⟩ := h.reg
  rw [SpiMasterSlave.step_fire ht, SpiMasterSlave.fire, h.state]
  refine ⟨rfl, h.counter, h.clk, ?_, rfl, b, hreg, hb⟩
  show s.dataReg.msb = m.getMsbD j
  rw [hreg]
  exact Lib.msb_shifted hj

theorem Driving.step_clock1 (h : Driving first m w .clock1 j s) :
    Driving first m w .data2 j (s.step i) := by
  rw [SpiMasterSlave.step_fire ht, SpiMasterSlave.fire, h.state]
  exact ⟨rfl, h.counter, rfl, h.line, h.valid, h.reg⟩

theorem Driving.step_data2 (h : Driving first m w .data2 j s)
    (hline : first = true → i.spiDiI = w.getMsbD j) :
    Driving first m w .clock2 j (s.step i) := by
  obtain ⟨b, hreg, hb⟩ := h.reg
  rw [SpiMasterSlave.step_fire ht, SpiMasterSlave.fire, h.state]
  refine ⟨rfl, h.counter, h.clk, h.line, h.valid, Function.update b j i.spiDiI, ?_,
    fun hf k hk => ?_⟩
  · show s.dataReg.shiftConcat i.spiDiI = Lib.shifted m _ (j + 1)
    rw [hreg]
    exact Lib.shiftConcat_shifted m b j i.spiDiI
  · rcases Nat.lt_or_eq_of_le (Nat.le_of_lt_succ hk) with hlt | rfl
    · rw [Function.update_of_ne (Nat.ne_of_lt hlt)]
      exact hb hf k hlt
    · rw [Function.update_self, hline hf]

theorem Driving.step_clock2 (h : Driving first m w .clock2 j s) (hn : n ≤ 512) :
    (j + 1 < n → Driving first m w .data1 (j + 1) (s.step i)) ∧
      (j + 1 = n → Sent first m w (s.step i)) := by
  obtain ⟨b, hreg, hb⟩ := h.reg
  have hline : s.spiDoO = m.getMsbD j := h.line
  rw [SpiMasterSlave.step_fire ht, SpiMasterSlave.fire, h.state]
  simp only [h.counter]
  constructor
  · intro hlt
    rw [if_pos (by omega)]
    refine ⟨rfl, ?_, rfl, ?_, h.valid, b, hreg, hb⟩
    · show (s.counter + 1).toNat = j + 1
      rw [BitVec.toNat_add, h.counter]
      simp
      omega
    · show s.spiDoO = (decide (0 < j + 1) && m.getMsbD j)
      simp [hline]
  · intro heq
    rw [if_neg (by omega)]
    refine ⟨rfl, rfl, ?_, h.valid, fun hf => ?_⟩
    · show s.spiDoO = m.getMsbD (n - 1)
      rw [hline, show n - 1 = j by omega]
    · show s.dataReg = w
      have hall : taken .clock2 j = n := heq
      rw [hreg, hall, Lib.shifted_all]
      exact Lib.serial_eq fun k hk => hb hf k (by rw [hall]; exact hk)

end Master

/-! ## Both in a bit -/

/-- Where the slave can be while the master is in cycle `p` of bit `j`. In a transfer that
is not the first, it may still wait with the old word or have left that state late. -/
inductive SlaveAt (first : Bool) (w m : BitVec n) :
    SpiDuplexState → ℕ → SpiMasterSlave n → Prop
  | falling {j q} (h : High w m j q) : SlaveAt first w m .data1 (j + 1) q
  | low {p j q} (hp : p = .data1 ∨ p = .clock1) (h : Low first w m j q) : SlaveAt first w m p j q
  | ready {j q} (h : Low first w m j q) (hline : q.spiDoO = w.getMsbD j) :
      SlaveAt first w m .data2 j q
  | high {p j q} (hp : p = .data2 ∨ p = .clock2) (h : High w m j q) : SlaveAt first w m p j q
  | waiting {p q} (hf : first = false) (hp : p = .data1 ∨ p = .clock1 ∨ p = .data2)
      (h : Waiting w q) : SlaveAt first w m p 0 q
  | late {p q} (hf : first = false) (hp : p = .data2 ∨ p = .clock2) (h : Low false w m 0 q) :
      SlaveAt first w m p 0 q

theorem Low.weaken {q : SpiMasterSlave n} (h : Low true w m j q) : Low first w m j q :=
  ⟨h.state, h.counter, h.reg, fun _ => h.valid rfl⟩

section SlaveStep

variable {q : SpiMasterSlave n} (hssn : i.spiSsnI = false) (hj : j < n)
include hssn hj

theorem SlaveAt.step_data1 (h : SlaveAt first w m .data1 j q) (hn : n ≤ 512)
    (hclk : i.spiClkI = false) (hline : i.spiDiI = (decide (0 < j) && m.getMsbD (j - 1))) :
    Low first w m j (q.step i) ∨ j = 0 ∧ first = false ∧ Waiting w (q.step i) := by
  cases h with
  | falling h =>
    have hfall := (h.step_fall hssn hn hclk (by rw [hline]; simp)).1 hj
    exact .inl hfall.weaken
  | low _ h => exact .inl (h.step hssn hj hclk).1
  | high hp _ => exact absurd hp (by simp)
  | waiting hf _ h => exact .inr ⟨rfl, hf, (h.step hssn hclk).1⟩
  | late _ hp _ => exact absurd hp (by simp)

theorem SlaveAt.step_clock1 (h : SlaveAt first w m .clock1 j q) (hclk : i.spiClkI = false) :
    Low first w m j (q.step i) ∧ (q.step i).spiDoO = w.getMsbD j ∨
      j = 0 ∧ first = false ∧ Waiting w (q.step i) := by
  cases h with
  | low _ h => exact .inl (h.step hssn hj hclk)
  | high hp _ => exact absurd hp (by simp)
  | waiting hf _ h => exact .inr ⟨rfl, hf, (h.step hssn hclk).1⟩
  | late _ hp _ => exact absurd hp (by simp)

theorem SlaveAt.step_data2 (h : SlaveAt first w m .data2 j q) (hclk : i.spiClkI = true) :
    High w m j (q.step i) ∨ j = 0 ∧ first = false ∧ Low false w m 0 (q.step i) := by
  cases h with
  | low hp _ => exact absurd hp (by simp)
  | ready h _ => exact .inl (h.step_rise hssn hj hclk)
  | high _ h => exact .inl (h.step hssn hclk)
  | waiting hf _ h => exact .inr ⟨rfl, hf, h.step_rise hssn hclk⟩
  | late _ _ h => exact .inl (h.step_rise hssn hj hclk)

theorem SlaveAt.step_clock2 (h : SlaveAt first w m .clock2 j q) (hclk : i.spiClkI = true) :
    High w m j (q.step i) := by
  cases h with
  | low hp _ => exact absurd hp (by simp)
  | high _ h => exact h.step hssn hclk
  | waiting _ hp _ => exact absurd hp (by simp)
  | late _ _ h => exact h.step_rise hssn hj hclk

end SlaveStep

/-- What the master reads in the cycle in which it samples. -/
theorem SlaveAt.line {q : SpiMasterSlave n} (h : SlaveAt first w m .data2 j q)
    (hf : first = true) : q.spiDoO = w.getMsbD j := by
  cases h with
  | low hp _ => exact absurd hp (by simp)
  | ready _ hline => exact hline
  | high _ h => exact h.line
  | waiting hf' _ _ => exact absurd (hf.symm.trans hf') (by decide)
  | late hf' _ _ => exact absurd (hf.symm.trans hf') (by decide)

/-- A transfer is on its way: the master sends `m`, the slave `w`. -/
structure During (first : Bool) (m w : BitVec n) (p : SpiDuplexState) (j : ℕ)
    (s : SpiPair n) : Prop where
  bit : j < n
  master : Driving first m w p j s.master
  slave : SlaveAt first w m p j s.slave

/-- The last bit has been sent. -/
structure LastFall (first : Bool) (m w : BitVec n) (s : SpiPair n) : Prop where
  master : Sent first m w s.master
  slave : High w m (n - 1) s.slave

/-- The cycle that follows `p` when the master moves. -/
def nextPhase : SpiDuplexState → SpiDuplexState
  | .data1 => .clock1
  | .clock1 => .data2
  | .data2 => .clock2
  | p => p

section Pair

variable {s : SpiPair n} {x : SpiPairIn n} {p : SpiDuplexState}

theorem During.phase (h : During first m w p j s) :
    p = .data1 ∨ p = .clock1 ∨ p = .data2 ∨ p = .clock2 := by
  cases h.slave with
  | falling _ => exact .inl rfl
  | low hp _ => exact hp.elim .inl fun hp => .inr (.inl hp)
  | ready _ _ => exact .inr (.inr (.inl rfl))
  | high hp _ => exact .inr (.inr hp)
  | waiting _ hp _ => exact hp.imp_right fun hp => hp.imp_right .inl
  | late _ hp _ => exact .inr (.inr hp)

theorem trigger_iff : s.master.fsmTrigger (s.masterIn x) = true ↔ s.Triggers :=
  SpiMasterSlave.fsmTrigger_master rfl

/-- While the master's divider counts, the cycle of the bit goes on. -/
theorem During.hold (h : During first m w p j s) (hn : n ≤ 512) (ht : ¬ s.Triggers) :
    During first m w p j (s.step x) := by
  have ht' : s.master.fsmTrigger (s.masterIn x) = false :=
    Bool.eq_false_iff.mpr fun h => ht (trigger_iff.mp h)
  refine ⟨h.bit, h.master.hold ht', ?_⟩
  show SlaveAt first w m p j (s.slave.step (s.slaveIn x))
  have hclk : (s.slaveIn x).spiClkI = decide (p = .data2 ∨ p = .clock2) := h.master.clk
  have hline : (s.slaveIn x).spiDiI = s.master.spiDoO := rfl
  have hslave := h.slave
  rcases h.phase with rfl | rfl | rfl | rfl
  · rcases hslave.step_data1 rfl h.bit hn hclk (hline.trans h.master.line) with hlow | ⟨rfl, hf, hw⟩
    · exact .low (.inl rfl) hlow
    · exact .waiting hf (.inl rfl) hw
  · rcases hslave.step_clock1 rfl h.bit hclk with ⟨hlow, -⟩ | ⟨rfl, hf, hw⟩
    · exact .low (.inr rfl) hlow
    · exact .waiting hf (.inr (.inl rfl)) hw
  · rcases hslave.step_data2 rfl h.bit hclk with hhigh | ⟨rfl, hf, hlate⟩
    · exact .high (.inl rfl) hhigh
    · exact .late hf (.inl rfl) hlate
  · exact .high (.inr rfl) (hslave.step_clock2 rfl h.bit hclk)

/-- A move of the master within a bit. -/
theorem During.move (h : During first m w p j s) (hn : n ≤ 512) (ht : s.Triggers)
    (hp : p ≠ .clock2) : During first m w (nextPhase p) j (s.step x) := by
  have ht' := (trigger_iff (x := x)).mpr ht
  have hclk : (s.slaveIn x).spiClkI = decide (p = .data2 ∨ p = .clock2) := h.master.clk
  have hline : (s.slaveIn x).spiDiI = s.master.spiDoO := rfl
  have hslave := h.slave
  rcases h.phase with rfl | rfl | rfl | rfl
  · refine ⟨h.bit, h.master.step_data1 ht' h.bit, ?_⟩
    show SlaveAt first w m .clock1 j (s.slave.step (s.slaveIn x))
    rcases hslave.step_data1 rfl h.bit hn hclk (hline.trans h.master.line) with hlow | ⟨rfl, hf, hw⟩
    · exact .low (.inr rfl) hlow
    · exact .waiting hf (.inr (.inl rfl)) hw
  · refine ⟨h.bit, h.master.step_clock1 ht', ?_⟩
    show SlaveAt first w m .data2 j (s.slave.step (s.slaveIn x))
    rcases hslave.step_clock1 rfl h.bit hclk with ⟨hlow, hready⟩ | ⟨rfl, hf, hw⟩
    · exact .ready hlow hready
    · exact .waiting hf (.inr (.inr rfl)) hw
  · refine ⟨h.bit, h.master.step_data2 ht' fun hf => hslave.line hf, ?_⟩
    show SlaveAt first w m .clock2 j (s.slave.step (s.slaveIn x))
    rcases hslave.step_data2 rfl h.bit hclk with hhigh | ⟨rfl, hf, hlate⟩
    · exact .high (.inr rfl) hhigh
    · exact .late hf (.inr rfl) hlate
  · exact absurd rfl hp

/-- From one bit to the next one, or behind the last one. -/
theorem During.fall (h : During first m w .clock2 j s) (hn : n ≤ 512) (ht : s.Triggers) :
    (j + 1 < n → During first m w .data1 (j + 1) (s.step x)) ∧
      (j + 1 = n → LastFall first m w (s.step x)) := by
  have ht' := (trigger_iff (x := x)).mpr ht
  have hhigh : High w m j (s.slave.step (s.slaveIn x)) :=
    h.slave.step_clock2 rfl h.bit h.master.clk
  obtain ⟨hnext, hlast⟩ := h.master.step_clock2 ht' hn
  refine ⟨fun hlt => ⟨hlt, hnext hlt, .falling hhigh⟩, fun heq => ⟨hlast heq, ?_⟩⟩
  rw [show n - 1 = j by omega]
  exact hhigh

end Pair

/-! ## Between the transfers -/

/-- No transfer has started yet: the slave has loaded `w`. -/
structure Fresh (w : BitVec n) (s : SpiPair n) : Prop where
  state : s.master.state = .idle
  clk : s.master.spiClkO = false
  valid : s.master.dataValid = false
  slave : Low true w w 0 s.slave

/-- The master has sent `m` and the slave has it. -/
structure Rest (m : BitVec n) (s : SpiPair n) : Prop where
  state : s.master.state = .idle ∨ s.master.state = .done
  clk : s.master.spiClkO = false
  slave : Waiting m s.slave

/-- A word that has not been shifted is not of any transfer. -/
theorem Low.change {q : SpiMasterSlave n} {m' : BitVec n} (h : Low first w m 0 q) :
    Low first w m' 0 q := ⟨h.state, h.counter, h.reg, h.valid⟩

section Between

variable {s : SpiPair n} {x : SpiPairIn n}

theorem driving_of_idle {q : SpiMasterSlave n} {y : SpiMasterSlaveIn n} (hidle : q.state = .idle)
    (ht : q.fsmTrigger y = true) (hssn : y.spiSsnI = true) (hwren : y.wrenI = true) :
    Driving first y.dataI w .data1 0 (q.step y) := by
  rw [SpiMasterSlave.step_fire ht, SpiMasterSlave.fire, hidle]
  simp only [hssn, hwren, if_true]
  exact ⟨rfl, rfl, rfl, rfl, rfl, fun _ => false, rfl, fun _ k hk => absurd hk (Nat.not_lt_zero k)⟩

/-- Without a start an idle master stays so. -/
theorem idle_step (hidle : s.master.state = .idle) (hstart : ¬ s.Starts x) :
    (s.step x).master.state = .idle ∧
      (s.master.spiClkO = false → (s.step x).master.spiClkO = false) ∧
      (s.master.dataValid = false → (s.step x).master.dataValid = false) := by
  show (s.master.step (s.masterIn x)).state = _ ∧ _
  by_cases ht : s.Triggers
  · have hwren : (s.masterIn x).wrenI = false :=
      Bool.eq_false_iff.mpr fun hw => hstart ⟨hidle, ht, hw⟩
    show _ ∧ (_ → (s.master.step (s.masterIn x)).spiClkO = false) ∧
      (_ → (s.master.step (s.masterIn x)).dataValid = false)
    rw [SpiMasterSlave.step_fire (trigger_iff.mpr ht), SpiMasterSlave.fire, hidle]
    refine ⟨?_, fun _ => rfl, fun _ => rfl⟩
    simp only [hwren, Bool.false_eq_true, if_false]
    rfl
  · have ht' : s.master.fsmTrigger (s.masterIn x) = false :=
      Bool.eq_false_iff.mpr fun h => ht (trigger_iff.mp h)
    show _ ∧ (_ → (s.master.step (s.masterIn x)).spiClkO = false) ∧
      (_ → (s.master.step (s.masterIn x)).dataValid = false)
    rw [SpiMasterSlave.step_hold ht']
    exact ⟨hidle, id, id⟩

/-- A master behind a transfer goes to idle or stays, with its clock low. -/
theorem done_step (hdone : s.master.state = .done) (hclk : s.master.spiClkO = false) :
    ((s.step x).master.state = .idle ∨ (s.step x).master.state = .done) ∧
      (s.step x).master.spiClkO = false := by
  show ((s.master.step (s.masterIn x)).state = _ ∨ (s.master.step (s.masterIn x)).state = _) ∧
    (s.master.step (s.masterIn x)).spiClkO = _
  by_cases ht : s.Triggers
  · rw [SpiMasterSlave.step_fire (trigger_iff.mpr ht), SpiMasterSlave.fire, hdone]
    refine ⟨?_, hclk⟩
    cases hwren : (s.masterIn x).wrenI with
    | false =>
      simp only [Bool.false_eq_true, if_false]
      exact .inl rfl
    | true =>
      simp only [if_true]
      exact .inr rfl
  · have ht' : s.master.fsmTrigger (s.masterIn x) = false :=
      Bool.eq_false_iff.mpr fun h => ht (trigger_iff.mp h)
    rw [SpiMasterSlave.step_hold ht']
    exact ⟨.inr hdone, hclk⟩

theorem Fresh.step (h : Fresh w s) (hn : 0 < n) (hstart : ¬ s.Starts x) : Fresh w (s.step x) := by
  obtain ⟨hidle, hclk, hvalid⟩ := idle_step h.state hstart
  exact ⟨hidle, hclk h.clk, hvalid h.valid, (h.slave.step rfl hn h.clk).1⟩

theorem Fresh.start (h : Fresh w s) (hn : 0 < n) (hstart : s.Starts x) :
    During true x.masterData w .data1 0 (s.step x) :=
  ⟨hn, driving_of_idle h.state (trigger_iff.mpr hstart.2.1) rfl hstart.2.2,
    .low (.inl rfl) (h.slave.step rfl hn h.clk).1.change⟩

/-- The slave takes the last bit. -/
theorem LastFall.step (h : LastFall first m w s) (hn : 0 < n) (hn' : n ≤ 512) :
    Rest m (s.step x) ∧ (s.step x).slave.dataValid = false := by
  obtain ⟨hstate, hclk⟩ := done_step (x := x) h.master.state h.master.clk
  obtain ⟨hwait, hvalid⟩ :=
    (h.slave.step_fall (i := s.slaveIn x) rfl hn' h.master.clk h.master.line).2 (by omega)
  exact ⟨⟨hstate, hclk, hwait⟩, hvalid⟩

theorem Rest.step (h : Rest m s) (hstart : ¬ s.Starts x) : Rest m (s.step x) := by
  have hslave := (h.slave.step (i := s.slaveIn x) rfl h.clk).1
  rcases h.state with hidle | hdone
  · obtain ⟨hidle', hclk, -⟩ := idle_step hidle hstart
    exact ⟨.inl hidle', hclk h.clk, hslave⟩
  · obtain ⟨hstate, hclk⟩ := done_step (x := x) hdone h.clk
    exact ⟨hstate, hclk, hslave⟩

theorem Rest.start (h : Rest m s) (hn : 0 < n) (hstart : s.Starts x) :
    During false x.masterData m .data1 0 (s.step x) :=
  ⟨hn, driving_of_idle hstart.1 (trigger_iff.mpr hstart.2.1) rfl hstart.2.2,
    .waiting rfl (.inl rfl) (h.slave.step rfl h.clk).1⟩

/-- What holds of the pair in every cycle behind a reset in which the slave loaded `w`. -/
inductive Reached (w : BitVec n) (s : SpiPair n) : Prop
  | fresh (h : Fresh w s)
  | during (first : Bool) (m w' : BitVec n) (p : SpiDuplexState) (j : ℕ)
      (h : During first m w' p j s)
  | last (first : Bool) (m w' : BitVec n) (h : LastFall first m w' s)
  | rest (m : BitVec n) (h : Rest m s)

theorem Reached.step (h : Reached w s) (hn : 0 < n) (hn' : n ≤ 512) : Reached w (s.step x) := by
  cases h with
  | fresh h =>
    by_cases hstart : s.Starts x
    · exact .during _ _ _ _ _ (h.start hn hstart)
    · exact .fresh (h.step hn hstart)
  | during first m w' p j h =>
    by_cases ht : s.Triggers
    · by_cases hp : p = .clock2
      · subst hp
        obtain ⟨hnext, hlast⟩ := h.fall (x := x) hn' ht
        rcases Nat.lt_or_eq_of_le (Nat.succ_le_of_lt h.bit) with hlt | heq
        · exact .during _ _ _ _ _ (hnext hlt)
        · exact .last _ _ _ (hlast heq)
      · exact .during _ _ _ _ _ (h.move hn' ht hp)
    · exact .during _ _ _ _ _ (h.hold hn' ht)
  | last first m w' h => exact .rest m (h.step hn hn').1
  | rest m h =>
    by_cases hstart : s.Starts x
    · exact .during _ _ _ _ _ (h.start hn hstart)
    · exact .rest m (h.step hstart)

/-- An idle master and a slave that waits for its first bit: no transfer has started. -/
theorem Reached.fresh_of_idle (h : Reached w s) (hidle : s.master.state = .idle)
    (hslave : s.slave.state = .sdata1) : Fresh w s := by
  cases h with
  | fresh h => exact h
  | during first m w' p j h =>
    have hstate := h.master.state
    rw [hidle] at hstate
    rcases h.phase with rfl | rfl | rfl | rfl <;> cases hstate
  | last first m w' h =>
    have hstate := h.master.state
    rw [hidle] at hstate
    cases hstate
  | rest m h =>
    have hstate := h.slave.state
    rw [hslave] at hstate
    cases hstate

end Between

theorem reached_after {x : ℕ → SpiPairIn n} (hn : 0 < n) (hn' : n ≤ 512) (k : ℕ) :
    Reached (x 0).slaveData (after x (k + 1)) := by
  induction k with
  | zero =>
    rw [after_succ]
    have hslave : Low true (x 0).slaveData (x 0).slaveData 0 ((after x 0).step (x 0)).slave :=
      ⟨rfl, rfl, rfl, fun _ => rfl⟩
    by_cases hwren : (x 0).masterWren = true
    · have hmaster : Driving true (x 0).masterData (x 0).slaveData .data1 0
          ((after x 0).master.step ((after x 0).masterIn (x 0))) :=
        driving_of_idle (y := (after x 0).masterIn (x 0)) rfl rfl rfl hwren
      exact .during _ _ _ _ _ ⟨hn, hmaster, .low (.inl rfl) hslave.change⟩
    · obtain ⟨hidle, hclk, hvalid⟩ :=
        idle_step (s := after x 0) (x := x 0) rfl fun h => hwren h.2.2
      exact .fresh ⟨hidle, hclk rfl, hvalid rfl, hslave⟩
  | succ k ih =>
    rw [after_succ]
    exact ih.step hn hn'

end SpiPair

end HfRisc.Rtl
