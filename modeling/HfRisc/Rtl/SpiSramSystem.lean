import HfRisc.Rtl.SpiMaster
import HfRisc.Rtl.SpiSram
import HfRisc.Rtl.SpiSramCtrl

/-!
# The controller with its master and a memory

The memory is on the three pins, and its output at the master's input. A byte takes 37 cycles
from the one in which the controller finds the master free: 2 until the master has it, 32 for
the bits, and 3 until the master is back.
-/

namespace HfRisc.Rtl

/-- The registers of all three. -/
structure SpiSramSystem where
  ctrl : SpiSramCtrl
  core : SpiMaster 8
  chip : SpiSram

/-- The inputs in one cycle, with the level of the data line while the memory does not drive
it. -/
structure SpiSramSystemIn extends SramIn where
  undriven : Bool

namespace SpiSramSystem

/-- The registers after the reset of the controller and the master. -/
def reset (chip : SpiSram) : SpiSramSystem := ⟨.reset, .reset 8, chip⟩

section Wires

variable (s : SpiSramSystem) (i : SpiSramSystemIn)

def pins : SpiSramPins := ⟨s.ctrl.spiCsN, s.core.spiClk, s.core.spiMosi⟩

def coreIn : SpiMasterIn 8 := ⟨s.ctrl.dataIn, s.ctrl.wren, s.chip.so s.ctrl.spiCsN i.undriven⟩

/-- One clock edge of the controller and the master, with the edges of the pins behind it. -/
def step : SpiSramSystem :=
  let ctrl := s.ctrl.step i.toSramIn s.core.dataO s.core.dataValid
  let core := s.core.step (s.coreIn i)
  ⟨ctrl, core, s.chip.change s.pins ⟨ctrl.spiCsN, core.spiClk, core.spiMosi⟩⟩

end Wires

/-- The system as a machine that emits the pins of the bus. -/
def machine : Lib.Mealy SpiSramSystem SpiSramSystemIn SpiSramPins where
  step := step
  out s _ := [s.pins]

/-- The registers after the first `k` inputs of a stream. -/
def after (s : SpiSramSystem) (x : ℕ → SpiSramSystemIn) (k : ℕ) : SpiSramSystem :=
  machine.run s (Lib.Mealy.inputs x k)

variable {s : SpiSramSystem} {x : ℕ → SpiSramSystemIn} {i k : ℕ}

theorem after_succ : s.after x (k + 1) = (s.after x k).step (x k) := machine.run_inputs_succ s x k

theorem after_add (j k : ℕ) :
    s.after x (j + k) = (s.after x j).after (fun l => x (j + l)) k := by
  rw [after, Lib.Mealy.inputs_add, Lib.Mealy.run_append]
  rfl

/-! ## A byte -/

/-- The controller finds the master free for its next byte. -/
structure AtByte (s : SpiSramSystem) : Prop where
  sending : s.ctrl.Sending
  wren : s.ctrl.wren = false
  csN : s.ctrl.spiCsN = false
  idle : s.core.state = .idle
  valid : s.core.dataValid = false
  clk : s.core.spiClk = false

/-- What the master sees from the cycle on in which it has the byte. -/
def line (s : SpiSramSystem) (x : ℕ → SpiSramSystemIn) (k : ℕ) : SpiMasterIn 8 :=
  (s.after x (1 + k)).coreIn (x (1 + k))

theorem core_line : (s.after x (1 + k)).core = (s.after x 1).core.after (line s x) k := by
  induction k with
  | zero => rfl
  | succ k ih =>
    rw [← Nat.add_assoc, after_succ, SpiMaster.after_succ, ← ih]
    rfl

/-- The bits of the byte that the controller sends. -/
def sent (s : SpiSramSystem) (x : ℕ → SpiSramSystemIn) : ℕ → Bool :=
  (s.ctrl.byteOut (x 0).toSramIn).getMsbD

/-- The byte that the master takes meanwhile. -/
def received (s : SpiSramSystem) (x : ℕ → SpiSramSystemIn) : BitVec 8 :=
  Lib.serial 8 fun i =>
    ((s.chip.bits (sent s x) i).posedgeSck false (sent s x i)).so false (x (4 * i + 4)).undriven

section Byte

variable (h : AtByte s) (hburst : ∀ k < 37, (x k).burstI = false)
include h

/-- The first cycle. -/
theorem after_one (hzero : (x 0).burstI = false) :
    (s.after x 1).ctrl = s.ctrl.handed (x 0).toSramIn s.core.dataO ∧
      (s.after x 1).core.state = .idle ∧ (s.after x 1).core.dataValid = false ∧
      (s.after x 1).core.spiClk = false ∧ (s.after x 1).chip = s.chip := by
  have hctrl : s.ctrl.step (x 0).toSramIn s.core.dataO s.core.dataValid =
      s.ctrl.handed (x 0).toSramIn s.core.dataO := by
    rw [h.valid, h.sending.step hzero]
  have hcore : s.core.step (s.coreIn (x 0)) =
      ⟨.idle, s.ctrl.dataIn, 0, false, false, false⟩ := by
    rw [SpiMaster.step, h.idle]
    simp only [coreIn, h.wren, Bool.false_eq_true, if_false]
  have hstep : s.after x 1 = s.step (x 0) := rfl
  rw [hstep, step, hctrl, hcore]
  exact ⟨rfl, rfl, rfl, rfl, SpiSram.change_same h.csN h.clk⟩

include hburst

/-- The transfer starts with the byte of the controller. -/
theorem line_zero : (line s x 0).wrenI = true ∧
    (line s x 0).dataI = s.ctrl.byteOut (x 0).toSramIn := by
  obtain ⟨hctrl, -⟩ := after_one h (hburst 0 (by decide))
  exact ⟨congrArg SpiSramCtrl.wren hctrl, congrArg SpiSramCtrl.dataIn hctrl⟩

theorem core_bit (hi : i < 8) (p : ℕ) (hp : p < 4) : (s.after x (1 + (4 * i + 1 + p))).core =
    SpiMaster.bitCycle (s.ctrl.byteOut (x 0).toSramIn) (SpiMaster.sampled (line s x)) i p := by
  obtain ⟨-, hidle, -⟩ := after_one h (hburst 0 (by decide))
  obtain ⟨hwren, hdata⟩ := line_zero h hburst
  rw [core_line, SpiMaster.after_bit hidle hwren hi p hp, hdata]

theorem core_finished : (s.after x 34).core =
    SpiMaster.finished (s.ctrl.byteOut (x 0).toSramIn) (SpiMaster.sampled (line s x)) := by
  obtain ⟨-, hidle, -⟩ := after_one h (hburst 0 (by decide))
  obtain ⟨hwren, hdata⟩ := line_zero h hburst
  have hlast := core_line (s := s) (x := x) (k := 4 * 8 + 1)
  rw [SpiMaster.after_finished hidle hwren (by decide), hdata] at hlast
  exact hlast

theorem valid_low (hk : k ≤ 34) : (s.after x k).core.dataValid = false := by
  rcases Nat.eq_zero_or_pos k with rfl | hpos
  · exact h.valid
  · -- the cycle of the start, those of the bits, and the one behind them
    obtain rfl | ⟨i, hi, p, hp, rfl⟩ | rfl : k = 1 ∨
        (∃ i < 8, ∃ p < 4, k = 1 + (4 * i + 1 + p)) ∨ k = 34 := by
      rcases Nat.lt_or_ge k 2 with hlt | hge
      · exact .inl (by omega)
      · rcases Nat.lt_or_eq_of_le hk with hlt | heq
        · exact .inr (.inl ⟨(k - 2) / 4, by omega, (k - 2) % 4, by omega, by omega⟩)
        · exact .inr (.inr heq)
    · exact (after_one h (hburst 0 (by decide))).2.2.1
    · rw [core_bit h hburst hi p hp]
      rfl
    · rw [core_finished h hburst]
      rfl

/-- The controller hands over the byte until `data_valid` comes up. -/
theorem ctrl_handed (hk : k ≤ 34) : (s.after x (k + 1)).ctrl =
    s.ctrl.handed (x k).toSramIn (s.after x k).core.dataO := by
  have hctrl : ∀ k ≤ 34, (s.after x (k + 1)).ctrl = (s.after x k).ctrl.step (x k).toSramIn
      (s.after x k).core.dataO false := fun k hk => by
    rw [after_succ, step, valid_low h hburst hk]
  induction k with
  | zero => exact (after_one h (hburst 0 (by decide))).1
  | succ k ih =>
    -- each cycle hands the byte over once more
    rw [hctrl (k + 1) hk, ih (by omega), h.sending.handed.step (hburst _ (by omega)),
      h.sending.handed_handed]

theorem csN_low (hk : k ≤ 35) : (s.after x k).ctrl.spiCsN = false := by
  cases k with
  | zero => exact h.csN
  | succ k =>
    rw [ctrl_handed h hburst (by omega)]
    exact h.csN

omit h hburst in
theorem chip_succ :
    (s.after x (k + 1)).chip =
      (s.after x k).chip.change (s.after x k).pins (s.after x (k + 1)).pins := by
  rw [after_succ]
  rfl

/-- The memory in the cycles of a bit. -/
theorem chip_bit_of_first (hi : i < 8)
    (hfirst : (s.after x (1 + (4 * i + 1 + 0))).chip = s.chip.bits (sent s x) i) :
    (s.after x (1 + (4 * i + 1 + 2))).chip =
        (s.chip.bits (sent s x) i).posedgeSck false (sent s x i) ∧
      (s.after x (1 + (4 * i + 1 + 3))).chip =
        (s.chip.bits (sent s x) i).posedgeSck false (sent s x i) := by
  have hcore := fun p hp => core_bit h hburst hi (p := p) hp
  have hclk : ∀ p < 4, (s.after x (1 + (4 * i + 1 + p))).core.spiClk = decide (2 ≤ p) :=
    fun p hp => by rw [hcore p hp]; rfl
  have hlow := fun p (hp : p < 4) => csN_low h hburst (k := 1 + (4 * i + 1 + p)) (by omega)
  have hone : (s.after x (1 + (4 * i + 1 + 1))).chip = s.chip.bits (sent s x) i := by
    rw [← hfirst]
    exact chip_succ.trans (SpiSram.change_same (hlow 0 (by decide))
      ((hclk 0 (by decide)).trans (hclk 1 (by decide)).symm))
  have hline : (s.after x (1 + (4 * i + 1 + 2))).core.spiMosi = sent s x i := by
    rw [hcore 2 (by decide)]
    rfl
  have htwo : (s.after x (1 + (4 * i + 1 + 2))).chip =
      (s.chip.bits (sent s x) i).posedgeSck false (sent s x i) := by
    rw [← hone, ← hline]
    exact chip_succ.trans (SpiSram.change_rise (hlow 1 (by decide)) (hclk 1 (by decide))
      (hlow 2 (by decide)) (hclk 2 (by decide)))
  refine ⟨htwo, ?_⟩
  rw [← htwo]
  exact chip_succ.trans (SpiSram.change_same (hlow 2 (by decide))
    ((hclk 2 (by decide)).trans (hclk 3 (by decide)).symm))

/-- The clock falls behind a bit. -/
theorem chip_bit_fall (hi : i < 8) (hclk : (s.after x (1 + (4 * i + 1 + 4))).core.spiClk = false)
    (hfirst : (s.after x (1 + (4 * i + 1 + 0))).chip = s.chip.bits (sent s x) i) :
    (s.after x (1 + (4 * i + 1 + 4))).chip = s.chip.bits (sent s x) (i + 1) := by
  have hhigh : (s.after x (1 + (4 * i + 1 + 3))).core.spiClk = true := by
    rw [core_bit h hburst hi 3 (by decide)]
    rfl
  rw [SpiSram.bits, ← (chip_bit_of_first h hburst hi hfirst).2]
  exact chip_succ.trans (SpiSram.change_fall
    (csN_low h hburst (k := 1 + (4 * i + 1 + 3)) (by omega)) hhigh hclk)

theorem chip_bit (hi : i < 8) :
    (s.after x (1 + (4 * i + 1 + 0))).chip = s.chip.bits (sent s x) i := by
  induction i with
  | zero =>
    obtain ⟨-, -, -, hclk, hchip⟩ := after_one h (hburst 0 (by decide))
    have hnext : (s.after x (1 + 1)).core.spiClk = false :=
      congrArg SpiMaster.spiClk (core_bit h hburst (i := 0) (by decide) 0 (by decide))
    rw [SpiSram.bits, ← hchip]
    exact chip_succ.trans (SpiSram.change_same (csN_low h hburst (by decide))
      (hclk.trans hnext.symm))
  | succ i ih =>
    have hclk : (s.after x (1 + (4 * i + 1 + 4))).core.spiClk = false :=
      congrArg SpiMaster.spiClk (core_bit h hburst hi 0 (by decide))
    exact chip_bit_fall h hburst (Nat.lt_of_succ_lt hi) hclk (ih (Nat.lt_of_succ_lt hi))

theorem chip_finished : (s.after x 34).chip = s.chip.bits (sent s x) 8 := by
  have hclk : (s.after x 34).core.spiClk = false :=
    congrArg SpiMaster.spiClk (core_finished h hburst)
  exact chip_bit_fall h hburst (i := 7) (by decide) hclk (chip_bit h hburst (by decide))

/-- What the master has taken behind the last bit. -/
theorem dataO_finished : (s.after x 34).core.dataO = received s x := by
  rw [core_finished h hburst]
  show Lib.serial 8 _ = Lib.serial 8 _
  refine BitVec.eq_of_getMsbD_eq fun i hi => ?_
  rw [Lib.getMsbD_serial hi, Lib.getMsbD_serial hi,
    ← (chip_bit_of_first h hburst hi (chip_bit h hburst hi)).1]
  have hlow := csN_low h hburst (k := 1 + (4 * i + 3)) (by omega)
  show (s.after x (1 + (4 * i + 3))).chip.so _ (x (1 + (4 * i + 3))).undriven = _
  rw [hlow, Nat.add_comm 1 (4 * i + 3)]

/-- The master waits behind the last bit. -/
theorem core_waiting {d : ℕ} (hd : 33 ≤ d)
    (hhigh : ∀ k, 33 ≤ k → k < d → (s.after x (1 + k)).ctrl.wren = true) :
    (s.after x (1 + (d + 1))).core =
      SpiMaster.waiting (if (s.after x (1 + d)).ctrl.wren = false then .idle else .done)
        (SpiMaster.sampled (line s x)) := by
  obtain ⟨-, hidle, -⟩ := after_one h (hburst 0 (by decide))
  rw [core_line]
  exact SpiMaster.after_waiting hidle (line_zero h hburst).1 (by decide) hd hhigh

/-- The cycles in which the byte is counted, and the registers behind them. -/
theorem after_byte : (s.after x 36).ctrl.state = s.ctrl.state ∧
    (s.after x 36).ctrl.cpuStall = s.ctrl.cpuStall ∧
    (s.after x 37).ctrl = (s.ctrl.handed (x 34).toSramIn (received s x)).passed ∧
    (s.after x 37).core.state = .idle ∧ (s.after x 37).core.dataValid = true ∧
    (s.after x 37).core.spiClk = false ∧ (s.after x 37).chip = s.chip.bits (sent s x) 8 := by
  have hctrl : (s.after x 35).ctrl = s.ctrl.handed (x 34).toSramIn (received s x) := by
    rw [ctrl_handed h hburst (by decide), dataO_finished h hburst]
  have hwren : ∀ k, 33 ≤ k → k < 35 → (s.after x (1 + k)).ctrl.wren = true := by
    intro k hlo hhi
    rw [Nat.add_comm, ctrl_handed h hburst (by omega)]
    rfl
  have hcore₃₅ := core_waiting h hburst (d := 33) (by decide)
    fun k hlo hhi => absurd hhi (by omega)
  have hcore₃₆ := core_waiting h hburst (d := 34) (by decide)
    fun k hlo hhi => hwren k hlo (by omega)
  have hcore₃₇ := core_waiting h hburst (d := 35) (by decide) hwren
  have hvalid₃₅ : (s.after x 35).core.dataValid = true := congrArg SpiMaster.dataValid hcore₃₅
  have hvalid₃₆ : (s.after x 36).core.dataValid = true := congrArg SpiMaster.dataValid hcore₃₆
  have hctrl₃₆ : (s.after x 36).ctrl = (s.ctrl.handed (x 34).toSramIn (received s x)).step
      (x 35).toSramIn (s.after x 35).core.dataO true := by
    rw [after_succ, step, hctrl, hvalid₃₅]
  obtain ⟨hlow, hstate, hcsN, hstall, hpassed⟩ := h.sending.handed.step_valid
    (i := (x 35).toSramIn) (j := (x 36).toSramIn) (r := (s.after x 35).core.dataO)
    (t := (s.after x 36).core.dataO) rfl (hburst 35 (by decide)) (hburst 36 (by decide))
  rw [← hctrl₃₆] at hlow hstate hcsN hstall hpassed
  rw [hlow, if_pos rfl] at hcore₃₇
  -- nothing happens on the pins behind the last bit
  have hclk : ∀ k, 34 ≤ k → k ≤ 37 → (s.after x k).core.spiClk = false := by
    intro k hlo hhi
    obtain rfl | rfl | rfl | rfl : k = 34 ∨ k = 35 ∨ k = 36 ∨ k = 37 := by omega
    · exact congrArg SpiMaster.spiClk (core_finished h hburst)
    · exact congrArg SpiMaster.spiClk hcore₃₅
    · exact congrArg SpiMaster.spiClk hcore₃₆
    · exact congrArg SpiMaster.spiClk hcore₃₇
  have hchip : ∀ k, 34 ≤ k → k < 37 → (s.after x (k + 1)).chip = (s.after x k).chip := by
    intro k hlo hhi
    have hselected : (s.after x k).ctrl.spiCsN = false := by
      rcases Nat.lt_or_eq_of_le (Nat.le_of_lt_succ hhi) with hlt | rfl
      · exact csN_low h hburst (by omega)
      · exact hcsN.trans h.csN
    exact chip_succ.trans (SpiSram.change_same hselected
      ((hclk k hlo (by omega)).trans (hclk (k + 1) (by omega) hhi).symm))
  refine ⟨hstate, hstall, ?_, congrArg SpiMaster.state hcore₃₇,
    congrArg SpiMaster.dataValid hcore₃₇, hclk 37 (by decide) (by decide), ?_⟩
  · rw [after_succ, step, hvalid₃₆, hpassed]
  · rw [hchip 36 (by decide) (by decide), hchip 35 (by decide) (by decide),
      hchip 34 (by decide) (by decide), chip_finished h hburst]

/-- The phase and the stall do not change within the byte. -/
theorem within_byte (hk : k < 37) : (s.after x k).ctrl.state = s.ctrl.state ∧
    (s.after x k).ctrl.cpuStall = s.ctrl.cpuStall := by
  obtain rfl | ⟨j, hj, rfl⟩ | rfl : k = 0 ∨ (∃ j ≤ 34, k = j + 1) ∨ k = 36 := by
    rcases Nat.eq_zero_or_pos k with hzero | hpos
    · exact .inl hzero
    · rcases Nat.lt_or_ge k 36 with hlt | hge
      · exact .inr (.inl ⟨k - 1, by omega, by omega⟩)
      · exact .inr (.inr (by omega))
  · exact ⟨rfl, rfl⟩
  · rw [ctrl_handed h hburst hj]
    exact ⟨rfl, rfl⟩
  · exact ⟨(after_byte h hburst).1, (after_byte h hburst).2.1⟩

end Byte

end SpiSramSystem

end HfRisc.Rtl
