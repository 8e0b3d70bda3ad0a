import HfRisc.Rtl.SpiMaster
import HfRisc.Rtl.SpiPair

/-!
# Transfers of the SPI master and slave

Whatever `wren` does once the transfer is on its way, the word is sent and the line is
sampled bit by bit, and the master waits behind the last bit until `wren` is low.

A master and a slave that has loaded its word: for every setting of the master's divider, in
every cycle, each side signals the word of the other, after one pulse of the bus clock a bit.
-/

namespace HfRisc.Results

open HfRisc.Rtl HfRisc.Lib

variable {n d i k : ℕ} {s : SpiMaster n} {x : ℕ → SpiMasterIn n}

/-- A transfer that begins in cycle 0 and ends in cycle `d`, the last one in which the master
is not idle. Cycle `4 * i + 3` is the first one of pulse `i`. -/
structure Transfer (s : SpiMaster n) (x : ℕ → SpiMasterIn n) (d : ℕ) : Prop where
  busy : ∀ k, 0 < k → k ≤ d → (s.after x k).state ≠ .idle
  ends : (s.after x (d + 1)).state = .idle
  pulses : pulses (fun k => (s.after x k).spiClk) (d + 1) = n
  clk : ∀ k, 0 < k → k ≤ d + 1 →
    ((s.after x k).spiClk = true ↔ ∃ i < n, k = 4 * i + 3 ∨ k = 4 * i + 4)
  mosi : ∀ i < n, ∀ k, 4 * i + 2 ≤ k → k ≤ 4 * i + 5 →
    (s.after x k).spiMosi = (x 0).dataI.getMsbD i
  valid : ∀ k, 0 < k → k ≤ d + 1 → ((s.after x k).dataValid = true ↔ 4 * n + 2 ≤ k)
  data : ∀ k, 4 * n + 2 ≤ k → k ≤ d + 1 →
    ∀ i < n, (s.after x k).dataO.getMsbD i = (x (4 * i + 3)).spiMiso

/-- The cycles of the bits. -/
theorem exists_bit (hk : 0 < k) (hkn : k ≤ 4 * n) : ∃ i < n, ∃ p < 4, k = 4 * i + 1 + p :=
  ⟨(k - 1) / 4, by omega, (k - 1) % 4, by omega, by omega⟩

section Cycles

variable (hidle : s.state = .idle) (hwren : (x 0).wrenI = true)
include hidle hwren

theorem clk_bit (hi : i < n) {p : ℕ} (hp : p < 4) :
    (s.after x (4 * i + 1 + p)).spiClk = decide (2 ≤ p) := by
  rw [SpiMaster.after_bit hidle hwren hi p hp]
  rfl

/-- One pulse a bit. -/
theorem pulses_bits (hi : i ≤ n) (hlow : (s.after x (4 * n + 1)).spiClk = false) :
    pulses (fun k => (s.after x k).spiClk) (4 * i + 1) = i := by
  induction i with
  | zero =>
    refine pulses_succ_of_le fun hhigh => ?_
    change (s.after x 1).spiClk = true at hhigh
    rcases Nat.eq_zero_or_pos n with rfl | hn
    · rw [hlow] at hhigh
      cases hhigh
    · rw [clk_bit hidle hwren hn (p := 0) (by omega)] at hhigh
      cases hhigh
  | succ i ih =>
    have hprev : i < n := hi
    have hclk := fun p hp => clk_bit (p := p) hidle hwren hprev hp
    have h0 := hclk 0 (by omega)
    have h1 := hclk 1 (by omega)
    have h2 := hclk 2 (by omega)
    have h3 := hclk 3 (by omega)
    have h4 : (s.after x (4 * i + 5)).spiClk = false := by
      rcases Nat.lt_or_eq_of_le hi with hlt | heq
      · exact clk_bit hidle hwren hlt (p := 0) (by omega)
      · rw [← hlow, show 4 * i + 5 = 4 * n + 1 by omega]
    rw [show 4 * (i + 1) + 1 = 4 * i + 1 + 1 + 1 + 1 + 1 by omega,
      pulses_succ_of_le (by intro h; rw [h4] at h; cases h),
      pulses_succ_of_le (fun _ => h2), pulses_succ_of_rise h1 h2,
      pulses_succ_of_le (by intro h; rw [h1] at h; cases h), ih (Nat.le_of_lt hprev)]

theorem mosi_bit (hi : i < n) (hlo : 4 * i + 2 ≤ k) (hhi : k ≤ 4 * i + 5) :
    (s.after x k).spiMosi = (x 0).dataI.getMsbD i := by
  rcases Nat.lt_or_eq_of_le hhi with hlt | rfl
  · obtain ⟨p, rfl⟩ : ∃ p, k = 4 * i + 1 + p := ⟨k - (4 * i + 1), by omega⟩
    rw [SpiMaster.after_bit hidle hwren hi p (by omega), SpiMaster.bitCycle]
    dsimp only
    rw [if_neg (by omega)]
  · -- the cycle in which the clock has fallen is the first one of the next bit
    rcases Nat.lt_or_eq_of_le (Nat.succ_le_of_lt hi) with hnext | hlast
    · have h := SpiMaster.after_bit hidle hwren hnext 0 (by omega)
      rw [show 4 * i + 5 = 4 * (i + 1) + 1 + 0 by omega, h]
      simp [SpiMaster.bitCycle]
    · rw [show 4 * i + 5 = 4 * n + 1 by omega,
        SpiMaster.after_finished hidle hwren (Nat.zero_lt_of_lt hi), SpiMaster.finished]
      dsimp only
      rw [show n - 1 = i by omega]

end Cycles

/-! ## The whole transfer -/

/-- The cycles up to the first idle one: those of the bits, the one behind them, the wait. -/
theorem cycle_cases (hk : 0 < k) (hkd : k ≤ d + 1) : (∃ i < n, ∃ p < 4, k = 4 * i + 1 + p) ∨
    k = 4 * n + 1 ∨ ∃ j, 4 * n + 1 ≤ j ∧ j ≤ d ∧ k = j + 1 := by
  rcases Nat.lt_or_ge (4 * n) k with hlt | hle
  · rcases Nat.eq_or_lt_of_le hlt with heq | hgt
    · exact .inr (.inl heq.symm)
    · exact .inr (.inr ⟨k - 1, by omega, by omega, by omega⟩)
  · exact .inl (exists_bit hk hle)

section Whole

variable (hidle : s.state = .idle) (hwren : (x 0).wrenI = true) (hpos : 0 < n)
  (hhigh : ∀ k, 4 * n + 1 ≤ k → k < d → (x k).wrenI = true) (hlow : (x d).wrenI = false)
include hidle hwren hpos hhigh hlow

theorem after_wait (hlo : 4 * n + 1 ≤ k) (hhi : k ≤ d) : s.after x (k + 1) =
    SpiMaster.waiting (if k = d then .idle else .done) (SpiMaster.sampled x) := by
  rw [SpiMaster.after_waiting hidle hwren hpos hlo fun j hj hjk => hhigh j hj (by omega)]
  rcases Nat.lt_or_eq_of_le hhi with hlt | rfl
  · rw [hhigh k hlo hlt, if_neg (by decide), if_neg (by omega)]
  · rw [hlow, if_pos rfl, if_pos rfl]

/-- The master is idle in cycle `d + 1`, and not before. -/
theorem idle_iff (hk : 0 < k) (hkd : k ≤ d + 1) (hd : 4 * n + 1 ≤ d) :
    (s.after x k).state = .idle ↔ k = d + 1 := by
  rcases cycle_cases (n := n) hk hkd with ⟨i, hi, p, hp, rfl⟩ | rfl | ⟨j, hlo, hhi, rfl⟩
  · rw [SpiMaster.after_bit hidle hwren hi p hp, SpiMaster.bitCycle]
    dsimp only
    refine iff_of_false ?_ (by omega)
    split_ifs <;> decide
  · rw [SpiMaster.after_finished hidle hwren hpos, SpiMaster.finished]
    dsimp only
    exact iff_of_false (by decide) (by omega)
  · rw [after_wait hidle hwren hpos hhigh hlow hlo hhi, SpiMaster.waiting]
    by_cases hj : j = d
    · rw [if_pos hj]
      exact iff_of_true rfl (by omega)
    · rw [if_neg hj]
      dsimp only
      exact iff_of_false (by decide) (by omega)

theorem clk_iff (hk : 0 < k) (hkd : k ≤ d + 1) :
    (s.after x k).spiClk = true ↔ ∃ i < n, k = 4 * i + 3 ∨ k = 4 * i + 4 := by
  rcases cycle_cases (n := n) hk hkd with ⟨i, hi, p, hp, rfl⟩ | rfl | ⟨j, hlo, hhi, rfl⟩
  · rw [clk_bit hidle hwren hi hp, decide_eq_true_iff]
    constructor
    · exact fun h => ⟨i, hi, by omega⟩
    · rintro ⟨i', -, h⟩
      omega
  · rw [SpiMaster.after_finished hidle hwren hpos]
    refine iff_of_false Bool.false_ne_true ?_
    rintro ⟨i, hi, h⟩
    omega
  · rw [after_wait hidle hwren hpos hhigh hlow hlo hhi]
    refine iff_of_false Bool.false_ne_true ?_
    rintro ⟨i, hi, h⟩
    omega

theorem pulses_eq (hd : 4 * n + 1 ≤ d) :
    pulses (fun k => (s.after x k).spiClk) (d + 1) = n := by
  have hlowClk : (s.after x (4 * n + 1)).spiClk = false := by
    rw [SpiMaster.after_finished hidle hwren hpos]
    rfl
  have hwait : ∀ j, 4 * n + 1 ≤ j → j ≤ d + 1 →
      pulses (fun k => (s.after x k).spiClk) j = n := by
    intro j hj
    induction j, hj using Nat.le_induction with
    | base => exact fun _ => pulses_bits hidle hwren (Nat.le_refl n) hlowClk
    | succ j hj ih =>
      intro hjd
      rw [pulses_succ_of_le, ih (by omega)]
      intro hh
      rw [after_wait hidle hwren hpos hhigh hlow hj (by omega)] at hh
      cases hh
  exact hwait (d + 1) (by omega) (Nat.le_refl _)

theorem valid_iff (hk : 0 < k) (hkd : k ≤ d + 1) :
    (s.after x k).dataValid = true ↔ 4 * n + 2 ≤ k := by
  rcases cycle_cases (n := n) hk hkd with ⟨i, hi, p, hp, rfl⟩ | rfl | ⟨j, hlo, hhi, rfl⟩
  · rw [SpiMaster.after_bit hidle hwren hi p hp]
    exact iff_of_false Bool.false_ne_true (by omega)
  · rw [SpiMaster.after_finished hidle hwren hpos]
    exact iff_of_false Bool.false_ne_true (by omega)
  · rw [after_wait hidle hwren hpos hhigh hlow hlo hhi]
    exact iff_of_true rfl (by omega)

end Whole

/-- For every width of at least two bits, every word, every stream on the data line, and every
`wren` that is high in cycle 0 and first low behind the last bit in cycle `d`: the clock makes
one pulse a bit, the word goes out with its most significant bit first and is stable from
before each rising edge to behind the falling one, and while `data_valid` is high `data_o`
holds the bits of the line sampled in the pulses, in order. -/
theorem spi_master_transfer (hn : 2 ≤ n) (s : SpiMaster n) (x : ℕ → SpiMasterIn n)
    (hidle : s.state = .idle) (hwren : (x 0).wrenI = true) (hd : 4 * n + 1 ≤ d)
    (hhigh : ∀ k, 4 * n + 1 ≤ k → k < d → (x k).wrenI = true) (hlow : (x d).wrenI = false) :
    Transfer s x d := by
  have hpos : 0 < n := by omega
  have hidleIff := fun k hk hkd =>
    idle_iff (k := k) hidle hwren hpos hhigh hlow hk hkd hd
  refine ⟨fun k hk hkd => ?_, (hidleIff (d + 1) (by omega) (Nat.le_refl _)).mpr rfl,
    pulses_eq hidle hwren hpos hhigh hlow hd,
    fun k hk hkd => clk_iff hidle hwren hpos hhigh hlow hk hkd,
    fun i hi k hlo hhi => mosi_bit hidle hwren hi hlo hhi,
    fun k hk hkd => valid_iff hidle hwren hpos hhigh hlow hk hkd, fun k hlo hhi i hi => ?_⟩
  · rw [Ne, hidleIff k hk (by omega)]
    omega
  · obtain ⟨j, rfl⟩ : ∃ j, k = j + 1 := ⟨k - 1, by omega⟩
    rw [after_wait hidle hwren hpos hhigh hlow (by omega) (by omega)]
    exact getMsbD_serial hi

/-- A transfer of two bits, with `wren` high in cycle 0 and the data line high. -/
def twoBits (k : ℕ) : SpiMasterIn 2 := ⟨0b10, k == 0, true⟩

theorem spi_master_transfer_two : Transfer (SpiMaster.reset 2) twoBits 9 :=
  spi_master_transfer (Nat.le_refl 2) _ twoBits rfl rfl (Nat.le_refl 9)
    (fun k hlo hhi => absurd hhi (by omega)) rfl

end HfRisc.Results

/-! ## The exchange of two words -/

namespace HfRisc.Results

open HfRisc.Rtl HfRisc.Rtl.SpiPair HfRisc.Lib

variable {n t k j : ℕ} {x : ℕ → SpiPairIn n} {m w : BitVec n} {p : SpiDuplexState}

/-- The clock line of the bus from cycle `t` on. -/
def busClk (x : ℕ → SpiPairIn n) (t k : ℕ) : Bool := (after x (t + k)).master.spiClkO

/-- Neither side has signalled in the `k` cycles behind `t`. -/
def Quiet (x : ℕ → SpiPairIn n) (t k : ℕ) : Prop :=
  ∀ i, 0 < i → i ≤ k → (after x (t + i)).master.dataValid = false ∧
    (after x (t + i)).slave.dataValid = false

theorem Quiet.succ (h : Quiet x t k) (hm : (after x (t + (k + 1))).master.dataValid = false)
    (hs : (after x (t + (k + 1))).slave.dataValid = false) : Quiet x t (k + 1) := by
  intro i hi hik
  rcases Nat.lt_or_eq_of_le hik with hlt | rfl
  · exact h i hi (Nat.le_of_lt_succ hlt)
  · exact ⟨hm, hs⟩

/-! ## The bits -/

/-- The pulses up to a cycle of bit `j`. -/
def pulsesAt (p : SpiDuplexState) (j : ℕ) : ℕ := if p = .data2 ∨ p = .clock2 then j + 1 else j

/-- The first transfer, `k` cycles behind its start. -/
structure Ongoing (x : ℕ → SpiPairIn n) (t : ℕ) (m w : BitVec n) (p : SpiDuplexState)
    (j k : ℕ) : Prop where
  during : During true m w p j (after x (t + k))
  count : pulses (busClk x t) k = pulsesAt p j
  quiet : Quiet x t k

theorem slave_quiet {s : SpiPair n} (h : During true m w p j s) : s.slave.dataValid = false := by
  cases h.slave with
  | falling h => exact h.valid
  | low _ h => exact h.valid rfl
  | ready h _ => exact h.valid rfl
  | high _ h => exact h.valid
  | waiting hf _ _ => cases hf
  | late hf _ _ => cases hf

/-- From one cycle of the transfer to the next. -/
theorem Ongoing.next {p' : SpiDuplexState} {j' : ℕ} (h : Ongoing x t m w p j k)
    (h' : During true m w p' j' (after x (t + (k + 1))))
    (hcount : pulsesAt p' j' = pulsesAt p j +
      if ¬ (p = .data2 ∨ p = .clock2) ∧ (p' = .data2 ∨ p' = .clock2) then 1 else 0) :
    Ongoing x t m w p' j' (k + 1) := by
  have hclk : busClk x t k = decide (p = .data2 ∨ p = .clock2) := h.during.master.clk
  have hclk' : busClk x t (k + 1) = decide (p' = .data2 ∨ p' = .clock2) := h'.master.clk
  refine ⟨h', ?_, h.quiet.succ h'.master.valid (slave_quiet h')⟩
  rw [pulses_succ, h.count, hcount, hclk, hclk']
  simp only [decide_eq_false_iff_not, decide_eq_true_iff]

/-- The moves of the master that are left. -/
def remaining (n : ℕ) (p : SpiDuplexState) (j : ℕ) : ℕ :=
  4 * (n - j) - if p = .data1 then 0 else if p = .clock1 then 1 else if p = .data2 then 2 else 3

theorem remaining_nextPhase (hphase : p = .data1 ∨ p = .clock1 ∨ p = .data2 ∨ p = .clock2)
    (hp : p ≠ .clock2) (hj : j < n) : remaining n (nextPhase p) j < remaining n p j := by
  rcases hphase with rfl | rfl | rfl | rfl
  · simp [remaining, nextPhase]
    omega
  · simp [remaining, nextPhase]
    omega
  · simp [remaining, nextPhase]
    omega
  · exact absurd rfl hp

theorem remaining_next (hj : j < n) : remaining n .data1 (j + 1) < remaining n .clock2 j := by
  simp [remaining]
  omega

/-- A pulse begins where the master goes on to the second half of a bit. -/
theorem pulsesAt_nextPhase (hphase : p = .data1 ∨ p = .clock1 ∨ p = .data2 ∨ p = .clock2)
    (hp : p ≠ .clock2) : pulsesAt (nextPhase p) j = pulsesAt p j +
      if ¬ (p = .data2 ∨ p = .clock2) ∧ (nextPhase p = .data2 ∨ nextPhase p = .clock2) then 1
      else 0 := by
  rcases hphase with rfl | rfl | rfl | rfl
  · rfl
  · rfl
  · rfl
  · exact absurd rfl hp

section Run

variable (hn : n ≤ 512)
include hn

/-- The divider comes to zero within the cycle of the bit. -/
theorem Ongoing.exists_trigger (h : Ongoing x t m w p j k) :
    ∃ k', Ongoing x t m w p j k' ∧ (after x (t + k')).Triggers := by
  obtain ⟨i, hi, hzero⟩ := SpiMasterSlave.exists_clkCnt (u := fun k => (after x k).master)
    (x := fun k => (after x k).masterIn (x k)) (fun k => by rw [after_succ]; rfl) (t + k)
  obtain ⟨d, rfl⟩ := Nat.exists_eq_add_of_le hi
  clear hi
  induction d generalizing k with
  | zero => exact ⟨k, h, hzero⟩
  | succ d ih =>
    by_cases ht : (after x (t + k)).Triggers
    · exact ⟨k, h, ht⟩
    · have hhold : During true m w p j (after x (t + (k + 1))) := by
        rw [← Nat.add_assoc, after_succ]
        exact h.during.hold hn ht
      refine ih (h.next hhold ?_) ?_
      · rw [if_neg (fun hno => hno.1 hno.2), Nat.add_zero]
      · rw [show t + (k + 1) + d = t + k + (d + 1) by omega]
        exact hzero

/-- The transfer comes to its last bit. -/
theorem Ongoing.exists_last {r : ℕ} (h : Ongoing x t m w p j k) (hr : remaining n p j ≤ r) :
    ∃ e, LastFall true m w (after x (t + e)) ∧ pulses (busClk x t) e = n ∧ Quiet x t e ∧ 0 < e := by
  induction r generalizing p j k with
  | zero =>
    have hbit := h.during.bit
    rw [remaining] at hr
    split_ifs at hr <;> omega
  | succ r ih =>
    obtain ⟨k', h', ht⟩ := h.exists_trigger hn
    have hbit := h'.during.bit
    by_cases hp : p = .clock2
    · subst hp
      obtain ⟨hnext, hlast⟩ := h'.during.fall (x := x (t + k')) hn ht
      rw [← after_succ, Nat.add_assoc] at hnext hlast
      rcases Nat.lt_or_eq_of_le (Nat.succ_le_of_lt hbit) with hlt | heq
      · have hless := remaining_next hbit
        exact ih (h'.next (hnext hlt) (by simp [pulsesAt])) (by omega)
      · have hfall := hlast heq
        refine ⟨k' + 1, hfall, ?_, h'.quiet.succ hfall.master.valid hfall.slave.valid,
          Nat.succ_pos k'⟩
        have hlow : busClk x t (k' + 1) = false := hfall.master.clk
        rw [pulses_succ_of_le (by intro hh; rw [hlow] at hh; cases hh), h'.count]
        exact heq
    · have hmove := h'.during.move (x := x (t + k')) hn ht hp
      rw [← after_succ, Nat.add_assoc] at hmove
      have hless := remaining_nextPhase h'.during.phase hp hbit
      exact ih (h'.next hmove (pulsesAt_nextPhase h'.during.phase hp)) (by omega)

end Run

/-! ## Behind the last bit -/

/-- No pulse begins while the master is behind a transfer. -/
theorem pulses_low (h : (after x (t + (k + 1))).master.spiClkO = false) :
    pulses (busClk x t) (k + 1) = pulses (busClk x t) k :=
  pulses_succ_of_le fun hh => by
    change (after x (t + (k + 1))).master.spiClkO = true at hh
    rw [h] at hh
    cases hh

/-- Until another transfer starts, the bus rests. -/
theorem rest_of_last {e : ℕ} (hn : 0 < n) (hn' : n ≤ 512)
    (h : LastFall true m w (after x (t + e))) (hcount : pulses (busClk x t) e = n) :
    ∀ d, (∀ i, e < i → i < e + d + 1 → ¬ (after x (t + i)).Starts (x (t + i))) →
      Rest m (after x (t + (e + d + 1))) ∧ pulses (busClk x t) (e + d + 1) = n := by
  intro d
  induction d with
  | zero =>
    intro _
    have hrest : Rest m (after x (t + (e + 1))) := by
      rw [← Nat.add_assoc, after_succ]
      exact (h.step hn hn').1
    exact ⟨hrest, by rw [Nat.add_zero, pulses_low hrest.clk, hcount]⟩
  | succ d ih =>
    intro hquiet
    obtain ⟨hrest, hpulses⟩ := ih fun i hlo hhi => hquiet i hlo (by omega)
    have hnext : Rest m (after x (t + (e + (d + 1) + 1))) := by
      rw [show t + (e + (d + 1) + 1) = t + (e + d + 1) + 1 by omega, after_succ]
      exact hrest.step (hquiet (e + d + 1) (by omega) (by omega))
    exact ⟨hnext, by rw [pulses_low hnext.clk]; exact hpulses⟩

/-- One side's `data_valid` rises behind cycle `t`, after `n` pulses; from then on and as long
as it is high, `data_o` is `word`. -/
def Signals (side : SpiPair n → SpiMasterSlave n) (x : ℕ → SpiPairIn n) (t : ℕ)
    (word : BitVec n) : Prop :=
  ∃ k, t < k ∧ (∀ i, t < i → i < k → (side (after x i)).dataValid = false) ∧
    (side (after x k)).dataValid = true ∧ pulses (busClk x t) (k - t) = n ∧
    ∀ i, k ≤ i → (∀ j, k ≤ j → j ≤ i → (side (after x j)).dataValid = true) →
      (side (after x i)).dataO = word

theorem valid_after (x : ℕ → SpiPairIn n) (k : ℕ) :
    (after x k).master.Valid ∧ (after x k).slave.Valid := by
  induction k with
  | zero => exact ⟨fun h => absurd h Bool.false_ne_true, fun h => absurd h Bool.false_ne_true⟩
  | succ k ih =>
    rw [after_succ]
    exact ⟨ih.1.step, ih.2.step⟩

/-- A word stays as long as it is signalled. -/
theorem dataO_stays {u : ℕ → SpiMasterSlave n} {y : ℕ → SpiMasterSlaveIn n} {r : BitVec n}
    (hu : ∀ k, u (k + 1) = (u k).step (y k)) (hvalid : ∀ k, (u k).Valid) (hk : (u k).dataO = r) :
    ∀ i, k ≤ i → (∀ j, k ≤ j → j ≤ i → (u j).dataValid = true) → (u i).dataO = r := by
  intro i hi
  induction i, hi using Nat.le_induction with
  | base => exact fun _ => hk
  | succ i hi ih =>
    intro hall
    have hlast := hall (i + 1) (by omega) (Nat.le_refl _)
    rw [hu] at hlast ⊢
    rw [(hvalid i).dataO_step (hall i hi (Nat.le_succ i)) hlast]
    exact ih fun j hlo hhi => hall j hlo (by omega)

/-- The slave signals two cycles behind the last falling edge. -/
theorem slave_signals {e : ℕ} (hn : 0 < n) (hn' : n ≤ 512)
    (h : LastFall true m w (after x (t + e))) (hcount : pulses (busClk x t) e = n)
    (hquiet : Quiet x t e) : Signals SpiPair.slave x t m := by
  obtain ⟨hrest, hvalid⟩ := h.step (x := x (t + e)) hn hn'
  rw [← after_succ] at hrest hvalid
  obtain ⟨hwait, hup⟩ :=
    hrest.slave.step (i := (after x (t + e + 1)).slaveIn (x (t + e + 1))) rfl hrest.clk
  have hslave : (after x (t + e + 2)).slave =
      (after x (t + e + 1)).slave.step ((after x (t + e + 1)).slaveIn (x (t + e + 1))) := by
    rw [after_succ]
    rfl
  rw [← hslave] at hwait hup
  have hclk : (after x (t + e + 2)).master.spiClkO = false := by
    rw [after_succ]
    rcases hrest.state with hidle | hdone
    · by_cases hstart : (after x (t + e + 1)).Starts (x (t + e + 1))
      · exact (hrest.start hn hstart).master.clk
      · exact (idle_step hidle hstart).2.1 hrest.clk
    · exact (done_step hdone hrest.clk).2
  refine ⟨t + e + 2, by omega, fun i hlo hhi => ?_, hup, ?_, ?_⟩
  · rcases Nat.lt_or_eq_of_le (Nat.le_of_lt_succ hhi) with hlt | rfl
    · have hi := (hquiet (i - t) (by omega) (by omega)).2
      rwa [show t + (i - t) = i by omega] at hi
    · exact hvalid
  · have hcount' : pulses (busClk x t) (e + 1) = n :=
      (pulses_low (t := t) (k := e) hrest.clk).trans hcount
    rw [show t + e + 2 - t = e + 1 + 1 by omega]
    exact (pulses_low (t := t) (k := e + 1) hclk).trans hcount'
  · exact dataO_stays (u := fun k => (after x k).slave)
      (y := fun k => (after x k).slaveIn (x k)) (fun k => by rw [after_succ]; rfl)
      (fun k => (valid_after x k).2) hwait.reg

/-- The master has sent its last bit, and has not signalled yet. -/
structure Closing (x : ℕ → SpiPairIn n) (t : ℕ) (m w : BitVec n) (e : ℕ) : Prop where
  sent : Sent true m w (after x (t + e)).master
  count : pulses (busClk x t) e = n
  pos : 0 < e
  quiet : ∀ i, t < i → i ≤ t + e → (after x i).master.dataValid = false

theorem Closing.succ {e : ℕ} (h : Closing x t m w e) (ht : ¬ (after x (t + e)).Triggers) :
    Closing x t m w (e + 1) := by
  have ht' : (after x (t + e)).master.fsmTrigger ((after x (t + e)).masterIn (x (t + e))) =
      false := Bool.eq_false_iff.mpr fun h => ht (trigger_iff.mp h)
  have hstep : (after x (t + (e + 1))).master =
      (after x (t + e)).master.step ((after x (t + e)).masterIn (x (t + e))) := by
    rw [← Nat.add_assoc, after_succ]
    rfl
  rw [SpiMasterSlave.step_hold ht'] at hstep
  have hsent : Sent true m w (after x (t + (e + 1))).master := by
    rw [hstep]
    exact ⟨h.sent.state, h.sent.clk, h.sent.line, h.sent.valid, h.sent.reg⟩
  refine ⟨hsent, (pulses_low hsent.clk).trans h.count, Nat.succ_pos e, fun i hlo hhi => ?_⟩
  rcases Nat.lt_or_eq_of_le hhi with hlt | rfl
  · exact h.quiet i hlo (by omega)
  · exact hsent.valid

theorem Closing.exists_trigger {e : ℕ} (h : Closing x t m w e) :
    ∃ e', Closing x t m w e' ∧ (after x (t + e')).Triggers := by
  obtain ⟨i, hi, hzero⟩ := SpiMasterSlave.exists_clkCnt (u := fun k => (after x k).master)
    (x := fun k => (after x k).masterIn (x k)) (fun k => by rw [after_succ]; rfl) (t + e)
  obtain ⟨d, rfl⟩ := Nat.exists_eq_add_of_le hi
  clear hi
  induction d generalizing e with
  | zero => exact ⟨e, h, hzero⟩
  | succ d ih =>
    by_cases ht : (after x (t + e)).Triggers
    · exact ⟨e, h, ht⟩
    · refine ih (h.succ ht) ?_
      rw [show t + (e + 1) + d = t + e + (d + 1) by omega]
      exact hzero

/-- The master signals when its divider next comes to zero. -/
theorem Closing.signals {e : ℕ} (h : Closing x t m w e) : Signals SpiPair.master x t w := by
  obtain ⟨e, h, ht⟩ := h.exists_trigger
  have hstep : (after x (t + (e + 1))).master =
      (after x (t + e)).master.step ((after x (t + e)).masterIn (x (t + e))) := by
    rw [← Nat.add_assoc, after_succ]
    rfl
  rw [SpiMasterSlave.step_fire (trigger_iff.mpr ht), SpiMasterSlave.fire, h.sent.state] at hstep
  have hclk : (after x (t + (e + 1))).master.spiClkO = false := by
    rw [hstep]
    exact h.sent.clk
  refine ⟨t + (e + 1), by omega, fun i hlo hhi => h.quiet i hlo (by omega), ?_, ?_, ?_⟩
  · rw [hstep]
  · rw [Nat.add_sub_cancel_left]
    exact (pulses_low hclk).trans h.count
  · refine dataO_stays (u := fun k => (after x k).master)
      (y := fun k => (after x k).masterIn (x k)) (fun k => by rw [after_succ]; rfl)
      (fun k => (valid_after x k).1) ?_
    show (after x (t + (e + 1))).master.dataReg = w
    rw [hstep]
    exact h.sent.reg rfl

/-- For every width from 2 to 512, every setting of the master's divider, and every word on
either side: when the master starts with the slave waiting for its first bit, both signal the
word of the other side after one pulse of the clock a bit, and until the master starts again
there is no further pulse. The slave's word is the one it loaded behind the reset. -/
theorem spi_exchange (hn : 2 ≤ n) (hn' : n ≤ 512) (x : ℕ → SpiPairIn n) (t : ℕ)
    (hstart : (after x t).Starts (x t)) (hslave : (after x t).slave.state = .sdata1) :
    Signals SpiPair.master x t (x 0).slaveData ∧ Signals SpiPair.slave x t (x t).masterData ∧
      ∀ k, t < k → (∀ i, t < i → i < k → ¬ (after x i).Starts (x i)) →
        (after x k).master.dataValid = true → pulses (busClk x t) (k - t) = n := by
  have hpos : 0 < n := by omega
  obtain ⟨t, rfl⟩ : ∃ t', t = t' + 1 := by
    cases t with
    | zero => cases hslave
    | succ t => exact ⟨t, rfl⟩
  have hfresh := (reached_after hpos hn' t).fresh_of_idle hstart.1 hslave
  have hbegin : During true (x (t + 1)).masterData (x 0).slaveData .data1 0
      (after x (t + 1 + 1)) := by
    rw [after_succ]
    exact hfresh.start hpos hstart
  have hclk₀ : busClk x (t + 1) 0 = false := hfresh.clk
  have hclk₁ : busClk x (t + 1) 1 = false := hbegin.master.clk
  have hongoing : Ongoing x (t + 1) (x (t + 1)).masterData (x 0).slaveData .data1 0 1 := by
    refine ⟨hbegin, ?_, fun i hi hle => ?_⟩
    · rw [pulses_succ_of_le (by intro hh; rw [hclk₁] at hh; cases hh)]
      rfl
    · rw [show i = 1 by omega]
      exact ⟨hbegin.master.valid, slave_quiet hbegin⟩
  obtain ⟨e, hlast, hcount, hquiet, he⟩ := hongoing.exists_last hn' (Nat.le_refl _)
  have hquiet' : ∀ i, t + 1 < i → i ≤ t + 1 + e → (after x i).master.dataValid = false := by
    intro i hlo hhi
    have hi := (hquiet (i - (t + 1)) (by omega) (by omega)).1
    rwa [show t + 1 + (i - (t + 1)) = i by omega] at hi
  have hclosing : Closing x (t + 1) (x (t + 1)).masterData (x 0).slaveData e :=
    ⟨hlast.master, hcount, he, hquiet'⟩
  refine ⟨hclosing.signals, slave_signals hpos hn' hlast hcount hquiet, fun k hk hno hvalid => ?_⟩
  have hgt : t + 1 + e < k := by
    by_contra hle
    rw [hquiet' k hk (by omega)] at hvalid
    cases hvalid
  obtain ⟨d, rfl⟩ : ∃ d, k = t + 1 + (e + d + 1) := ⟨k - (t + 1) - e - 1, by omega⟩
  rw [Nat.add_sub_cancel_left]
  exact (rest_of_last hpos hn' hlast hcount d fun i hlo hhi => hno _ (by omega) (by omega)).2

/-- Words of two bits, the master starting in the cycle behind the reset one. -/
def twoWords (k : ℕ) : SpiPairIn 2 where
  masterData := 0b10
  masterWren := k == 1
  masterDiv := 0
  masterClk := false
  slaveData := 0b01
  slaveWren := false
  slaveDiv := 0

theorem spi_exchange_two :
    Signals SpiPair.master twoWords 1 0b01 ∧ Signals SpiPair.slave twoWords 1 0b10 ∧
      ∀ k, 1 < k → (∀ i, 1 < i → i < k → ¬ (after twoWords i).Starts (twoWords i)) →
        (after twoWords k).master.dataValid = true → pulses (busClk twoWords 1) (k - 1) = 2 :=
  spi_exchange (Nat.le_refl 2) (by decide) twoWords 1 (by decide) (by decide)

end HfRisc.Results
