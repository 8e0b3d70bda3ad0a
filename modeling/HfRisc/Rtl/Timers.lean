import HfRisc.Arch
import HfRisc.Lib.Mealy
import HfRisc.Lib.Prescaler

/-!
# The timers of the standard SoC (`standard_soc.vhd`)

`timer0` counts clocks. `timer1` is advanced by the pulses of a prescaler, which
compares a bit of `timer0` with its value one clock before; when a pulse finds it equal
to `timer1_ctc`, it starts from zero and `int_timer1_ctc` toggles.

The bus of the peripherals is the input. The registers of class `"0010"` are modelled,
without their readback.
-/

namespace HfRisc.Rtl

/-- What the processor drives to the peripherals in one cycle. -/
structure PeriphBus where
  sel : Bool
  wr : Bool
  addr : Word
  data : Word

namespace PeriphBus

variable (b : PeriphBus)

def segment : BitVec 4 := b.addr.extractLsb' 24 4

/-- The signal `class`. -/
def deviceClass : BitVec 4 := b.addr.extractLsb' 16 4

def device : BitVec 6 := b.addr.extractLsb' 10 6

def funct : BitVec 4 := b.addr.extractLsb' 4 4

/-- The write goes to a register of the timers. -/
def timersWrite : Bool :=
  b.sel && b.wr && b.segment == 0b0001 && b.deviceClass == 0b0010

/-- The write goes to `TIMER1`, `TIMER1_PRE` or `TIMER1_CTC`. -/
def writesTimer1 : Bool :=
  b.timersWrite && b.device == 0b010001 &&
    (b.funct == 0b0000 || b.funct == 0b0001 || b.funct == 0b0010)

end PeriphBus

/-- The registers of the timers. -/
structure Timers where
  timercauseInv : BitVec 4
  timermask : BitVec 4
  timer0 : Word
  timer1 : BitVec 16
  timer1Set : Bool
  timer1Pre : BitVec 3
  timer1Ctc : BitVec 16
  timer1Ocr : BitVec 16
  intTimer1Ctc : Bool
  tmr1Dly : Bool
  tmr1Dly2 : Bool
deriving DecidableEq, Repr

namespace Timers

/-- The registers after `rst_i`. -/
def reset : Timers where
  timercauseInv := 0
  timermask := 0
  timer0 := 0
  timer1 := 0
  timer1Set := false
  timer1Pre := 0
  timer1Ctc := BitVec.allOnes 16
  timer1Ocr := 0
  intTimer1Ctc := false
  tmr1Dly := false
  tmr1Dly2 := false

variable (s : Timers) (b : PeriphBus)

/-- A write to a register of `TIMER1`. The first write of `TIMER1` with bit 31 locks the
counter, the next one loads it and unlocks. -/
def writeTimer1 (funct : BitVec 4) (data : Word) : Timers :=
  if funct = 0b0000 then
    { s with
      timer1 := if s.timer1Set then data.extractLsb' 0 16 else s.timer1
      timer1Set := !s.timer1Set && data.getLsbD 31 }
  else if funct = 0b0001 then { s with timer1Pre := data.extractLsb' 0 3 }
  else if funct = 0b0010 then { s with timer1Ctc := data.extractLsb' 0 16 }
  else if funct = 0b0011 then { s with timer1Ocr := data.extractLsb' 0 16 }
  else s

/-- The register write of this cycle. -/
def write : Timers :=
  if b.timersWrite then
    if b.device = 0b000010 then { s with timercauseInv := b.data.extractLsb' 0 4 }
    else if b.device = 0b000011 then { s with timermask := b.data.extractLsb' 0 4 }
    else if b.device = 0b010001 then s.writeTimer1 b.funct b.data
    else s
  else s

/-- The bit of `timer0` that the prescaler looks at. -/
def prescaleBit (pre : BitVec 3) : ℕ :=
  if pre = 0b001 then 2
  else if pre = 0b010 then 4
  else if pre = 0b011 then 6
  else if pre = 0b100 then 8
  else if pre = 0b101 then 10
  else if pre = 0b110 then 12
  else if pre = 0b111 then 14
  else 0

def tmr1Pulse : Bool := s.tmr1Dly != s.tmr1Dly2

/-- The pulse of this cycle finds the compare value. -/
def ctcMatch : Bool := s.tmr1Pulse && s.timer1 == s.timer1Ctc

def intTimer1Ocr : Bool := s.timer1.ult s.timer1Ocr

def timercause : BitVec 4 :=
  BitVec.ofBool s.intTimer1Ocr ++ BitVec.ofBool s.intTimer1Ctc ++
    BitVec.ofBool (s.timer0.getLsbD 18) ++ BitVec.ofBool (s.timer0.getLsbD 16)

def intTimer : Bool := ((s.timercause ^^^ s.timercauseInv) &&& s.timermask) != 0

/-- One clock edge. The count of a pulse comes after the register write, so it wins;
both read the registers before the edge. -/
def step : Timers :=
  { s.write b with
    timer0 := s.timer0 + 1
    timer1 :=
      if s.tmr1Pulse then
        if s.timer1 ≠ s.timer1Ctc then
          if s.timer1Set = false then s.timer1 + 1 else (s.write b).timer1
        else 0
      else (s.write b).timer1
    intTimer1Ctc := if s.ctcMatch then !s.intTimer1Ctc else s.intTimer1Ctc
    tmr1Dly := s.timer0.getLsbD (prescaleBit s.timer1Pre)
    tmr1Dly2 := s.tmr1Dly }

/-- The timers as a machine that emits the interrupt line. -/
def machine : Lib.Mealy Timers PeriphBus Bool where
  step := step
  out s _ := [s.intTimer]

/-! ## A cycle that leaves `TIMER1` alone -/

/-- The registers of `TIMER1` that only the bus writes. -/
structure SameSettings (s t : Timers) : Prop where
  set : t.timer1Set = s.timer1Set
  pre : t.timer1Pre = s.timer1Pre
  ctc : t.timer1Ctc = s.timer1Ctc

variable {s b}

theorem write_quiet (hb : b.writesTimer1 = false) :
    s.SameSettings (s.write b) ∧ (s.write b).timer1 = s.timer1 := by
  unfold write
  split
  · rename_i hw
    repeat' split
    all_goals first | exact ⟨⟨rfl, rfl, rfl⟩, rfl⟩ | skip
    rename_i hd
    -- of the registers of `TIMER1`, only `TIMER1_OCR` is left
    simp only [PeriphBus.writesTimer1, hw, hd, BEq.rfl, Bool.true_and, Bool.or_eq_false_iff,
      beq_eq_false_iff_ne] at hb
    obtain ⟨⟨h0, h1⟩, h2⟩ := hb
    rw [writeTimer1, if_neg h0, if_neg h1, if_neg h2]
    split <;> exact ⟨⟨rfl, rfl, rfl⟩, rfl⟩
  · exact ⟨⟨rfl, rfl, rfl⟩, rfl⟩

theorem step_settings (hb : b.writesTimer1 = false) : s.SameSettings (s.step b) :=
  ⟨(write_quiet hb).1.set, (write_quiet hb).1.pre, (write_quiet hb).1.ctc⟩

theorem step_timer1 (hb : b.writesTimer1 = false) :
    (s.step b).timer1 =
      if s.ctcMatch then 0
      else if s.tmr1Pulse = true ∧ s.timer1Set = false then s.timer1 + 1 else s.timer1 := by
  have hw := (write_quiet (s := s) hb).2
  simp only [step, ctcMatch, hw, Bool.and_eq_true, beq_iff_eq]
  by_cases hp : s.tmr1Pulse = true
  · by_cases hc : s.timer1 = s.timer1Ctc
    · simp [hp, hc]
    · simp [hp, hc]
  · simp [hp]

/-! ## The prescaler -/

/-- The clocks between two pulses. -/
def prescale (pre : BitVec 3) : ℕ := 4 ^ pre.toNat

theorem prescale_eq (pre : BitVec 3) : 2 ^ prescaleBit pre = prescale pre := by
  revert pre
  decide

theorem prescaleBit_lt (pre : BitVec 3) : prescaleBit pre < 32 := by
  revert pre
  decide

theorem prescale_lt (pre : BitVec 3) : prescale pre < 65536 := by
  revert pre
  decide

theorem prescale_pos (pre : BitVec 3) : 0 < prescale pre := Nat.pos_of_ne_zero (by
  revert pre
  decide)

/-- The prescaler has seen the last two values of `timer0`. -/
structure Settled (s : Timers) : Prop where
  dly : s.tmr1Dly = (s.timer0 - 1).getLsbD (prescaleBit s.timer1Pre)
  dly2 : s.tmr1Dly2 = (s.timer0 - 2).getLsbD (prescaleBit s.timer1Pre)

theorem Settled.step (hs : s.Settled) (hb : b.writesTimer1 = false) : (s.step b).Settled := by
  have hpre := (step_settings (s := s) hb).pre
  constructor
  · rw [hpre]
    show s.timer0.getLsbD _ = (s.timer0 + 1 - 1).getLsbD _
    rw [BitVec.add_sub_cancel]
  · rw [hpre]
    show s.tmr1Dly = (s.timer0 + 1 - 2).getLsbD _
    rw [hs.dly, show s.timer0 + 1 - 2 = s.timer0 - 1 by bv_omega]

/-- Two cycles after the settings were written, the prescaler follows them. -/
theorem settled_two {b' : PeriphBus} (hb : b.writesTimer1 = false)
    (hb' : b'.writesTimer1 = false) : ((s.step b).step b').Settled := by
  have hpre := (step_settings (s := s) hb).pre
  have hpre' := (step_settings (s := s.step b) hb').pre
  constructor
  · rw [hpre']
    show (s.timer0 + 1).getLsbD _ = (s.timer0 + 1 + 1 - 1).getLsbD _
    rw [BitVec.add_sub_cancel]
  · rw [hpre', hpre]
    show s.timer0.getLsbD _ = (s.timer0 + 1 + 1 - 2).getLsbD _
    rw [show s.timer0 + 1 + 1 - 2 = s.timer0 by bv_omega]

/-- A bit of a counter changes when the bits below it are all zero again. -/
theorem getLsbD_ne_pred_iff {w k : ℕ} (x : BitVec w) (hk : k < w) :
    x.getLsbD k ≠ (x - 1).getLsbD k ↔ 2 ^ k ∣ x.toNat := by
  obtain ⟨y, rfl⟩ : ∃ y, x = y + 1 := ⟨x - 1, (BitVec.sub_add_cancel x 1).symm⟩
  have hw : 2 ^ k ∣ 2 ^ w := Nat.pow_dvd_pow 2 hk.le
  have hadd : (y + 1).toNat = (y.toNat + 1) % 2 ^ w := by
    rw [BitVec.toNat_add, show (1 : BitVec w).toNat = 1 % 2 ^ w from BitVec.toNat_ofNat 1 w,
      Nat.add_mod_mod]
  rw [BitVec.add_sub_cancel, ← BitVec.testBit_toNat, ← BitVec.testBit_toNat, hadd,
    Nat.testBit_mod_two_pow, decide_eq_true hk, Bool.true_and, (Nat.dvd_mod_iff hw),
    Nat.testBit_eq_decide_div_mod_eq, Nat.testBit_eq_decide_div_mod_eq]
  have hdiv : (y.toNat + 1) / 2 ^ k = y.toNat / 2 ^ k + if 2 ^ k ∣ y.toNat + 1 then 1 else 0 :=
    Nat.succ_div
  rw [hdiv, Ne, decide_eq_decide]
  split
  · rename_i hdvd
    exact iff_of_true (by omega) hdvd
  · rename_i hdvd
    exact iff_of_false (by omega) hdvd

/-- A settled prescaler pulses after the multiples of `prescale`. -/
theorem Settled.pulse_iff (hs : s.Settled) :
    s.tmr1Pulse = true ↔ prescale s.timer1Pre ∣ (s.timer0 - 1).toNat := by
  rw [tmr1Pulse, bne_iff_ne, hs.dly, hs.dly2, show s.timer0 - 2 = s.timer0 - 1 - 1 by bv_omega,
    getLsbD_ne_pred_iff _ (prescaleBit_lt _), prescale_eq]

/-! ## Interrupt edges -/

/-- `int_timer1_ctc` toggles at the end of this cycle. -/
def Toggles (s : Timers) (b : PeriphBus) : Prop := (s.step b).intTimer1Ctc ≠ s.intTimer1Ctc

instance : Decidable (Toggles s b) := inferInstanceAs (Decidable (_ ≠ _))

theorem toggles_iff : Toggles s b ↔ s.ctcMatch = true := by
  show (if s.ctcMatch then !s.intTimer1Ctc else s.intTimer1Ctc) ≠ s.intTimer1Ctc ↔ _
  by_cases h : s.ctcMatch = true
  · rw [if_pos h]
    exact iff_of_true (Bool.not_ne_self _) h
  · rw [if_neg h]
    exact iff_of_false (fun hne => hne rfl) h

section Gap

variable {u : ℕ → Timers} {y : ℕ → PeriphBus} {n : ℕ}

/-- What stays along cycles that leave `TIMER1` alone. -/
structure Quiet (s t : Timers) (j : ℕ) : Prop extends SameSettings s t where
  settled : t.Settled
  timer0 : t.timer0 = s.timer0 + BitVec.ofNat 32 j

theorem quiet_run (hu : ∀ j, u (j + 1) = (u j).step (y j)) (hs : (u 0).Settled)
    (hq : ∀ j ≤ n, (y j).writesTimer1 = false) : ∀ j ≤ n + 1, Quiet (u 0) (u j) j := by
  intro j hj
  induction j with
  | zero => exact ⟨⟨rfl, rfl, rfl⟩, hs, (BitVec.add_zero _).symm⟩
  | succ j ih =>
    have hprev := ih (Nat.le_of_succ_le hj)
    have hqj := hq j (Nat.le_of_succ_le_succ hj)
    have hset := step_settings (s := u j) hqj
    rw [hu j]
    refine ⟨⟨hset.set.trans hprev.set, hset.pre.trans hprev.pre, hset.ctc.trans hprev.ctc⟩,
      hprev.settled.step hqj, ?_⟩
    show (u j).timer0 + 1 = _
    rw [hprev.timer0]
    bv_omega

/-- The pulses of a quiet run come at the ticks of the clock. -/
theorem Quiet.pulse_iff {j : ℕ} (h : Quiet s t j) :
    t.tmr1Pulse = true ↔ prescale s.timer1Pre ∣ (s.timer0 - 1).toNat + j := by
  have hdvd : prescale s.timer1Pre ∣ 2 ^ 32 := by
    rw [← prescale_eq]
    exact Nat.pow_dvd_pow 2 (prescaleBit_lt _).le
  have htime : (t.timer0 - 1).toNat = ((s.timer0 - 1).toNat + j) % 2 ^ 32 := by
    rw [h.timer0]
    bv_omega
  rw [h.settled.pulse_iff, h.pre, htime, Nat.dvd_mod_iff hdvd]

/-- A locked counter stays at zero after a match. -/
theorem timer1_locked (hu : ∀ j, u (j + 1) = (u j).step (y j))
    (hq : ∀ j ≤ n, (y j).writesTimer1 = false) (hfirst : (u 0).ctcMatch = true)
    (hset : ∀ j ≤ n + 1, (u j).timer1Set = true) : ∀ i ≤ n, (u (i + 1)).timer1 = 0 := by
  intro i hi
  induction i with
  | zero => rw [hu, step_timer1 (hq 0 hi), if_pos hfirst]
  | succ i ih =>
    rw [hu, step_timer1 (hq (i + 1) hi), hset (i + 1) (by omega), ih (by omega)]
    simp

/-- Between two matches, `timer1` counts the ticks. -/
theorem edgeGap (hu : ∀ j, u (j + 1) = (u j).step (y j)) (hs : (u 0).Settled)
    (hq : ∀ j ≤ n, (y j).writesTimer1 = false) (hfirst : (u 0).ctcMatch = true)
    (hnext : (u (n + 1)).ctcMatch = true) (hbetween : ∀ j < n, (u (j + 1)).ctcMatch = false) :
    Lib.EdgeGap (prescale (u 0).timer1Pre) ((u 0).timer0 - 1).toNat 65536
      (u 0).timer1Ctc.toNat n := by
  have hquiet := quiet_run hu hs hq
  have hmatch : ∀ j ≤ n + 1, (u j).ctcMatch = true ↔
      prescale (u 0).timer1Pre ∣ ((u 0).timer0 - 1).toNat + j ∧
        (u j).timer1 = (u 0).timer1Ctc := fun j hj => by
    rw [ctcMatch, Bool.and_eq_true, (hquiet j hj).pulse_iff, beq_iff_eq, (hquiet j hj).ctc]
  have hcount : ∀ i ≤ n, (u (i + 1)).timer1.toNat =
      Lib.ticks (prescale (u 0).timer1Pre) ((u 0).timer0 - 1).toNat i % 65536 := by
    refine Lib.counter_eq_ticks ?_ fun i hi => ?_
    · rw [hu, step_timer1 (hq 0 (Nat.zero_le n)), if_pos hfirst]
      rfl
    · have hq' := hquiet (i + 1) (by omega)
      rw [hu, step_timer1 (hq (i + 1) (by omega)), hbetween i hi, if_neg Bool.false_ne_true,
        Nat.add_assoc]
      by_cases hp : (u (i + 1)).tmr1Pulse = true
      · rw [if_pos (hq'.pulse_iff.mp hp)]
        by_cases hset : (u (i + 1)).timer1Set = true
        · -- a locked counter matches at the first pulse or never
          have h0 := timer1_locked hu hq hfirst fun j hj => by
            rw [(hquiet j hj).set, ← hq'.set, hset]
          have hctc : (u 0).timer1Ctc = 0 := by
            rw [← ((hmatch (n + 1) le_rfl).mp hnext).2, h0 n le_rfl]
          have hm := (hmatch (i + 1) (by omega)).mpr
            ⟨hq'.pulse_iff.mp hp, by rw [h0 i hi.le, hctc]⟩
          rw [hbetween i hi] at hm
          exact absurd hm Bool.false_ne_true
        · rw [if_pos ⟨hp, Bool.eq_false_of_not_eq_true hset⟩, BitVec.toNat_add]
          rfl
      · rw [if_neg fun h => hp h.1, if_neg fun h => hp (hq'.pulse_iff.mpr h)]
        exact (Nat.mod_eq_of_lt (u (i + 1)).timer1.isLt).symm
  refine ⟨((hmatch 0 (Nat.zero_le _)).mp hfirst).1, ?_, fun j hj hm => ?_⟩
  · obtain ⟨hd, hc⟩ := (hmatch (n + 1) le_rfl).mp hnext
    exact ⟨hd, by rw [← hcount n le_rfl, hc]⟩
  · have := (hmatch (j + 1) (by omega)).mpr
      ⟨hm.1, BitVec.eq_of_toNat_eq (by rw [hcount j hj.le, hm.2])⟩
    rw [hbetween j hj] at this
    exact absurd this Bool.false_ne_true

end Gap

end Timers

end HfRisc.Rtl
