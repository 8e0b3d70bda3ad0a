import HfRisc.Rtl.SpiSramSystem

/-!
# An access of the controller

The bytes of an access, in order: the command, three of the address, and those of the data, the
first of which is number `d` of the word. Each begins 38 cycles behind the one before. `At`
says where the controller is before a byte, and the memory is followed from byte to byte.
-/

namespace HfRisc.Rtl.SpiSramSystem

open SpiSramCtrl (dataByte addrByte)

/-! ## The controller -/

/-- The state before byte `m`, or behind the last one. -/
def place (op : SramState) (d m : ℕ) : SramState :=
  if m = 0 then op else if m < 4 then .addrPhase else if m < 8 - d then .dataPhase else .ready

/-- The controller before byte `m` of an access, or behind the last one. -/
structure At (op : SramState) (d m : ℕ) (c : SpiSramCtrl) : Prop where
  state : c.state = place op d m
  cmdCounter : m = 0 → c.cmdCounter = false
  addrCounter : m < 4 → c.addrCounter = BitVec.ofNat 2 (m - 1)
  dataCounter : c.dataCounter = BitVec.ofNat 17 (d + (m - 4))
  bmode : c.bmode = decide (d = 3)
  hmode : c.hmode = decide (d = 2)
  wren : c.wren = false
  csN : c.spiCsN = false
  cpuStall : c.cpuStall = true

/-- An access, by the command it begins with and the first byte of the word it is for. -/
structure Access (op : SramState) (d : ℕ) : Prop where
  op : op = .cmdWrite ∨ op = .cmdRead
  first : d ≤ 3

variable {op : SramState} {d m k : ℕ} {c : SpiSramCtrl} {i : SramIn} {r : BitVec 8}

theorem place_addr (hpos : 0 < m) (hlt : m < 4) : place op d m = .addrPhase := by
  rw [place, if_neg (Nat.ne_of_gt hpos), if_pos hlt]

theorem place_data (hge : 4 ≤ m) (hm : m < 8 - d) : place op d m = .dataPhase := by
  rw [place, if_neg (by omega), if_neg (by omega), if_pos hm]

theorem place_ready (hge : 4 ≤ m) (hm : 8 - d ≤ m) : place op d m = .ready := by
  rw [place, if_neg (by omega), if_neg (by omega), if_neg (by omega)]

section Position

variable (ha : Access op d) (h : At op d m c)
include ha h

/-- The kinds of bytes. -/
theorem At.cases (hm : m < 8 - d) :
    m = 0 ∧ (c.state = .cmdWrite ∨ c.state = .cmdRead) ∧ c.cmdCounter = false ∨
      (0 < m ∧ m < 4) ∧ c.state = .addrPhase ∨ 4 ≤ m ∧ c.state = .dataPhase := by
  have hstate := h.state
  rcases Nat.eq_zero_or_pos m with rfl | hpos
  · rw [place, if_pos rfl] at hstate
    rw [hstate]
    exact .inl ⟨rfl, ha.op, h.cmdCounter rfl⟩
  · rcases Nat.lt_or_ge m 4 with hlt | hge
    · exact .inr (.inl ⟨⟨hpos, hlt⟩, hstate.trans (place_addr hpos hlt)⟩)
    · exact .inr (.inr ⟨hge, hstate.trans (place_data hge hm)⟩)

theorem At.sending (hm : m < 8 - d) : c.Sending := by
  have hd := ha.first
  rcases h.cases ha hm with ⟨-, hstate | hstate, hcount⟩ | ⟨hlt, hstate⟩ | ⟨hge, hstate⟩
  · rw [SpiSramCtrl.Sending, hstate]
    exact hcount
  · rw [SpiSramCtrl.Sending, hstate]
    exact hcount
  · rw [SpiSramCtrl.Sending, hstate]
    show c.addrCounter.toNat < 3
    rw [h.addrCounter hlt.2, BitVec.toNat_ofNat]
    omega
  · rw [SpiSramCtrl.Sending, hstate]
    show c.dataCounter.toNat < 4
    rw [h.dataCounter, BitVec.toNat_ofNat]
    omega

/-- A byte takes the controller to the next one. -/
theorem At.passed (hm : m < 8 - d) : At op d (m + 1) (c.handed i r).passed := by
  have hd := ha.first
  rcases h.cases ha hm with ⟨rfl, hstate, hcount⟩ | ⟨⟨hpos, hlt⟩, hstate⟩ | ⟨hge, hstate⟩
  · -- behind the instruction byte the address begins
    have hpassed : (c.handed i r).passed =
        { c.handed i r with wren := false, cmdCounter := true, state := .addrPhase } := by
      have hstate' : (c.handed i r).state = c.state := rfl
      rw [SpiSramCtrl.passed]
      rcases hstate with hstate | hstate
      · rw [hstate', hstate]
      · rw [hstate', hstate]
    rw [hpassed]
    refine ⟨rfl, fun hzero => absurd hzero (by omega), fun _ => h.addrCounter (by decide),
      h.dataCounter, h.bmode, h.hmode, rfl, h.csN, h.cpuStall⟩
  · -- the third byte of the address is the last one
    have hstate' : (c.handed i r).state = .addrPhase := hstate
    have hcount : c.addrCounter + 1 = BitVec.ofNat 2 (m + 1 - 1) := by
      rw [h.addrCounter hlt, Nat.add_sub_cancel, show m = m - 1 + 1 by omega, BitVec.ofNat_add,
        Nat.add_sub_cancel]
      rfl
    rw [SpiSramCtrl.passed, hstate']
    refine ⟨?_, fun hzero => absurd hzero (by omega), fun _ => hcount, ?_, h.bmode, h.hmode, rfl,
      h.csN, h.cpuStall⟩
    · show (if (c.addrCounter + 1).toNat < 3 then SramState.addrPhase else .dataPhase) = _
      rw [hcount, BitVec.toNat_ofNat]
      rcases Nat.lt_or_ge (m + 1) 4 with hnext | hnext
      · rw [place_addr (Nat.succ_pos m) hnext, if_pos (by omega)]
      · rw [place_data hnext (by omega), if_neg (by omega)]
    · show c.dataCounter = _
      rw [h.dataCounter]
      congr 1
      omega
  · -- the data counter begins at the first byte that the access has
    have hstate' : (c.handed i r).state = .dataPhase := hstate
    have hcount : c.dataCounter + 1 = BitVec.ofNat 17 (d + (m + 1 - 4)) := by
      rw [h.dataCounter, show d + (m + 1 - 4) = d + (m - 4) + 1 by omega]
      exact (BitVec.ofNat_add _ 1).symm
    rw [SpiSramCtrl.passed, hstate']
    refine ⟨?_, fun hzero => absurd hzero (by omega), fun hlt => absurd hlt (by omega), hcount,
      h.bmode, h.hmode, rfl, h.csN, h.cpuStall⟩
    show (if (c.dataCounter + 1).toNat < 4 then SramState.dataPhase else .ready) = _
    rw [hcount, BitVec.toNat_ofNat]
    rcases Nat.lt_or_ge (m + 1) (8 - d) with hnext | hnext
    · rw [place_data (by omega) hnext, if_pos (by omega)]
    · rw [place_ready (by omega) hnext, if_neg (by omega)]

omit ha in
/-- The bytes that are sent. -/
theorem At.byteOut_addr (hpos : 0 < m) (hlt : m < 4) :
    c.byteOut i = i.addrI.extractLsb' (16 - 8 * (m - 1)) 8 := by
  have hstate : c.state = .addrPhase := h.state.trans (place_addr hpos hlt)
  rw [SpiSramCtrl.byteOut, hstate]
  show addrByte i.addrI c.addrCounter c.dataIn = _
  rw [h.addrCounter hlt]
  obtain rfl | rfl | rfl : m = 1 ∨ m = 2 ∨ m = 3 := by omega
  · rfl
  · rfl
  · rfl

theorem At.byteOut_data (hge : 4 ≤ m) (hm : m < 8 - d) :
    c.byteOut i = i.dataI.extractLsb' (8 * (7 - d - m)) 8 := by
  have hd := ha.first
  have hstate : c.state = .dataPhase := h.state.trans (place_data hge hm)
  rw [SpiSramCtrl.byteOut, hstate]
  show dataByte i.dataI (c.dataCounter.extractLsb' 0 2) = _
  rw [h.dataCounter]
  obtain ⟨j, hj, hlane, hsum⟩ : ∃ j < 4, 7 - d - m = 3 - j ∧ d + (m - 4) = j :=
    ⟨d + (m - 4), by omega, by omega, rfl⟩
  rw [hlane, hsum]
  obtain rfl | rfl | rfl | rfl : j = 0 ∨ j = 1 ∨ j = 2 ∨ j = 3 := by omega
  · rfl
  · rfl
  · rfl
  · rfl

end Position

/-! ## The bytes of an access -/

/-- The system before byte `m` of an access. -/
structure Busy (op : SramState) (d m : ℕ) (s : SpiSramSystem) : Prop where
  ctrl : At op d m s.ctrl
  idle : s.core.state = .idle
  valid : s.core.dataValid = false
  clk : s.core.spiClk = false

/-- No access is on its way. In `start` the memory may be selected already. -/
structure Free (s : SpiSramSystem) : Prop where
  wren : s.ctrl.wren = false
  idle : s.core.state = .idle
  clk : s.core.spiClk = false
  place : s.ctrl.state = .ready ∨
    s.ctrl.state = .start ∧ (s.ctrl.spiCsN = true ∨ s.chip.clockCounter = 0)

variable {s : SpiSramSystem} {x : ℕ → SpiSramSystemIn}

/-- Without `wren` the master stays as it is. -/
theorem core_rest (hidle : s.core.state = .idle) (hwren : s.ctrl.wren = false)
    (y : SpiSramSystemIn) :
    (s.step y).core.state = .idle ∧ (s.step y).core.dataValid = false ∧
      (s.step y).core.spiClk = false := by
  have hcore : (s.step y).core = ⟨.idle, s.ctrl.dataIn, 0, false, false, false⟩ := by
    show s.core.step (s.coreIn y) = _
    rw [SpiMaster.step, hidle]
    simp only [coreIn, hwren, Bool.false_eq_true, if_false]
  rw [hcore]
  exact ⟨rfl, rfl, rfl⟩

section Run

variable (ha : Access op d) (hburst : ∀ k, (x k).burstI = false)
include ha

theorem Busy.atByte (h : Busy op d m s) (hm : m < 8 - d) : s.AtByte :=
  ⟨h.ctrl.sending ha hm, h.ctrl.wren, h.ctrl.csN, h.idle, h.valid, h.clk⟩

include hburst

/-- A byte up to the cycle in which the master is back. -/
theorem Busy.byte (h : Busy op d m s) (hm : m < 8 - d) :
    At op d (m + 1) (s.after x 37).ctrl ∧ (s.after x 37).core.state = .idle ∧
      (s.after x 37).core.dataValid = true ∧ (s.after x 37).core.spiClk = false ∧
      (s.after x 37).chip = s.chip.bits (sent s x) 8 ∧
      (s.after x 37).ctrl.dataOReg =
        (s.ctrl.handed (x 34).toSramIn (received s x)).dataOReg := by
  obtain ⟨-, -, hctrl, hidle, hvalid, hclk, hchip⟩ :=
    after_byte (h.atByte ha hm) fun k _ => hburst k
  have hreg : ∀ c : SpiSramCtrl, c.passed.dataOReg = c.dataOReg := fun c => by
    rw [SpiSramCtrl.passed]
    split
    · rfl
    · rfl
    · rfl
  rw [hctrl]
  exact ⟨h.ctrl.passed ha hm, hidle, hvalid, hclk, hchip, hreg _⟩

/-- The next byte. -/
theorem Busy.next (h : Busy op d m s) (hm : m + 1 < 8 - d) :
    Busy op d (m + 1) (s.after x 38) ∧ (s.after x 38).chip = (s.after x 37).chip ∧
      (s.after x 38).ctrl = (s.after x 37).ctrl := by
  obtain ⟨hat, hidle, hvalid, hclk, -⟩ := h.byte ha hburst (Nat.lt_of_succ_lt hm)
  have hphase : (s.after x 37).ctrl.state = .addrPhase ∨
      (s.after x 37).ctrl.state = .dataPhase := by
    rcases Nat.lt_or_ge (m + 1) 4 with hlt | hge
    · exact .inl (hat.state.trans (place_addr (Nat.succ_pos m) hlt))
    · exact .inr (hat.state.trans (place_data hge hm))
  have hctrl : (s.after x 38).ctrl = (s.after x 37).ctrl := by
    show (s.after x 37).ctrl.step (x 37).toSramIn (s.after x 37).core.dataO
      (s.after x 37).core.dataValid = _
    rw [hvalid, (hat.sending ha hm).step_pause hat.wren (hburst 37) hphase]
  obtain ⟨hidle', hvalid', hclk'⟩ := core_rest hidle hat.wren (x 37)
  refine ⟨⟨hctrl.symm ▸ hat, hidle', hvalid', hclk'⟩, ?_, hctrl⟩
  exact chip_succ.trans (SpiSram.change_same hat.csN (hclk.trans hclk'.symm))

/-- The cycle in which the last byte of an access is through. -/
def lastCycle (d : ℕ) : ℕ := 38 * (7 - d) + 37

/-- An access from its first byte to its end, with a property that is carried from byte to
byte. -/
theorem Busy.run (P : ℕ → SpiSram → Word → Prop) (h : Busy op d 0 s)
    (hzero : P 0 s.chip s.ctrl.dataOReg)
    (hbyte : ∀ m < 8 - d, ∀ t : SpiSramSystem, t = s.after x (38 * m) → Busy op d m t →
      P m t.chip t.ctrl.dataOReg →
      P (m + 1) (t.chip.bits (sent t fun l => x (38 * m + l)) 8)
        (t.ctrl.handed (x (38 * m + 34)).toSramIn
          (received t fun l => x (38 * m + l))).dataOReg) (hm : m < 8 - d) :
    Busy op d m (s.after x (38 * m)) ∧
      P m (s.after x (38 * m)).chip (s.after x (38 * m)).ctrl.dataOReg ∧
      P (m + 1) (s.after x (38 * m + 37)).chip (s.after x (38 * m + 37)).ctrl.dataOReg := by
  have hthrough : ∀ m < 8 - d, Busy op d m (s.after x (38 * m)) →
      P m (s.after x (38 * m)).chip (s.after x (38 * m)).ctrl.dataOReg →
      P (m + 1) (s.after x (38 * m + 37)).chip (s.after x (38 * m + 37)).ctrl.dataOReg := by
    intro m hm hbusy hP
    obtain ⟨-, -, -, -, hchip, hreg⟩ :=
      hbusy.byte (x := fun l => x (38 * m + l)) ha (fun _ => hburst _) hm
    rw [after_add, hchip, hreg]
    exact hbyte m hm _ rfl hbusy hP
  induction m with
  | zero => exact ⟨h, hzero, hthrough 0 hm h hzero⟩
  | succ m ih =>
    obtain ⟨hbusy, -, hP⟩ := ih (Nat.lt_of_succ_lt hm)
    obtain ⟨hbusy', hchip, hctrl⟩ :=
      hbusy.next (x := fun l => x (38 * m + l)) ha (fun _ => hburst _) hm
    have hnext : P (m + 1) (s.after x (38 * (m + 1))).chip
        (s.after x (38 * (m + 1))).ctrl.dataOReg := by
      rw [Nat.mul_succ, after_add, hchip, hctrl, ← after_add]
      exact hP
    have hbusy'' : Busy op d (m + 1) (s.after x (38 * (m + 1))) := by
      rw [Nat.mul_succ, after_add]
      exact hbusy'
    exact ⟨hbusy'', hnext, hthrough (m + 1) hm hbusy'' hnext⟩

/-- Before byte `m`, whatever is sent. -/
theorem Busy.at (h : Busy op d 0 s) (hm : m < 8 - d) : Busy op d m (s.after x (38 * m)) :=
  (h.run ha hburst (fun _ _ _ => True) trivial (fun _ _ _ _ _ _ => trivial) hm).1

/-- The stall is up during an access, and the controller is in none of its idle states. -/
theorem Busy.within (h : Busy op d 0 s) (hk : k < lastCycle d) :
    (s.after x k).ctrl.cpuStall = true ∧ (s.after x k).ctrl.state ≠ .ready ∧
      (s.after x k).ctrl.state ≠ .start := by
  have hd := ha.first
  rw [lastCycle] at hk
  have hbusy : ∀ m < 8 - d, ∀ c : SpiSramCtrl, At op d m c →
      c.state ≠ .ready ∧ c.state ≠ .start := by
    intro m hm c hat
    rcases hat.cases ha hm with ⟨-, hstate | hstate, -⟩ | ⟨-, hstate⟩ | ⟨-, hstate⟩
    all_goals rw [hstate]; decide
  obtain ⟨m, p, hm, hp, rfl⟩ : ∃ m p, m < 8 - d ∧ p < 38 ∧ k = 38 * m + p :=
    ⟨k / 38, k % 38, by omega, by omega, by omega⟩
  have hm' := h.at (x := x) ha hburst hm
  rw [after_add]
  rcases Nat.lt_or_ge p 37 with hlt | hge
  · obtain ⟨hstate, hstall⟩ := within_byte (x := fun l => x (38 * m + l))
      (hm'.atByte ha hm) (fun _ _ => hburst _) hlt
    rw [hstate, hstall]
    exact ⟨hm'.ctrl.cpuStall, hbusy m hm _ hm'.ctrl⟩
  · obtain rfl : p = 37 := by omega
    have hat := (hm'.byte (x := fun l => x (38 * m + l)) ha (fun _ => hburst _) hm).1
    exact ⟨hat.cpuStall, hbusy (m + 1) (by omega) _ hat⟩

/-- The end of an access. -/
theorem Busy.last (h : Busy op d 0 s) : (s.after x (lastCycle d)).Free ∧
    (s.after x (lastCycle d)).ctrl.state = .ready ∧
    (s.after x (lastCycle d)).ctrl.cpuStall = true := by
  have hd := ha.first
  have hm : 7 - d < 8 - d := by omega
  obtain ⟨hat, hidle, -, hclk, -⟩ :=
    (h.at (x := x) ha hburst hm).byte (x := fun l => x (38 * (7 - d) + l)) ha (fun _ => hburst _) hm
  rw [← after_add] at hat hidle hclk
  have hready := hat.state.trans (place_ready (by omega) (by omega))
  exact ⟨⟨hat.wren, hidle, hclk, .inl hready⟩, hready, hat.cpuStall⟩

end Run

end HfRisc.Rtl.SpiSramSystem
