import HfRisc.Rtl.SpiSramData

/-!
# Store and load through the SPI SRAM controller

From every idle state that is reached a write request changes the bytes it addresses, and a
read request behind it brings them back, whatever was read or awaited in between.
-/

namespace HfRisc.Rtl.SpiSramSystem

variable {s : SpiSramSystem} {x : ℕ → SpiSramSystemIn} {y : SpiSramSystemIn} {op : SramState}
  {d : ℕ}

/-- `burst_i`, `saddr_i` and `wren_i` are low. -/
structure Single (y : SpiSramSystemIn) : Prop where
  burst : y.burstI = false
  saddr : y.saddrI = false
  wren : y.wrenI = false

/-- The bytes of an access. -/
def accessBytes (bmode hmode : Bool) : ℕ :=
  if hmode && !bmode then 2 else if bmode && !hmode then 1 else 4

/-- The first byte of the word in an access. -/
def firstByte (bmode hmode : Bool) : ℕ := 4 - accessBytes bmode hmode

/-! ## Without an access -/

/-- While the clock is low the memory can only be selected. -/
theorem chip_select (hsck : s.core.spiClk = false) (hsck' : (s.step y).core.spiClk = false) :
    (s.step y).chip = if s.ctrl.spiCsN && !(s.step y).ctrl.spiCsN then s.chip.negedgeCsN
      else s.chip := by
  have hchange : (s.step y).chip = s.chip.change s.pins (s.step y).pins := rfl
  have hlow : s.pins.sck = false := hsck
  have hlow' : (s.step y).pins.sck = false := hsck'
  rw [hchange, SpiSram.change]
  simp only [hlow, hlow', Bool.not_false, Bool.and_false, Bool.false_and, Bool.false_eq_true,
    if_false]
  rfl

theorem Free.step_ready (h : s.Free) (hready : s.ctrl.state = .ready) (y : SpiSramSystemIn) :
    (s.step y).Free ∧ (s.step y).ctrl.state = (if y.wrI || y.rdI then .start else .ready) ∧
      (s.step y).ctrl.cpuStall = false ∧ (s.step y).ctrl.dataOReg = s.ctrl.dataOReg ∧
      (s.step y).chip = s.chip := by
  obtain ⟨hidle, -, hclk⟩ := core_rest h.idle h.wren y
  have hctrl : (s.step y).ctrl = { s.ctrl with
      state := if y.wrI || y.rdI then .start else .ready
      spiCsN := true
      cpuStall := false } := by
    show s.ctrl.step y.toSramIn s.core.dataO s.core.dataValid = _
    rw [SpiSramCtrl.step, hready]
  have hchip : (s.step y).chip = s.chip := by
    have hcsN : (s.step y).ctrl.spiCsN = true := congrArg SpiSramCtrl.spiCsN hctrl
    rw [chip_select h.clk hclk, hcsN, Bool.not_true, Bool.and_false]
    rfl
  have hplace : (s.step y).ctrl.state = .ready ∨ (s.step y).ctrl.state = .start ∧
      ((s.step y).ctrl.spiCsN = true ∨ (s.step y).chip.clockCounter = 0) := by
    rw [hctrl]
    cases hrequest : y.wrI || y.rdI with
    | false => exact .inl rfl
    | true => exact .inr ⟨rfl, .inl rfl⟩
  refine ⟨⟨?_, hidle, hclk, hplace⟩, ?_, ?_, ?_, hchip⟩
  · rw [hctrl]
    exact h.wren
  · rw [hctrl]
  · rw [hctrl]
  · rw [hctrl]

/-- The controller behind a cycle in `start`. -/
theorem ctrl_start (hstart : s.ctrl.state = .start) (hy : Single y) :
    (s.step y).ctrl = { s.ctrl with
      state := if y.wrI then .cmdWrite else if y.rdI then .cmdRead else .start
      cmdCounter := false
      addrCounter := 0
      dataOReg := 0
      dataCounter := BitVec.ofNat 17 (firstByte y.bmodeI y.hmodeI)
      bmode := decide (firstByte y.bmodeI y.hmodeI = 3)
      hmode := decide (firstByte y.bmodeI y.hmodeI = 2)
      wren := false
      spiCsN := false
      dataAck := false
      cpuStall := true } := by
  show s.ctrl.step y.toSramIn s.core.dataO s.core.dataValid = _
  rw [SpiSramCtrl.step, hstart]
  simp only [hy.burst, hy.saddr, hy.wren]
  cases y.bmodeI <;> cases y.hmodeI <;> rfl

/-- The memory behind it is selected, and has seen no clock. -/
theorem Free.chip_start (h : s.Free) (hstart : s.ctrl.state = .start) (hy : Single y) :
    (s.step y).chip.clockCounter = 0 ∧
      (s.step y).chip.memoryBlock = s.chip.memoryBlock := by
  obtain ⟨-, -, hclk⟩ := core_rest h.idle h.wren y
  have hcsN : (s.step y).ctrl.spiCsN = false :=
    congrArg SpiSramCtrl.spiCsN (ctrl_start hstart hy)
  rw [chip_select h.clk hclk, hcsN, Bool.not_false, Bool.and_true]
  rcases h.place with hready | ⟨-, hhigh | hzero⟩
  · rw [hstart] at hready
    cases hready
  · rw [if_pos hhigh]
    exact ⟨rfl, rfl⟩
  · split
    · exact ⟨rfl, rfl⟩
    · exact ⟨hzero, rfl⟩

/-- In `start` an access begins if there is a request. -/
theorem Free.step_start (h : s.Free) (hstart : s.ctrl.state = .start) (hy : Single y) :
    if y.wrI then Busy .cmdWrite (firstByte y.bmodeI y.hmodeI) 0 (s.step y)
    else if y.rdI then Busy .cmdRead (firstByte y.bmodeI y.hmodeI) 0 (s.step y)
    else (s.step y).Free ∧ (s.step y).ctrl.state = .start := by
  obtain ⟨hidle, hvalid, hclk⟩ := core_rest h.idle h.wren y
  have hctrl := ctrl_start hstart hy
  have hbusy : ∀ op, (s.step y).ctrl.state = op →
      Busy op (firstByte y.bmodeI y.hmodeI) 0 (s.step y) := by
    intro op hop
    refine ⟨⟨hop, fun _ => ?_, fun _ => ?_, ?_, ?_, ?_, ?_, ?_, ?_⟩, hidle, hvalid, hclk⟩
    all_goals rw [hctrl]
    all_goals rfl
  split
  next hwr => exact hbusy _ (by rw [hctrl]; exact if_pos hwr)
  next hwr =>
    split
    next hrd => exact hbusy _ (by rw [hctrl]; exact (if_neg hwr).trans (if_pos hrd))
    next hrd =>
      have hstate : (s.step y).ctrl.state = .start := by
        rw [hctrl]
        exact (if_neg hwr).trans (if_neg hrd)
      have hcounter := (h.chip_start hstart hy).1
      exact ⟨⟨by rw [hctrl], hidle, hclk, .inr ⟨hstate, .inr hcounter⟩⟩, hstate⟩

theorem firstByte_le (bmode hmode : Bool) : firstByte bmode hmode ≤ 3 := by
  cases bmode <;> cases hmode <;> decide

/-- A cycle without an access, or the one in which it begins. -/
theorem Free.step (h : s.Free) (hy : Single y) :
    (s.step y).chip.memoryBlock = s.chip.memoryBlock ∧ ((s.step y).Free ∨
      ∃ op d, Access op d ∧ Busy op d 0 (s.step y) ∧ (s.step y).chip.clockCounter = 0 ∧
        (op = .cmdWrite → y.wrI = true)) := by
  rcases h.place with hready | ⟨hstart, -⟩
  · obtain ⟨hfree, -, -, -, hchip⟩ := h.step_ready hready y
    exact ⟨congrArg SpiSram.memoryBlock hchip, .inl hfree⟩
  · obtain ⟨hcounter, hmemory⟩ := h.chip_start hstart hy
    have hnext := h.step_start hstart hy
    refine ⟨hmemory, ?_⟩
    have hfirst := firstByte_le y.bmodeI y.hmodeI
    by_cases hwr : y.wrI = true
    · rw [if_pos hwr] at hnext
      exact .inr ⟨_, _, ⟨.inl rfl, hfirst⟩, hnext, hcounter, fun _ => hwr⟩
    · rw [if_neg hwr] at hnext
      by_cases hrd : y.rdI = true
      · rw [if_pos hrd] at hnext
        exact .inr ⟨_, _, ⟨.inr rfl, hfirst⟩, hnext, hcounter, fun hop => by cases hop⟩
      · rw [if_neg hrd] at hnext
        exact .inl hnext.1

/-- Whenever the controller is in one of its idle states, no access is on its way, and without
a write in between the memory is the same. -/
theorem Free.after {t : ℕ} (h : s.Free) (hx : ∀ k, Single (x k))
    (hstate : (s.after x t).ctrl.state = .ready ∨ (s.after x t).ctrl.state = .start) :
    (s.after x t).Free ∧ ((∀ k < t, (x k).wrI = false) →
      (s.after x t).chip.memoryBlock = s.chip.memoryBlock) := by
  induction t using Nat.strong_induction_on generalizing s x with
  | _ t ih =>
    rcases Nat.eq_zero_or_pos t with rfl | hpos
    · exact ⟨h, fun _ => rfl⟩
    · obtain ⟨t, rfl⟩ : ∃ t', t = 1 + t' := ⟨t - 1, by omega⟩
      obtain ⟨hmemory, hfree | ⟨op, d, ha, hbusy, hcounter, hwrite⟩⟩ := h.step (hx 0)
      · rw [after_add] at hstate ⊢
        obtain ⟨hend, hsame⟩ := ih t (by omega) (s := s.after x 1) hfree (fun k => hx _) hstate
        exact ⟨hend, fun hno => (hsame fun k hk => hno _ (by omega)).trans hmemory⟩
      · have hburst : ∀ k, (x (1 + k)).burstI = false := fun k => (hx _).burst
        have hbusy' : Busy op d 0 (s.after x 1) := hbusy
        rcases Nat.lt_or_ge t (lastCycle d) with hlt | hge
        · -- within the access there is no idle state
          rw [after_add] at hstate
          obtain ⟨-, hready, hstart⟩ :=
            hbusy'.within (x := fun l => x (1 + l)) ha hburst hlt
          rcases hstate with hstate | hstate
          · exact absurd hstate hready
          · exact absurd hstate hstart
        · obtain ⟨u, rfl⟩ := Nat.exists_eq_add_of_le hge
          obtain ⟨hlast, -⟩ := hbusy'.last (x := fun l => x (1 + l)) ha hburst
          rw [after_add, after_add] at hstate ⊢
          obtain ⟨hend, hsame⟩ := ih u (by omega) hlast (fun k => hx _) hstate
          refine ⟨hend, fun hno => (hsame fun k hk => hno _ (by omega)).trans ?_⟩
          -- the access is a read, since a write would have been requested in its first cycle
          have hread : op = .cmdRead := by
            rcases ha.op with rfl | rfl
            · have hfirst := hno 0 (by omega)
              rw [hwrite rfl] at hfirst
              cases hfirst
            · rfl
          subst hread
          obtain ⟨address, haddr⟩ := exists_addresses fun l => x (1 + l)
          exact (read_memory ha hburst hbusy' hcounter haddr).1.trans hmemory

/-! ## A request -/

/-- `cpu_stall_o` in a cycle. -/
def Stalled (s : SpiSramSystem) (x : ℕ → SpiSramSystemIn) (k : ℕ) : Prop :=
  (s.after x k).ctrl.cpuStallO (x k).toSramIn = true

/-- The start state has been there before cycle `k`. -/
def Seen (s : SpiSramSystem) (x : ℕ → SpiSramSystemIn) (k : ℕ) : Prop :=
  ∃ j < k, (s.after x j).ctrl.state = .start

/-- A request from cycle 0 on: asserted until the start state has seen it, taken back then, and
with the address, the data and the size held until `cpu_stall_o` falls. -/
structure Requested (s : SpiSramSystem) (x : ℕ → SpiSramSystemIn) (write : Bool)
    (address : BitVec 24) (data : Word) (bmode hmode : Bool) : Prop where
  idle : s.ctrl.state = .ready ∨ s.ctrl.state = .start
  asserted : ∀ k, ¬Seen s x k → (x k).wrI = write ∧ (write = false → (x k).rdI = true)
  lowered : ∀ k, Seen s x k → (∀ j < k, Stalled s x j) → (x k).wrI = false ∧ (x k).rdI = false
  addrI : ∀ k, (∀ j ≤ k, Stalled s x j) → (x k).addrI = address
  dataI : ∀ k, (∀ j ≤ k, Stalled s x j) → (x k).dataI = data
  size : ∀ k, (∀ j ≤ k, Stalled s x j) → (x k).bmodeI = bmode ∧ (x k).hmodeI = hmode

/-- The request is through in cycle `e`: `cpu_stall_o` is low for the first time. -/
def Ends (s : SpiSramSystem) (x : ℕ → SpiSramSystemIn) (e : ℕ) : Prop :=
  (∀ j < e, Stalled s x j) ∧ ¬Stalled s x e

section Request

variable {write : Bool} {address : BitVec 24} {data : Word} {bmode hmode : Bool}

/-- The command of a request. -/
def command (write : Bool) : SramState := if write then .cmdWrite else .cmdRead

theorem command_access (write bmode hmode : Bool) :
    Access (command write) (firstByte bmode hmode) := by
  refine ⟨?_, firstByte_le bmode hmode⟩
  cases write with
  | false => exact .inr rfl
  | true => exact .inl rfl

variable (hfree : s.Free) (hx : ∀ k, Single (x k))
  (h : Requested s x write address data bmode hmode)
include h

theorem Requested.stalled {k : ℕ} (hk : ¬Seen s x k) : Stalled s x k := by
  obtain ⟨hwr, hrd⟩ := h.asserted k hk
  cases write with
  | false => simp [Stalled, SpiSramCtrl.cpuStallO, hrd rfl]
  | true => simp [Stalled, SpiSramCtrl.cpuStallO, hwr]

include hfree

/-- The request comes to the start state. -/
theorem Requested.exists_start : ∃ m, (s.after x m).Free ∧ (s.after x m).ctrl.state = .start ∧
    (s.after x m).chip.memoryBlock = s.chip.memoryBlock ∧ ∀ j ≤ m, ¬Seen s x j := by
  have hzero : ¬Seen s x 0 := fun hseen => by
    obtain ⟨j, hj, -⟩ := hseen
    exact absurd hj (Nat.not_lt_zero j)
  rcases h.idle with hready | hstart
  · obtain ⟨hfree', hstate, -, -, hchip⟩ := hfree.step_ready hready (x 0)
    have hrequest : ((x 0).wrI || (x 0).rdI) = true := by
      obtain ⟨hwr, hrd⟩ := h.asserted 0 hzero
      cases write with
      | false => rw [hrd rfl, Bool.or_true]
      | true => rw [hwr, Bool.true_or]
    rw [if_pos hrequest] at hstate
    refine ⟨1, hfree', hstate, congrArg SpiSram.memoryBlock hchip, fun j hj hseen => ?_⟩
    obtain ⟨i, hi, hstart⟩ := hseen
    obtain rfl : i = 0 := by omega
    exact absurd (hready.symm.trans hstart) (by decide)
  · refine ⟨0, hfree, hstart, rfl, fun j hj => ?_⟩
    obtain rfl : j = 0 := by omega
    exact hzero

include hx

/-- The access of a request, and its end. -/
theorem Requested.served : ∃ m, Busy (command write) (firstByte bmode hmode) 0 (s.after x m) ∧
    (s.after x m).chip.clockCounter = 0 ∧
    (s.after x m).chip.memoryBlock = s.chip.memoryBlock ∧
    Ends s x (m + lastCycle (firstByte bmode hmode) + 1) ∧
    (s.after x (m + lastCycle (firstByte bmode hmode) + 1)).Free ∧
    (s.after x (m + lastCycle (firstByte bmode hmode) + 1)).chip =
      (s.after x (m + lastCycle (firstByte bmode hmode))).chip ∧
    (s.after x (m + lastCycle (firstByte bmode hmode) + 1)).ctrl.dataOReg =
      (s.after x (m + lastCycle (firstByte bmode hmode))).ctrl.dataOReg := by
  have ha := command_access write bmode hmode
  obtain ⟨m, hfree', hstart, hmemory, hseen⟩ := h.exists_start hfree
  have hbefore : ∀ j ≤ m, Stalled s x j := fun j hj => h.stalled (hseen j hj)
  obtain ⟨hcounter, hmemory'⟩ := hfree'.chip_start hstart (hx m)
  have hnext := hfree'.step_start hstart (hx m)
  rw [← after_succ] at hcounter hmemory' hnext
  have hbusy : Busy (command write) (firstByte bmode hmode) 0 (s.after x (m + 1)) := by
    obtain ⟨hwr, hrd⟩ := h.asserted m (hseen m (Nat.le_refl m))
    obtain ⟨hb, hh⟩ := h.size m hbefore
    rw [hwr, hb, hh] at hnext
    cases write with
    | false =>
      rw [if_neg Bool.false_ne_true, if_pos (hrd rfl)] at hnext
      exact hnext
    | true => exact hnext
  have hburst : ∀ k, (x (m + 1 + k)).burstI = false := fun k => (hx _).burst
  obtain ⟨hlast, hready, hstall⟩ := hbusy.last (x := fun l => x (m + 1 + l)) ha hburst
  rw [← after_add] at hlast hready hstall
  -- `cpu_stall_o` is up through the last cycle of the access by itself
  have hthrough : ∀ j < m + 1 + lastCycle (firstByte bmode hmode) + 1, Stalled s x j := by
    intro j hj
    rcases Nat.lt_or_ge m j with hlt | hle
    · have hup : (s.after x j).ctrl.cpuStall = true := by
        rcases Nat.lt_or_eq_of_le (Nat.le_of_lt_succ hj) with hmore | rfl
        · obtain ⟨k, rfl⟩ := Nat.exists_eq_add_of_le (Nat.succ_le_of_lt hlt)
          rw [Nat.succ_eq_add_one, after_add]
          exact (hbusy.within (x := fun l => x (m + 1 + l)) ha hburst
            (Nat.lt_of_add_lt_add_left hmore)).1
        · exact hstall
      rw [Stalled, SpiSramCtrl.cpuStallO, hup]
      rfl
    · exact hbefore j hle
  have hseen' : ∀ k, m < k → Seen s x k := fun k hk => ⟨m, hk, hstart⟩
  obtain ⟨hwr, hrd⟩ := h.lowered (m + 1 + lastCycle (firstByte bmode hmode)) (hseen' _ (by omega))
    fun j hj => hthrough j (by omega)
  obtain ⟨hwr', hrd'⟩ := h.lowered (m + 1 + lastCycle (firstByte bmode hmode) + 1)
    (hseen' _ (by omega)) hthrough
  obtain ⟨hend, -, hdown, hreg, hchip⟩ := hlast.step_ready hready
    (x (m + 1 + lastCycle (firstByte bmode hmode)))
  rw [← after_succ] at hend hdown hreg hchip
  refine ⟨m + 1, hbusy, hcounter, hmemory'.trans hmemory, ⟨hthrough, ?_⟩, hend, hchip, hreg⟩
  rw [Stalled, SpiSramCtrl.cpuStallO, hdown, hwr', hrd']
  decide

end Request

end HfRisc.Rtl.SpiSramSystem

namespace HfRisc.Results

open HfRisc.Rtl HfRisc.Rtl.SpiSramSystem

/-- The first `n` bytes of the data word, high byte first, are at the address, and the rest of
the memory is as it was. -/
def Written (n : ℕ) (address : BitVec 24) (data : Word) (memory memory' : BitVec 24 → BitVec 8) :
    Prop :=
  ∀ a, memory' a = if (a - address).toNat < n then
    data.extractLsb' (8 * (n - 1 - (a - address).toNat)) 8 else memory a

/-- The write request in cycle 0 ends with its bytes in the memory, and a read of the same size
and address, requested later and with no write in between, ends with them on `data_o`. -/
def StoresAndLoads (s : SpiSramSystem) (x : ℕ → SpiSramSystemIn) (address : BitVec 24)
    (data : Word) (bmode hmode : Bool) : Prop :=
  ∃ e, Ends s x e ∧
    Written (accessBytes bmode hmode) address data s.chip.memoryBlock
      (s.after x e).chip.memoryBlock ∧
    ∀ t, e ≤ t → (∀ k, e ≤ k → k < t → (x k).wrI = false) →
      ∀ data', Requested (s.after x t) (fun k => x (t + k)) false address data' bmode hmode →
        ∃ e', Ends (s.after x t) (fun k => x (t + k)) e' ∧
          (s.after x (t + e')).ctrl.dataO.setWidth (8 * accessBytes bmode hmode) =
            data.setWidth (8 * accessBytes bmode hmode) ∧
          (s.after x (t + e')).chip.memoryBlock = (s.after x e).chip.memoryBlock

/-- Words with the same low bytes. -/
theorem setWidth_eq_of_bytes {n : ℕ} (hn : n = 1 ∨ n = 2 ∨ n = 4) {v w : Word}
    (h : ∀ l < n, v.extractLsb' (8 * l) 8 = w.extractLsb' (8 * l) 8) :
    v.setWidth (8 * n) = w.setWidth (8 * n) := by
  have hbyte : ∀ l < n, v.toNat / 2 ^ (8 * l) % 2 ^ 8 = w.toNat / 2 ^ (8 * l) % 2 ^ 8 := by
    intro l hl
    rw [← Lib.toNat_extract, ← Lib.toNat_extract, h l hl]
  refine BitVec.eq_of_toNat_eq ?_
  rw [BitVec.toNat_setWidth, BitVec.toNat_setWidth]
  have hv := v.isLt
  have hw := w.isLt
  rcases hn with rfl | rfl | rfl
  · have h₀ := hbyte 0 (by decide)
    omega
  · have h₀ := hbyte 0 (by decide)
    have h₁ := hbyte 1 (by decide)
    omega
  · have h₀ := hbyte 0 (by decide)
    have h₁ := hbyte 1 (by decide)
    have h₂ := hbyte 2 (by decide)
    have h₃ := hbyte 3 (by decide)
    omega

theorem accessBytes_cases (bmode hmode : Bool) :
    (accessBytes bmode hmode = 1 ∨ accessBytes bmode hmode = 2 ∨ accessBytes bmode hmode = 4) ∧
      firstByte bmode hmode = 4 - accessBytes bmode hmode := by
  cases bmode <;> cases hmode <;> decide

section Requests

variable {s : SpiSramSystem} {x : ℕ → SpiSramSystemIn} {address : BitVec 24} {data : Word}
  {bmode hmode : Bool} (hfree : s.Free) (hx : ∀ k, Single (x k))
include hfree hx

/-- A write request. -/
theorem write_request (h : Requested s x true address data bmode hmode) :
    ∃ e, Ends s x e ∧ (s.after x e).Free ∧ Written (accessBytes bmode hmode) address data
      s.chip.memoryBlock (s.after x e).chip.memoryBlock := by
  obtain ⟨m, hbusy, hcounter, hmemory, hends, hend, hchip, -⟩ := h.served hfree hx
  obtain ⟨hbytes, hfirst⟩ := accessBytes_cases bmode hmode
  have hheld : ∀ k, k < lastCycle (firstByte bmode hmode) →
      (x (m + k)).addrI = address ∧ (x (m + k)).dataI = data := fun k hk =>
    have hstalled : ∀ j ≤ m + k, Stalled s x j := fun j hj => hends.1 j (by omega)
    ⟨h.addrI _ hstalled, h.dataI _ hstalled⟩
  rw [lastCycle] at hheld
  have hwritten := write_memory (x := fun l => x (m + l)) (command_access true bmode hmode)
    (fun k => (hx _).burst) hbusy hcounter
    (fun k hk => by rw [(hheld (38 * (k + 1)) (by omega)).1])
    (fun k hk => (hheld (38 * (4 + k)) (by omega)).2)
  rw [← after_add, hmemory, ← hchip] at hwritten
  refine ⟨_, hends, hend, fun a => ?_⟩
  rw [hwritten, stored, hfirst, show 4 - (4 - accessBytes bmode hmode) = accessBytes bmode hmode
    by omega, show 3 - (4 - accessBytes bmode hmode) = accessBytes bmode hmode - 1 by omega]

/-- A read request. -/
theorem read_request (h : Requested s x false address data bmode hmode) :
    ∃ e, Ends s x e ∧ (s.after x e).chip.memoryBlock = s.chip.memoryBlock ∧
      ∀ l < accessBytes bmode hmode, (s.after x e).ctrl.dataO.extractLsb' (8 * l) 8 =
        s.chip.memoryBlock (address + BitVec.ofNat 24 (accessBytes bmode hmode - 1 - l)) := by
  obtain ⟨m, hbusy, hcounter, hmemory, hends, hend, hchip, hreg⟩ := h.served hfree hx
  obtain ⟨hbytes, hfirst⟩ := accessBytes_cases bmode hmode
  have hheld : ∀ k, k < lastCycle (firstByte bmode hmode) → (x (m + k)).addrI = address :=
    fun k hk => h.addrI _ fun j hj => hends.1 j (by omega)
  rw [lastCycle] at hheld
  obtain ⟨hkept, hread⟩ := read_memory (x := fun l => x (m + l))
    (command_access false bmode hmode) (fun k => (hx _).burst) hbusy hcounter
    (fun k hk => by rw [hheld (38 * (k + 1)) (by omega)])
  rw [← after_add, hmemory, ← hchip] at hkept
  refine ⟨_, hends, hkept, fun l hl => ?_⟩
  have hlane := hread (accessBytes bmode hmode - 1 - l) (by omega)
  rw [← after_add, hmemory, ← hreg] at hlane
  rw [← hlane, show 3 - firstByte bmode hmode - (accessBytes bmode hmode - 1 - l) = l by omega]
  rfl

end Requests

/-- For every memory, address, data word and size, from every idle state that is reached with
`burst_i`, `saddr_i` and `wren_i` low: a write request changes the bytes it addresses and no
other, and a later read of the same size and address with no write in between returns them. The
address counts modulo the size of the memory. -/
theorem spi_sram_store_load (chip : SpiSram) (y x : ℕ → SpiSramSystemIn) (j : ℕ)
    (address : BitVec 24) (data : Word) (bmode hmode : Bool) (hy : ∀ k, Single (y k))
    (hx : ∀ k, Single (x k))
    (hwrite : Requested ((reset chip).after y j) x true address data bmode hmode) :
    StoresAndLoads ((reset chip).after y j) x address data bmode hmode := by
  have hreset : (reset chip).Free := ⟨rfl, rfl, rfl, .inl rfl⟩
  have hfree := (hreset.after hy hwrite.idle).1
  generalize (reset chip).after y j = s at hwrite hfree ⊢
  obtain ⟨e, hends, hend, hwritten⟩ := write_request hfree hx hwrite
  refine ⟨e, hends, hwritten, fun t ht hno data' hread => ?_⟩
  obtain ⟨d, rfl⟩ := Nat.exists_eq_add_of_le ht
  have hidle := hread.idle
  rw [after_add] at hidle
  obtain ⟨hfree', hsame⟩ := hend.after (fun k => hx _) hidle
  have hmemory := hsame fun k hk => hno (e + k) (by omega) (by omega)
  rw [← after_add] at hfree' hmemory
  obtain ⟨e', hends', hkept, hlanes⟩ := read_request hfree' (fun k => hx _) hread
  obtain ⟨hbytes, -⟩ := accessBytes_cases bmode hmode
  rw [← after_add] at hkept hlanes
  refine ⟨e', hends', setWidth_eq_of_bytes hbytes fun l hl => ?_, hkept.trans hmemory⟩
  have hoffset : (address + BitVec.ofNat 24 (accessBytes bmode hmode - 1 - l) - address).toNat =
      accessBytes bmode hmode - 1 - l := by
    rw [BitVec.add_comm, BitVec.add_sub_cancel, BitVec.toNat_ofNat]
    omega
  rw [hlanes l hl, hmemory, hwritten, hoffset, if_pos (by omega),
    show accessBytes bmode hmode - 1 - (accessBytes bmode hmode - 1 - l) = l by omega]

/-- A write of a word to `0x00fffe` and, 400 cycles later, a read, each asserted for two
cycles. -/
def storeThenLoad (k : ℕ) : SpiSramSystemIn where
  addrI := 0x00fffe
  dataI := 0x11223344
  burstI := false
  bmodeI := false
  hmodeI := false
  wrI := decide (k < 2)
  rdI := decide (400 ≤ k ∧ k < 402)
  saddrI := false
  wrenI := false
  undriven := false

/-- A memory of zeros. -/
def blank : SpiSram where
  memoryBlock _ := 0
  dataShifterI := 0
  dataShifterO := 0
  clockCounter := 0
  instRegister := 0
  addrRegister := 0
  soEnable := false

/-- `cpu_stall_o` is low again in front of the read. -/
theorem stall_low : ((reset blank).after storeThenLoad 399).ctrl.cpuStallO
    (storeThenLoad 399).toSramIn = false := by
  decide +kernel

theorem requested_store :
    Requested ((reset blank).after storeThenLoad 0) storeThenLoad true 0x00fffe 0x11223344 false
      false where
  idle := .inl rfl
  asserted k hk := by
    have hlt : k < 2 := Nat.lt_of_not_le fun hle => hk ⟨1, hle, rfl⟩
    exact ⟨decide_eq_true hlt, fun h => by cases h⟩
  lowered k hk hstall := by
    have hge : ¬k < 2 := fun hlt => by
      obtain ⟨j, hj, hstart⟩ := hk
      obtain rfl : j = 0 := by omega
      cases hstart
    have hbefore : ¬(400 ≤ k ∧ k < 402) := fun hread =>
      Bool.false_ne_true (stall_low.symm.trans (hstall 399 (by omega)))
    exact ⟨decide_eq_false hge, decide_eq_false hbefore⟩
  addrI _ _ := rfl
  dataI _ _ := rfl
  size _ _ := ⟨rfl, rfl⟩

theorem requested_load :
    Requested ((reset blank).after storeThenLoad 400) (fun k => storeThenLoad (400 + k)) false
      0x00fffe 0x11223344 false false where
  idle := .inl (by decide +kernel)
  asserted k hk := by
    have hstart : (((reset blank).after storeThenLoad 400).after
        (fun k => storeThenLoad (400 + k)) 1).ctrl.state = .start := by
      decide +kernel
    have hlt : k < 2 := Nat.lt_of_not_le fun hle => hk ⟨1, hle, hstart⟩
    exact ⟨decide_eq_false (by omega), fun _ => decide_eq_true (by omega)⟩
  lowered k hk _ := by
    have hready : ((reset blank).after storeThenLoad 400).ctrl.state = .ready := by
      decide +kernel
    have hge : ¬k < 2 := fun hlt => by
      obtain ⟨j, hj, hstart⟩ := hk
      obtain rfl : j = 0 := by omega
      cases hready.symm.trans hstart
    exact ⟨decide_eq_false (by omega), decide_eq_false (by omega)⟩
  addrI _ _ := rfl
  dataI _ _ := rfl
  size _ _ := ⟨rfl, rfl⟩

/-- The read ends with the word on `data_o`. -/
theorem spi_sram_store_load_word :
    StoresAndLoads (reset blank) storeThenLoad 0x00fffe 0x11223344 false false ∧
      ∃ e, Ends ((reset blank).after storeThenLoad 400) (fun k => storeThenLoad (400 + k)) e ∧
        ((reset blank).after storeThenLoad (400 + e)).ctrl.dataO = 0x11223344 := by
  have hword : StoresAndLoads (reset blank) storeThenLoad 0x00fffe 0x11223344 false false :=
    spi_sram_store_load blank storeThenLoad storeThenLoad 0 0x00fffe 0x11223344 false false
      (fun _ => ⟨rfl, rfl, rfl⟩) (fun _ => ⟨rfl, rfl, rfl⟩) requested_store
  obtain ⟨e, ⟨hstalled, hend⟩, -, hload⟩ := id hword
  have hle : e ≤ 399 := Nat.le_of_not_lt fun hlt =>
    Bool.false_ne_true (stall_low.symm.trans (hstalled 399 hlt))
  have hge : 2 ≤ e := Nat.le_of_not_lt fun hlt => by
    have hlow : ∀ k < 2, ((reset blank).after storeThenLoad k).ctrl.cpuStallO
        (storeThenLoad k).toSramIn = true := by
      decide +kernel
    exact hend (hlow e hlt)
  have hno : ∀ k, e ≤ k → k < 400 → (storeThenLoad k).wrI = false := fun k hk _ =>
    decide_eq_false (by omega)
  obtain ⟨e', hends, hdata, -⟩ := hload 400 (by omega) hno 0x11223344 requested_load
  refine ⟨hword, e', hends, ?_⟩
  rwa [show 8 * accessBytes false false = 32 from rfl, BitVec.setWidth_eq, BitVec.setWidth_eq]
    at hdata

end HfRisc.Results
