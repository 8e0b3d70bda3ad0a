import HfRisc.Arch
import HfRisc.Lib.Bits

/-!
# The SPI SRAM controller (`spi_sram_ctrl.vhd`)

A request is a sequence of bytes for the SPI master: a command, the address and the data. A
byte is handed over while `data_valid` is low and counted when it comes up; `Sending` are the
states in which one is on its way.
-/

namespace HfRisc.Rtl

/-- The states of the controller. -/
inductive SramState
  | start | cmdWren | cmdWrite | cmdRead | addrPhase | dataPhase | ready
deriving DecidableEq, Repr

/-- The registers at `BURST_SIZE = 4`. -/
structure SpiSramCtrl where
  state : SramState
  dataOReg : Word
  cmdCounter : Bool
  addrCounter : BitVec 2
  dataCounter : BitVec 17
  dataIn : BitVec 8
  wren : Bool
  bmode : Bool
  hmode : Bool
  cpuStall : Bool
  spiCsN : Bool
  dataAck : Bool
deriving DecidableEq, Repr

/-- The inputs of the core interface in one cycle. -/
structure SramIn where
  addrI : BitVec 24
  dataI : Word
  burstI : Bool
  bmodeI : Bool
  hmodeI : Bool
  wrI : Bool
  rdI : Bool
  saddrI : Bool
  wrenI : Bool

namespace SpiSramCtrl

/-- The registers after `rst_i`. -/
def reset : SpiSramCtrl where
  state := .ready
  dataOReg := 0
  cmdCounter := false
  addrCounter := 0
  dataCounter := 0
  dataIn := 0
  wren := false
  bmode := false
  hmode := false
  cpuStall := false
  spiCsN := true
  dataAck := false

/-- The byte of the address that `addr_counter` selects. -/
def addrByte (address : BitVec 24) (k : BitVec 2) (old : BitVec 8) : BitVec 8 :=
  if k = 0b00 then address.extractLsb' 16 8
  else if k = 0b01 then address.extractLsb' 8 8
  else if k = 0b10 then address.extractLsb' 0 8
  else old

/-- The byte of the data that the low bits of `data_counter` select. -/
def dataByte (data : Word) (k : BitVec 2) : BitVec 8 :=
  if k = 0b00 then data.extractLsb' 24 8
  else if k = 0b01 then data.extractLsb' 16 8
  else if k = 0b10 then data.extractLsb' 8 8
  else data.extractLsb' 0 8

section Model

variable (s : SpiSramCtrl) (i : SramIn) (dataOut : BitVec 8)

/-- `data_o_reg` with the byte of the master in place. -/
def latched : Word :=
  let k := s.dataCounter.extractLsb' 0 2
  let b₃ := s.dataOReg.extractLsb' 24 8
  let b₂ := s.dataOReg.extractLsb' 16 8
  let b₁ := s.dataOReg.extractLsb' 8 8
  let b₀ := s.dataOReg.extractLsb' 0 8
  if k = 0b00 then dataOut ++ b₂ ++ b₁ ++ b₀
  else if k = 0b01 then b₃ ++ dataOut ++ b₁ ++ b₀
  else if k = 0b10 then b₃ ++ b₂ ++ dataOut ++ b₀
  else if s.bmode then dataOut ++ dataOut ++ dataOut ++ dataOut
  else if s.hmode then b₁ ++ dataOut ++ b₁ ++ dataOut
  else b₃ ++ b₂ ++ b₁ ++ dataOut

/-- `data_ack_o` while a byte of data is on its way. -/
def acked : Bool :=
  let k := s.dataCounter.extractLsb' 0 2
  if k = 0b00 then false else if k = 0b11 then true else s.dataAck

/-- A state that sends the command `c`. -/
def command (c : BitVec 8) (next : SramState) (dataValid : Bool) : SpiSramCtrl :=
  let s' := if dataValid = false then { s with dataIn := c, wren := true }
    else { s with cmdCounter := true, wren := false }
  { s' with state := if s.cmdCounter then next else s.state }

/-- One clock edge. -/
def step (dataValid : Bool) : SpiSramCtrl :=
  match s.state with
  | .start =>
    let half := i.hmodeI && !i.bmodeI && !i.burstI
    let byte := !i.hmodeI && i.bmodeI && !i.burstI
    { s with
      state :=
        if i.wrI then if i.wrenI then .cmdWren else .cmdWrite
        else if i.rdI then .cmdRead
        else .start
      cmdCounter := false
      addrCounter := if i.saddrI = false then 0b00 else 0b01
      dataOReg := 0
      dataCounter := if half then 2 else if byte then 3 else 0
      bmode := byte
      hmode := half
      wren := false
      spiCsN := false
      dataAck := false
      cpuStall := true }
  | .cmdWren => s.command 0x06 .ready dataValid
  | .cmdWrite => s.command 0x02 .addrPhase dataValid
  | .cmdRead => s.command 0x03 .addrPhase dataValid
  | .addrPhase =>
    -- the byte is assigned anew in every cycle until the master reports it
    let s' := if dataValid = false then
        { s with dataIn := addrByte i.addrI s.addrCounter s.dataIn, wren := true }
      else
        { s with addrCounter := if s.wren then s.addrCounter + 1 else s.addrCounter
                 wren := false }
    { s' with state := if s.addrCounter.toNat < 3 then .addrPhase else .dataPhase }
  | .dataPhase =>
    let s' := if dataValid = false then
        { s with dataIn := dataByte i.dataI (s.dataCounter.extractLsb' 0 2)
                 dataOReg := s.latched dataOut
                 dataAck := s.acked
                 wren := true }
      else
        -- `wren` is high in the first cycle of `data_valid` only
        { s with dataCounter := if s.wren then s.dataCounter + 1 else s.dataCounter
                 wren := false }
    { s' with
      state :=
        if i.burstI then if s.dataCounter.toNat < 4 * 4 then .dataPhase else .ready
        else if s.dataCounter.toNat < 4 then .dataPhase else .ready }
  | .ready =>
    { s with
      state := if i.wrI || i.rdI then .start else .ready
      spiCsN := true
      cpuStall := false }

/-- `cpu_stall_o`. -/
def cpuStallO : Bool := s.cpuStall || i.wrI || i.rdI

/-- `data_o`. -/
def dataO : Word := s.dataOReg

end Model

/-! ## A byte -/

variable {s : SpiSramCtrl} {i j : SramIn} {r t : BitVec 8}

/-- A byte that is not the last of its phase yet. -/
def Sending (s : SpiSramCtrl) : Prop :=
  match s.state with
  | .cmdWrite | .cmdRead => s.cmdCounter = false
  | .addrPhase => s.addrCounter.toNat < 3
  | .dataPhase => s.dataCounter.toNat < 4
  | _ => False

/-- The byte that is handed over. -/
def byteOut (s : SpiSramCtrl) (i : SramIn) : BitVec 8 :=
  match s.state with
  | .cmdWrite => 0x02
  | .cmdRead => 0x03
  | .addrPhase => addrByte i.addrI s.addrCounter s.dataIn
  | _ => dataByte i.dataI (s.dataCounter.extractLsb' 0 2)

/-- The registers with that byte handed over and `r` taken. -/
def handed (s : SpiSramCtrl) (i : SramIn) (r : BitVec 8) : SpiSramCtrl :=
  { s with
    dataIn := s.byteOut i
    wren := true
    dataOReg := if s.state = .dataPhase then s.latched r else s.dataOReg
    dataAck := if s.state = .dataPhase then s.acked else s.dataAck }

/-- The registers behind the byte. -/
def passed (s : SpiSramCtrl) : SpiSramCtrl :=
  match s.state with
  | .addrPhase =>
    { s with
      wren := false
      addrCounter := s.addrCounter + 1
      state := if (s.addrCounter + 1).toNat < 3 then .addrPhase else .dataPhase }
  | .dataPhase =>
    { s with
      wren := false
      dataCounter := s.dataCounter + 1
      state := if (s.dataCounter + 1).toNat < 4 then .dataPhase else .ready }
  | _ => { s with wren := false, cmdCounter := true, state := .addrPhase }

/-- The four places of a sending state. -/
theorem Sending.cases (h : s.Sending) :
    (s.state = .cmdWrite ∨ s.state = .cmdRead) ∧ s.cmdCounter = false ∨
      s.state = .addrPhase ∧ s.addrCounter.toNat < 3 ∨
      s.state = .dataPhase ∧ s.dataCounter.toNat < 4 := by
  unfold Sending at h
  split at h
  case h_1 hstate => exact .inl ⟨.inl hstate, h⟩
  case h_2 hstate => exact .inl ⟨.inr hstate, h⟩
  case h_3 hstate => exact .inr (.inl ⟨hstate, h⟩)
  case h_4 hstate => exact .inr (.inr ⟨hstate, h⟩)
  case h_5 => exact h.elim

theorem latched_handed (hstate : s.state = .dataPhase) :
    (s.handed i r).latched t = s.latched t := by
  simp only [latched, handed, hstate, if_true]
  split_ifs <;> simp only [Lib.byte0, Lib.byte1, Lib.byte2, Lib.byte3]

theorem acked_handed (hstate : s.state = .dataPhase) : (s.handed i r).acked = s.acked := by
  simp only [acked, handed, hstate, if_true]
  split_ifs <;> rfl

/-- With the last byte, a byte or a half word is repeated over the word. -/
theorem latched_three {d : ℕ} (hcount : s.dataCounter.extractLsb' 0 2 = BitVec.ofNat 2 3)
    (hbmode : s.bmode = decide (d = 3)) (hhmode : s.hmode = decide (d = 2)) :
    ∃ b₃ b₂, s.latched r = b₃ ++ b₂ ++
        (if d = 3 then r else s.dataOReg.extractLsb' 8 8) ++ r ∧
      (d < 2 → b₃ = s.dataOReg.extractLsb' 24 8 ∧ b₂ = s.dataOReg.extractLsb' 16 8) := by
  have hlatched : s.latched r = if d = 3 then r ++ r ++ r ++ r
      else if d = 2 then s.dataOReg.extractLsb' 8 8 ++ r ++ s.dataOReg.extractLsb' 8 8 ++ r
      else s.dataOReg.extractLsb' 24 8 ++ s.dataOReg.extractLsb' 16 8 ++
        s.dataOReg.extractLsb' 8 8 ++ r := by
    simp [latched, hcount, hbmode, hhmode]
  rw [hlatched]
  by_cases hbyte : d = 3
  · rw [if_pos hbyte, if_pos hbyte]
    exact ⟨r, r, rfl, fun hlt => absurd hlt (by omega)⟩
  · rw [if_neg hbyte, if_neg hbyte]
    by_cases hhalf : d = 2
    · rw [if_pos hhalf]
      exact ⟨_, _, rfl, fun hlt => absurd hlt (by omega)⟩
    · rw [if_neg hhalf]
      exact ⟨_, _, rfl, fun _ => ⟨rfl, rfl⟩⟩

/-- Byte `k` of the word is taken, and the bytes taken before it stay. The first byte of the
word is byte `d`. -/
theorem latched_lane {d k : ℕ} (hk : k < 4) (hd : d ≤ k)
    (hcount : s.dataCounter.extractLsb' 0 2 = BitVec.ofNat 2 k)
    (hbmode : s.bmode = decide (d = 3)) (hhmode : s.hmode = decide (d = 2)) :
    (s.latched r).extractLsb' (8 * (3 - k)) 8 = r ∧ ∀ l, 3 - k < l → l ≤ 3 - d →
      (s.latched r).extractLsb' (8 * l) 8 = s.dataOReg.extractLsb' (8 * l) 8 := by
  -- byte `k` is in lane `3 - k`, and the bytes before it are in the lanes above
  obtain rfl | rfl | rfl | rfl : k = 0 ∨ k = 1 ∨ k = 2 ∨ k = 3 := by omega
  · have hlatched : s.latched r = r ++ s.dataOReg.extractLsb' 16 8 ++
        s.dataOReg.extractLsb' 8 8 ++ s.dataOReg.extractLsb' 0 8 := by simp [latched, hcount]
    rw [hlatched]
    exact ⟨Lib.byte3 .., fun l hlo hhi => absurd hlo (by omega)⟩
  · have hlatched : s.latched r = s.dataOReg.extractLsb' 24 8 ++ r ++
        s.dataOReg.extractLsb' 8 8 ++ s.dataOReg.extractLsb' 0 8 := by simp [latched, hcount]
    rw [hlatched]
    refine ⟨Lib.byte2 .., fun l hlo hhi => ?_⟩
    obtain rfl : l = 3 := by omega
    exact Lib.byte3 ..
  · have hlatched : s.latched r = s.dataOReg.extractLsb' 24 8 ++
        s.dataOReg.extractLsb' 16 8 ++ r ++ s.dataOReg.extractLsb' 0 8 := by simp [latched, hcount]
    rw [hlatched]
    refine ⟨Lib.byte1 .., fun l hlo hhi => ?_⟩
    obtain rfl | rfl : l = 2 ∨ l = 3 := by omega
    · exact Lib.byte2 ..
    · exact Lib.byte3 ..
  · obtain ⟨b₃, b₂, hlatched, hword⟩ := latched_three hcount hbmode hhmode
    rw [hlatched]
    refine ⟨Lib.byte0 .., fun l hlo hhi => ?_⟩
    rw [if_neg (by omega)]
    obtain rfl | ⟨hlt, rfl⟩ | ⟨hlt, rfl⟩ : l = 1 ∨ d < 2 ∧ l = 2 ∨ d < 2 ∧ l = 3 := by omega
    · exact Lib.byte1 ..
    · rw [(hword hlt).2]
      exact Lib.byte2 ..
    · rw [(hword hlt).1]
      exact Lib.byte3 ..

theorem Sending.handed (h : s.Sending) : (s.handed i r).Sending := h

theorem Sending.step (h : s.Sending) (hburst : i.burstI = false) :
    s.step i r false = s.handed i r := by
  rcases h.cases with ⟨hstate | hstate, hcount⟩ | ⟨hstate, hcount⟩ | ⟨hstate, hcount⟩
  · simp [SpiSramCtrl.step, command, SpiSramCtrl.handed, byteOut, hstate, hcount]
  · simp [SpiSramCtrl.step, command, SpiSramCtrl.handed, byteOut, hstate, hcount]
  · simp [SpiSramCtrl.step, SpiSramCtrl.handed, byteOut, hstate, hcount]
  · simp [SpiSramCtrl.step, SpiSramCtrl.handed, byteOut, hstate, hcount, hburst]

/-- It makes no difference how long the byte has been handed over. -/
theorem Sending.handed_handed (h : s.Sending) :
    (s.handed i r).handed j t = s.handed j t := by
  rcases h.cases with ⟨hstate | hstate, hcount⟩ | ⟨hstate, hcount⟩ | ⟨hstate, hcount⟩
  · simp [SpiSramCtrl.handed, byteOut, hstate]
  · simp [SpiSramCtrl.handed, byteOut, hstate]
  · have hsel : s.addrCounter = 0 ∨ s.addrCounter = 1 ∨ s.addrCounter = 2 := by
      revert hcount
      generalize s.addrCounter = k
      revert k
      decide
    rcases hsel with hsel | hsel | hsel
    · simp [SpiSramCtrl.handed, byteOut, hstate, addrByte, hsel]
    · simp [SpiSramCtrl.handed, byteOut, hstate, addrByte, hsel]
    · simp [SpiSramCtrl.handed, byteOut, hstate, addrByte, hsel]
  · have hdata : (s.handed i r).state = .dataPhase := hstate
    have hbyte : (s.handed i r).byteOut j = s.byteOut j := by
      rw [byteOut, byteOut, hdata, hstate]
      rfl
    rw [SpiSramCtrl.handed, hbyte, latched_handed hstate, acked_handed hstate, if_pos hdata,
      if_pos hdata, SpiSramCtrl.handed, if_pos hstate, if_pos hstate]
    simp only [SpiSramCtrl.handed, if_pos hstate]

/-- The byte is counted in the first cycle of `data_valid`. -/
theorem Sending.step_valid (h : s.Sending) (hwren : s.wren = true) (hburst : i.burstI = false)
    (hburst' : j.burstI = false) :
    (s.step i r true).wren = false ∧ (s.step i r true).state = s.state ∧
      (s.step i r true).spiCsN = s.spiCsN ∧ (s.step i r true).cpuStall = s.cpuStall ∧
      (s.step i r true).step j t true = s.passed := by
  rcases h.cases with ⟨hstate | hstate, hcount⟩ | ⟨hstate, hcount⟩ | ⟨hstate, hcount⟩
  · simp [SpiSramCtrl.step, command, passed, hstate, hcount]
  · simp [SpiSramCtrl.step, command, passed, hstate, hcount]
  · simp [SpiSramCtrl.step, passed, hstate, hcount, hwren]
  · simp [SpiSramCtrl.step, passed, hstate, hcount, hwren, hburst, hburst']

/-- Before the next byte `data_valid` is high for one more cycle. -/
theorem Sending.step_pause (h : s.Sending) (hwren : s.wren = false) (hburst : i.burstI = false)
    (hstate : s.state = .addrPhase ∨ s.state = .dataPhase) : s.step i r true = s := by
  rcases hstate with hstate | hstate
  · have hcount : s.addrCounter.toNat < 3 := by
      rw [Sending, hstate] at h
      exact h
    rw [SpiSramCtrl.step, hstate]
    simp [hcount, hwren, ← hstate]
    rw [← hwren]
  · have hcount : s.dataCounter.toNat < 4 := by
      rw [Sending, hstate] at h
      exact h
    rw [SpiSramCtrl.step, hstate]
    simp [hcount, hwren, hburst, ← hstate]
    rw [← hwren]

end SpiSramCtrl

end HfRisc.Rtl
