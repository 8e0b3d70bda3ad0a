import HfRisc.Lib.Bits
import HfRisc.Lib.Serial
import Mathlib.Data.Nat.Init

/-!
# A serial memory (`23LC1024.v`)

The memory of the simulation model in its SPI and sequential modes, as an ideal part: 24 bits
of address, and the pins without delays. A bit is taken on a rising edge of the clock and the
next one is driven on a falling edge. Between the edges on which a byte is complete only the
shift registers and the counter change.
-/

namespace HfRisc.Rtl

/-- The registers and the array. -/
structure SpiSram where
  memoryBlock : BitVec 24 → BitVec 8
  dataShifterI : BitVec 8
  dataShifterO : BitVec 8
  clockCounter : ℕ
  instRegister : BitVec 8
  addrRegister : BitVec 24
  soEnable : Bool

/-- The input pins. -/
structure SpiSramPins where
  csN : Bool
  sck : Bool
  si : Bool

namespace SpiSram

section Model

variable (s : SpiSram)

/-- `READ`. -/
def read : BitVec 8 := 0b00000011

/-- `WRITE`. -/
def write : BitVec 8 := 0b00000010

/-- `{DataShifterI[06:00], SI_SIO0}`. -/
def taken (si : Bool) : BitVec 8 := s.dataShifterI.shiftConcat si

/-- The array is written on this edge. -/
def Writes : Prop := s.instRegister = write ∧ 39 ≤ s.clockCounter ∧ s.clockCounter % 8 = 7

instance : Decidable s.Writes := inferInstanceAs (Decidable (_ ∧ _ ∧ _))

/-- `always @(posedge SCK)`. -/
def posedgeSck (csN si : Bool) : SpiSram :=
  { s with
    dataShifterI := if csN then s.dataShifterI else s.taken si
    clockCounter := if csN then s.clockCounter else s.clockCounter + 1
    instRegister := if s.clockCounter = 7 then s.taken si else s.instRegister
    addrRegister :=
      if s.instRegister = read ∨ s.instRegister = write then
        if s.clockCounter = 15 then s.taken si ++ s.addrRegister.extractLsb' 0 16
        else if s.clockCounter = 23 then
          s.addrRegister.extractLsb' 16 8 ++ s.taken si ++ s.addrRegister.extractLsb' 0 8
        else if s.clockCounter = 31 then s.addrRegister.extractLsb' 8 16 ++ s.taken si
        else if s.Writes then s.addrRegister + 1
        else s.addrRegister
      else s.addrRegister
    memoryBlock := fun a =>
      if s.Writes ∧ a = s.addrRegister then s.taken si else s.memoryBlock a }

/-- `always @(negedge SCK)`. -/
def negedgeSck : SpiSram :=
  if s.instRegister = read then
    if 32 ≤ s.clockCounter ∧ s.clockCounter % 8 = 0 then
      { s with
        dataShifterO := s.memoryBlock s.addrRegister
        soEnable := true
        addrRegister := s.addrRegister + 1 }
    else { s with dataShifterO := s.dataShifterO <<< 1 }
  else s

/-- `always @(negedge CS_N)`. -/
def negedgeCsN : SpiSram := { s with clockCounter := 0, soEnable := false }

/-- The pins change from `p` to `q`. -/
def change (p q : SpiSramPins) : SpiSram :=
  let s := if p.csN && !q.csN then s.negedgeCsN else s
  let s := if !p.sck && q.sck then s.posedgeSck q.csN q.si else s
  if p.sck && !q.sck then s.negedgeSck else s

/-- `SO_SIO1`, with `z` on the line while it is not driven. -/
def so (csN z : Bool) : Bool := if s.soEnable && !csN then s.dataShifterO.msb else z

/-- The first `i` bits of a line, a clock pulse each. -/
def bits (b : ℕ → Bool) : ℕ → SpiSram
  | 0 => s
  | i + 1 => ((bits b i).posedgeSck false (b i)).negedgeSck

end Model

section Selected

variable {s : SpiSram} {p q : SpiSramPins} (hp : p.csN = false)
include hp

theorem change_same (hsck : p.sck = q.sck) : s.change p q = s := by
  simp [change, hp, hsck]

theorem change_rise (hp' : p.sck = false) (hq : q.csN = false) (hq' : q.sck = true) :
    s.change p q = s.posedgeSck false q.si := by
  simp [change, hp, hp', hq, hq']

theorem change_fall (hp' : p.sck = true) (hq' : q.sck = false) :
    s.change p q = s.negedgeSck := by
  simp [change, hp, hp', hq']

end Selected

/-! ## A byte -/

variable {s : SpiSram} {b : ℕ → Bool} {m i : ℕ}

/-- The registers within a byte. -/
def within (s : SpiSram) (b : ℕ → Bool) (i : ℕ) : SpiSram :=
  { s with
    dataShifterI := Lib.shifted s.dataShifterI b i
    clockCounter := s.clockCounter + i
    dataShifterO := if s.instRegister = read then s.dataShifterO <<< i else s.dataShifterO }

theorem posedgeSck_within (h : s.clockCounter % 8 ≠ 7) (si : Bool) :
    s.posedgeSck false si =
      { s with dataShifterI := s.taken si, clockCounter := s.clockCounter + 1 } := by
  have hwrites : ¬s.Writes := fun hw => h hw.2.2
  have h₇ : s.clockCounter ≠ 7 := by omega
  have h₁₅ : s.clockCounter ≠ 15 := by omega
  have h₂₃ : s.clockCounter ≠ 23 := by omega
  have h₃₁ : s.clockCounter ≠ 31 := by omega
  simp only [posedgeSck, hwrites, h₇, h₁₅, h₂₃, h₃₁, false_and, if_false, ite_self,
    Bool.false_eq_true]

theorem negedgeSck_within (h : s.clockCounter % 8 ≠ 0) :
    s.negedgeSck = { s with
      dataShifterO := if s.instRegister = read then s.dataShifterO <<< 1 else s.dataShifterO } := by
  have hlast : ¬(32 ≤ s.clockCounter ∧ s.clockCounter % 8 = 0) := fun hlast => h hlast.2
  rw [negedgeSck, if_neg hlast]
  split
  · rfl
  · rfl

/-- No register but those of `within` changes before the last bit. -/
theorem bits_within (hm : s.clockCounter = 8 * m) (hi : i < 8) : s.bits b i = s.within b i := by
  induction i with
  | zero =>
    rw [bits, within, Lib.shifted_zero, BitVec.shiftLeft_zero, ite_self]
    rfl
  | succ i ih =>
    have hrise : (s.within b i).clockCounter % 8 ≠ 7 := by
      show (s.clockCounter + i) % 8 ≠ 7
      omega
    have hfall : (s.clockCounter + i + 1) % 8 ≠ 0 := by omega
    rw [bits, ih (Nat.lt_of_succ_lt hi), posedgeSck_within hrise, negedgeSck_within hfall, within,
      within]
    dsimp only
    -- the output register moves on in a read only
    by_cases hread : s.instRegister = read
    · simp only [if_pos hread, BitVec.shiftLeft_add]
      rfl
    · simp only [if_neg hread]
      rfl

/-- What the memory drives while bit `i` of a byte is sampled. -/
theorem so_bits (hm : s.clockCounter = 8 * m) (hi : i < 8) (hread : s.instRegister = read)
    (henable : s.soEnable = true) (z : Bool) :
    ((s.bits b i).posedgeSck false (b i)).so false z = s.dataShifterO.getMsbD i := by
  rw [bits_within hm hi, so, within, posedgeSck]
  dsimp only
  rw [if_pos hread, henable]
  show (s.dataShifterO <<< i).msb = _
  rw [BitVec.msb_eq_getMsbD_zero, BitVec.getMsbD_shiftLeft, Nat.zero_add]

/-- The registers behind the last rising edge of a byte. -/
theorem bits_last (hm : s.clockCounter = 8 * m) :
    s.bits b 8 = ((s.within b 7).posedgeSck false (b 7)).negedgeSck := by
  rw [bits, bits_within hm (by decide)]

theorem taken_last : (s.within b 7).taken (b 7) = Lib.serial 8 b := Lib.shifted_all

/-- Byte `m` of a selection is complete. -/
structure Passed (s : SpiSram) (m : ℕ) (inst : BitVec 8) (memory : BitVec 24 → BitVec 8) :
    Prop where
  clockCounter : s.clockCounter = 8 * m
  instRegister : s.instRegister = inst
  memoryBlock : s.memoryBlock = memory

/-- The byte driven next, behind the address. -/
structure Drives (s : SpiSram) (address : BitVec 24) : Prop where
  dataShifterO : s.dataShifterO = s.memoryBlock address
  addrRegister : s.addrRegister = address + 1
  soEnable : s.soEnable = true

/-- The first byte is the instruction. -/
theorem bits_instruction (h : s.clockCounter = 0) :
    (s.bits b 8).Passed 1 (Lib.serial 8 b) s.memoryBlock := by
  have hcounter : (s.within b 7).clockCounter = 7 := by
    show s.clockCounter + 7 = 7
    omega
  have hwrites : ¬(s.within b 7).Writes := fun hw => by
    have := hw.2.1
    omega
  rw [bits_last (m := 0) h, posedgeSck, taken_last, hcounter]
  simp only [hwrites, false_and, if_false, if_true, Bool.false_eq_true, negedgeSck]
  split
  · exact ⟨rfl, rfl, rfl⟩
  · exact ⟨rfl, rfl, rfl⟩

/-- The first `k` bytes of an address, the high ones, are in place. -/
def Known (k : ℕ) (address a : BitVec 24) : Prop :=
  a.toNat / 2 ^ (24 - 8 * k) = address.toNat / 2 ^ (24 - 8 * k)

theorem known_zero (address a : BitVec 24) : Known 0 address a := by
  rw [Known, Nat.div_eq_of_lt a.isLt, Nat.div_eq_of_lt address.isLt]

theorem Known.eq {address a : BitVec 24} (h : Known 3 address a) : a = address := by
  rw [Known, Nat.pow_zero, Nat.div_one, Nat.div_one] at h
  exact BitVec.eq_of_toNat_eq h

theorem known_one (address a : BitVec 24) :
    Known 1 address (address.extractLsb' 16 8 ++ a.extractLsb' 0 16) := by
  have hlt := address.isLt
  rw [Known, Lib.toNat_append, Lib.toNat_extract, Lib.toNat_extract]
  omega

theorem Known.two {address a : BitVec 24} (h : Known 1 address a) :
    Known 2 address (a.extractLsb' 16 8 ++ address.extractLsb' 8 8 ++ a.extractLsb' 0 8) := by
  have hlt := address.isLt
  rw [Known] at h
  rw [Known, Lib.toNat_append, Lib.toNat_append, Lib.toNat_extract, Lib.toNat_extract,
    Lib.toNat_extract]
  omega

theorem Known.three {address a : BitVec 24} (h : Known 2 address a) :
    Known 3 address (a.extractLsb' 8 16 ++ address.extractLsb' 0 8) := by
  have hlt := address.isLt
  rw [Known] at h
  rw [Known, Lib.toNat_append, Lib.toNat_extract, Lib.toNat_extract]
  omega

section Address

variable {k : ℕ} {inst : BitVec 8} {memory : BitVec 24 → BitVec 8} {address : BitVec 24}

/-- The last rising edge of byte `k` of the address. -/
theorem posedgeSck_address (h : s.Passed (k + 1) inst memory) (hk : k < 3)
    (hinst : inst = read ∨ inst = write)
    (hline : Lib.serial 8 b = address.extractLsb' (16 - 8 * k) 8)
    (hknown : Known k address s.addrRegister) :
    ((s.within b 7).posedgeSck false (b 7)).Passed (k + 2) inst memory ∧
      Known (k + 1) address ((s.within b 7).posedgeSck false (b 7)).addrRegister := by
  have hcounter : (s.within b 7).clockCounter = 8 * k + 15 := by
    show s.clockCounter + 7 = _
    rw [h.clockCounter]
    omega
  have hregister : (s.within b 7).instRegister = inst := h.instRegister
  have hwrites : ¬(s.within b 7).Writes := fun hw => by
    have := hw.2.1
    omega
  have haddr : (s.within b 7).addrRegister = s.addrRegister := rfl
  have hseven : 8 * k + 15 ≠ 7 := by omega
  rw [posedgeSck, taken_last, hcounter, hregister, hline, haddr]
  simp only [hwrites, hinst, hseven, false_and, if_false, if_true, Bool.false_eq_true]
  refine ⟨⟨?_, rfl, h.memoryBlock⟩, ?_⟩
  · show 8 * k + 15 + 1 = _
    omega
  · obtain rfl | rfl | rfl : k = 0 ∨ k = 1 ∨ k = 2 := by omega
    · exact known_one address s.addrRegister
    · exact hknown.two
    · exact hknown.three

/-- Byte `k` of the address. -/
theorem bits_address (h : s.Passed (k + 1) inst memory) (hk : k < 3)
    (hinst : inst = read ∨ inst = write)
    (hline : Lib.serial 8 b = address.extractLsb' (16 - 8 * k) 8)
    (hknown : Known k address s.addrRegister) :
    (s.bits b 8).Passed (k + 2) inst memory ∧
      if k = 2 ∧ inst = read then (s.bits b 8).Drives address
      else Known (k + 1) address (s.bits b 8).addrRegister := by
  obtain ⟨hpassed, hnext⟩ := posedgeSck_address h hk hinst hline hknown
  rw [bits_last h.clockCounter]
  generalize (s.within b 7).posedgeSck false (b 7) = r at hpassed hnext
  rw [negedgeSck, hpassed.instRegister, hpassed.clockCounter]
  by_cases hread : inst = read
  · -- behind the address of a read the memory drives its first byte at once
    rw [if_pos hread]
    by_cases hlast : k = 2
    · subst hlast
      rw [if_pos (by decide), if_pos ⟨rfl, hread⟩]
      have hall : r.addrRegister = address := hnext.eq
      exact ⟨⟨rfl, rfl, hpassed.memoryBlock⟩,
        congrArg r.memoryBlock hall, congrArg (· + 1) hall, rfl⟩
    · rw [if_neg (by omega), if_neg fun hboth => hlast hboth.1]
      exact ⟨⟨rfl, rfl, hpassed.memoryBlock⟩, hnext⟩
  · rw [if_neg hread, if_neg fun hboth => hread hboth.2]
    exact ⟨hpassed, hnext⟩

/-- The last rising edge of a byte of data. -/
theorem posedgeSck_data (h : s.Passed m inst memory) (hm : 4 ≤ m) :
    ((s.within b 7).posedgeSck false (b 7)).Passed (m + 1) inst (fun a =>
        if inst = write ∧ a = s.addrRegister then Lib.serial 8 b else memory a) ∧
      ((s.within b 7).posedgeSck false (b 7)).addrRegister =
        if inst = write then s.addrRegister + 1 else s.addrRegister := by
  have hcounter : (s.within b 7).clockCounter = 8 * m + 7 := by
    show s.clockCounter + 7 = _
    rw [h.clockCounter]
  have hregister : (s.within b 7).instRegister = inst := h.instRegister
  have hwrites : (s.within b 7).Writes ↔ inst = write := by
    rw [Writes, hregister, hcounter]
    exact ⟨fun hw => hw.1, fun hw => ⟨hw, by omega, by omega⟩⟩
  -- the address has been complete since edge 31
  have h₇ : 8 * m + 7 ≠ 7 := by omega
  have h₁₅ : 8 * m + 7 ≠ 15 := by omega
  have h₂₃ : 8 * m + 7 ≠ 23 := by omega
  have h₃₁ : 8 * m + 7 ≠ 31 := by omega
  rw [posedgeSck, taken_last, hcounter, hregister]
  simp only [hwrites, h₇, h₁₅, h₂₃, h₃₁, if_false]
  refine ⟨⟨?_, rfl, ?_⟩, ?_⟩
  · show 8 * m + 7 + 1 = _
    omega
  · rw [← h.memoryBlock]
    rfl
  · show (if inst = read ∨ inst = write then
      if inst = write then s.addrRegister + 1 else s.addrRegister else s.addrRegister) = _
    by_cases hw : inst = write
    · rw [if_pos (.inr hw)]
    · rw [if_neg hw, ite_self]

/-- A byte of data to the array. -/
theorem bits_write (h : s.Passed m write memory) (hm : 4 ≤ m) :
    (s.bits b 8).Passed (m + 1) write
        (fun a => if a = s.addrRegister then Lib.serial 8 b else memory a) ∧
      (s.bits b 8).addrRegister = s.addrRegister + 1 := by
  obtain ⟨hpassed, haddr⟩ := posedgeSck_data (b := b) h hm
  have hother : write ≠ read := by decide
  simp only [true_and] at hpassed
  rw [bits_last h.clockCounter, negedgeSck, hpassed.instRegister, if_neg hother]
  exact ⟨hpassed, haddr.trans (if_pos rfl)⟩

/-- A byte of data from the array: the next one is driven. -/
theorem bits_read (h : s.Passed m read memory) (hm : 4 ≤ m) :
    (s.bits b 8).Passed (m + 1) read memory ∧ (s.bits b 8).Drives s.addrRegister := by
  obtain ⟨hpassed, haddr⟩ := posedgeSck_data (b := b) h hm
  have hother : read ≠ write := by decide
  simp only [hother, false_and, if_false] at hpassed haddr
  rw [bits_last h.clockCounter]
  generalize (s.within b 7).posedgeSck false (b 7) = r at hpassed haddr
  have hlast : 32 ≤ r.clockCounter ∧ r.clockCounter % 8 = 0 := by
    rw [hpassed.clockCounter]
    omega
  rw [negedgeSck, if_pos hpassed.instRegister, if_pos hlast]
  exact ⟨⟨hpassed.clockCounter, hpassed.instRegister, hpassed.memoryBlock⟩,
    congrArg r.memoryBlock haddr, congrArg (· + 1) haddr, rfl⟩

end Address

end SpiSram

end HfRisc.Rtl
