import HfRisc.Rtl.SpiSramAccess

/-!
# The data of an access

What the memory and `data_o_reg` hold before each byte of a write and of a read. Byte `m` of an
access is byte `m - 4` of the data, and goes to the address that many places further.
-/

namespace HfRisc.Rtl.SpiSramSystem

open SpiSram (Known)

variable {op : SramState} {d m : ℕ} {s : SpiSramSystem} {x : ℕ → SpiSramSystemIn}
  {memory : BitVec 24 → BitVec 8} {address : BitVec 24} {data : Word}

/-- The address whose bytes are in turn on `addr_i` when they are sent. -/
def Addresses (x : ℕ → SpiSramSystemIn) (address : BitVec 24) : Prop :=
  ∀ k < 3, (x (38 * (k + 1))).addrI.extractLsb' (16 - 8 * k) 8 =
    address.extractLsb' (16 - 8 * k) 8

/-- The byte of the address before byte `m` of an access. -/
theorem Addresses.byte (h : Addresses x address) (hpos : 0 < m) (hlt : m < 4) :
    (x (38 * m)).addrI.extractLsb' (16 - 8 * (m - 1)) 8 =
      address.extractLsb' (16 - 8 * (m - 1)) 8 := by
  obtain ⟨k, rfl⟩ : ∃ k, m = k + 1 := ⟨m - 1, by omega⟩
  exact h k (by omega)

/-- There always is one. -/
theorem exists_addresses (x : ℕ → SpiSramSystemIn) : ∃ address, Addresses x address := by
  refine ⟨(x 38).addrI.extractLsb' 16 8 ++ (x 76).addrI.extractLsb' 8 8 ++
    (x 114).addrI.extractLsb' 0 8, fun k hk => BitVec.eq_of_toNat_eq ?_⟩
  rw [Lib.toNat_extract, Lib.toNat_extract, Lib.toNat_append, Lib.toNat_append, Lib.toNat_extract,
    Lib.toNat_extract, Lib.toNat_extract]
  obtain rfl | rfl | rfl : k = 0 ∨ k = 1 ∨ k = 2 := by omega
  · simp only [Nat.reduceMul, Nat.reduceAdd, Nat.reduceSub]
    omega
  · simp only [Nat.reduceMul, Nat.reduceAdd, Nat.reduceSub]
    omega
  · simp only [Nat.reduceMul, Nat.reduceAdd, Nat.reduceSub]
    omega

/-- The line of a byte has the byte. -/
theorem serial_sent : Lib.serial 8 (sent s x) = s.ctrl.byteOut (x 0).toSramIn :=
  Lib.serial_eq fun _ _ => rfl

/-! ## The address -/

/-- The memory before byte `m`, up to the first of the data. -/
structure Addressing (inst : BitVec 8) (memory : BitVec 24 → BitVec 8) (address : BitVec 24)
    (m : ℕ) (q : SpiSram) : Prop where
  start : m = 0 → q.clockCounter = 0 ∧ q.memoryBlock = memory
  passed : 0 < m → m ≤ 4 → q.Passed m inst memory
  known : 0 < m → m < 4 → Known (m - 1) address q.addrRegister
  drives : m = 4 → inst = SpiSram.read → q.Drives address
  whole : m = 4 → inst ≠ SpiSram.read → q.addrRegister = address

theorem addressing_zero {inst : BitVec 8} {q : SpiSram} (h : q.clockCounter = 0) :
    Addressing inst q.memoryBlock address 0 q where
  start _ := ⟨h, rfl⟩
  passed hpos _ := absurd hpos (Nat.lt_irrefl 0)
  known hpos _ := absurd hpos (Nat.lt_irrefl 0)
  drives hfour _ := absurd hfour (by decide)
  whole hfour _ := absurd hfour (by decide)

/-- The instruction of a command. -/
def instruction (op : SramState) : BitVec 8 :=
  if op = .cmdRead then SpiSram.read else SpiSram.write

theorem Addressing.byte (ha : Access op d) (hbusy : Busy op d m s)
    (h : Addressing (instruction op) memory address m s.chip) (hm : m < 4)
    (haddr : 0 < m → (x 0).addrI.extractLsb' (16 - 8 * (m - 1)) 8 =
      address.extractLsb' (16 - 8 * (m - 1)) 8) :
    Addressing (instruction op) memory address (m + 1) (s.chip.bits (sent s x) 8) := by
  have hinst : instruction op = SpiSram.read ∨ instruction op = SpiSram.write := by
    rw [instruction]
    split
    · exact .inl rfl
    · exact .inr rfl
  rcases Nat.eq_zero_or_pos m with rfl | hpos
  · obtain ⟨hcounter, hmemory⟩ := h.start rfl
    have hbyte : s.ctrl.byteOut (x 0).toSramIn = instruction op := by
      have hstate : s.ctrl.state = op := hbusy.ctrl.state
      rw [SpiSramCtrl.byteOut, hstate]
      rcases ha.op with rfl | rfl
      · rfl
      · rfl
    have hpassed := SpiSram.bits_instruction (b := sent s x) hcounter
    rw [serial_sent, hbyte, hmemory] at hpassed
    exact ⟨fun hzero => absurd hzero (by decide), fun _ _ => hpassed,
      fun _ _ => SpiSram.known_zero _ _, fun hfour => absurd hfour (by decide),
      fun hfour => absurd hfour (by decide)⟩
  · obtain ⟨k, rfl⟩ : ∃ k, m = k + 1 := ⟨m - 1, by omega⟩
    have hline : Lib.serial 8 (sent s x) = address.extractLsb' (16 - 8 * k) 8 := by
      rw [serial_sent, hbusy.ctrl.byteOut_addr hpos hm]
      exact haddr hpos
    obtain ⟨hpassed, hnext⟩ := SpiSram.bits_address (h.passed hpos (by omega)) (by omega) hinst
      hline (h.known hpos hm)
    refine ⟨fun hzero => absurd hzero (by omega), fun _ _ => hpassed, fun _ hlt => ?_,
      fun hfour hread => ?_, fun hfour hwrite => ?_⟩
    · rw [if_neg fun hboth => by omega] at hnext
      exact hnext
    · rw [if_pos ⟨by omega, hread⟩] at hnext
      exact hnext
    · obtain rfl : k = 2 := by omega
      rw [if_neg fun hboth => hwrite hboth.2] at hnext
      exact hnext.eq

/-! ## A write -/

/-- The memory with the first `j` bytes of the data at the address. -/
def stored (memory : BitVec 24 → BitVec 8) (address : BitVec 24) (data : Word) (d j : ℕ)
    (a : BitVec 24) : BitVec 8 :=
  if (a - address).toNat < j then data.extractLsb' (8 * (3 - d - (a - address).toNat)) 8
  else memory a

theorem add_ofNat_succ (address : BitVec 24) (j : ℕ) :
    address + BitVec.ofNat 24 j + 1 = address + BitVec.ofNat 24 (j + 1) :=
  (BitVec.add_assoc _ _ _).trans (congrArg (address + ·) (BitVec.ofNat_add j 1).symm)

theorem stored_zero : stored memory address data d 0 = memory :=
  funext fun _ => if_neg (Nat.not_lt_zero _)

/-- One byte more. -/
theorem stored_succ {j : ℕ} (hj : j < 2 ^ 24) : stored memory address data d (j + 1) =
    fun a => if a = address + BitVec.ofNat 24 j then data.extractLsb' (8 * (3 - d - j)) 8
      else stored memory address data d j a := by
  funext a
  have heq : a = address + BitVec.ofNat 24 j ↔ (a - address).toNat = j := by
    have ha := a.isLt
    have haddress := address.isLt
    rw [← BitVec.toNat_inj]
    simp only [BitVec.toNat_sub, BitVec.toNat_add, BitVec.toNat_ofNat]
    omega
  rw [stored, stored]
  by_cases hlast : (a - address).toNat = j
  · rw [if_pos (by omega), if_pos (heq.mpr hlast), hlast]
  · rw [if_neg (fun h => hlast (heq.mp h))]
    by_cases hlt : (a - address).toNat < j
    · rw [if_pos (by omega), if_pos hlt]
    · rw [if_neg (by omega), if_neg hlt]

/-- The memory before byte `m` of a write. -/
structure Writing (memory : BitVec 24 → BitVec 8) (address : BitVec 24) (data : Word) (d m : ℕ)
    (q : SpiSram) : Prop where
  addressing : m ≤ 4 → Addressing SpiSram.write memory address m q
  passed : 4 ≤ m → q.Passed m SpiSram.write (stored memory address data d (m - 4))
  addrRegister : 4 ≤ m → q.addrRegister = address + BitVec.ofNat 24 (m - 4)

theorem Writing.byte (ha : Access .cmdWrite d) (hbusy : Busy .cmdWrite d m s)
    (h : Writing memory address data d m s.chip) (hm : m < 8 - d)
    (haddr : 0 < m → m < 4 → (x 0).addrI.extractLsb' (16 - 8 * (m - 1)) 8 =
      address.extractLsb' (16 - 8 * (m - 1)) 8) (hdata : 4 ≤ m → (x 0).dataI = data) :
    Writing memory address data d (m + 1) (s.chip.bits (sent s x) 8) := by
  have hd := ha.first
  rcases Nat.lt_or_ge m 4 with hlt | hge
  · have hnext := Addressing.byte ha hbusy (h.addressing (Nat.le_of_lt hlt)) hlt
      fun hpos => haddr hpos hlt
    refine ⟨fun _ => hnext, fun hfour => ?_, fun hfour => ?_⟩
    · rw [show m + 1 - 4 = 0 by omega, stored_zero]
      exact hnext.passed (Nat.succ_pos m) (by omega)
    · rw [show m + 1 - 4 = 0 by omega, hnext.whole (by omega) (by decide)]
      exact (BitVec.add_zero address).symm
  · obtain ⟨hpassed, hnext⟩ := SpiSram.bits_write (b := sent s x) (h.passed hge) hge
    refine ⟨fun hle => absurd hle (by omega), fun _ => ?_, fun _ => ?_⟩
    · have hbyte : Lib.serial 8 (sent s x) = data.extractLsb' (8 * (3 - d - (m - 4))) 8 := by
        have hlane : 3 - d - (m - 4) = 7 - d - m := by omega
        rw [hlane, serial_sent, hbusy.ctrl.byteOut_data ha hge hm, hdata hge]
      rw [show m + 1 - 4 = m - 4 + 1 by omega, stored_succ (by omega), ← hbyte,
        ← h.addrRegister hge]
      exact hpassed
    · have hplace : m + 1 - 4 = m - 4 + 1 := by omega
      rw [hnext, h.addrRegister hge, hplace]
      exact add_ofNat_succ address (m - 4)

/-- The memory that a write leaves behind. -/
theorem write_memory (ha : Access .cmdWrite d) (hburst : ∀ k, (x k).burstI = false)
    (h : Busy .cmdWrite d 0 s) (hcounter : s.chip.clockCounter = 0)
    (haddr : Addresses x address) (hdata : ∀ k < 4 - d, (x (38 * (4 + k))).dataI = data) :
    (s.after x (lastCycle d)).chip.memoryBlock =
      stored s.chip.memoryBlock address data d (4 - d) := by
  have hd := ha.first
  have hzero : Writing s.chip.memoryBlock address data d 0 s.chip :=
    ⟨fun _ => addressing_zero hcounter, fun hfour => absurd hfour (by decide),
      fun hfour => absurd hfour (by decide)⟩
  obtain ⟨-, -, hlast⟩ := h.run ha hburst
    (fun m q _ => Writing s.chip.memoryBlock address data d m q) hzero
    (fun m hm t _ hbusy hwriting => hwriting.byte ha hbusy hm haddr.byte fun hge => by
      obtain ⟨k, rfl⟩ : ∃ k, m = 4 + k := ⟨m - 4, by omega⟩
      exact hdata k (by omega)) (m := 7 - d) (by omega)
  have hpassed := (hlast.passed (by omega)).memoryBlock
  rw [show 7 - d + 1 - 4 = 4 - d by omega] at hpassed
  exact hpassed

/-! ## A read -/

/-- What the master takes while the memory drives a byte. -/
theorem received_eq {a : BitVec 24} (hm : s.chip.clockCounter = 8 * m)
    (hread : s.chip.instRegister = SpiSram.read) (hdrives : s.chip.Drives a) :
    received s x = s.chip.memoryBlock a := by
  rw [← hdrives.dataShifterO]
  exact Lib.serial_eq fun i hi => SpiSram.so_bits hm hi hread hdrives.soEnable _

/-- The memory and `data_o_reg` before byte `m` of a read. -/
structure Reading (memory : BitVec 24 → BitVec 8) (address : BitVec 24) (d m : ℕ)
    (q : SpiSram) (reg : Word) : Prop where
  addressing : m ≤ 4 → Addressing SpiSram.read memory address m q
  passed : 4 ≤ m → q.Passed m SpiSram.read memory
  drives : 4 ≤ m → q.Drives (address + BitVec.ofNat 24 (m - 4))
  taken : ∀ j, 4 + j < m →
    reg.extractLsb' (8 * (3 - d - j)) 8 = memory (address + BitVec.ofNat 24 j)

theorem Reading.byte (ha : Access .cmdRead d) (hbusy : Busy .cmdRead d m s)
    (h : Reading memory address d m s.chip s.ctrl.dataOReg) (hm : m < 8 - d)
    (haddr : 0 < m → m < 4 → (x 0).addrI.extractLsb' (16 - 8 * (m - 1)) 8 =
      address.extractLsb' (16 - 8 * (m - 1)) 8) (i : SramIn) :
    Reading memory address d (m + 1) (s.chip.bits (sent s x) 8)
      (s.ctrl.handed i (received s x)).dataOReg := by
  have hd := ha.first
  rcases Nat.lt_or_ge m 4 with hlt | hge
  · have hnext := Addressing.byte ha hbusy (h.addressing (Nat.le_of_lt hlt)) hlt
      fun hpos => haddr hpos hlt
    refine ⟨fun _ => hnext, fun hfour => hnext.passed (Nat.succ_pos m) (by omega),
      fun hfour => ?_, fun j hj => absurd hj (by omega)⟩
    have haddress : address + BitVec.ofNat 24 0 = address := BitVec.add_zero address
    rw [show m + 1 - 4 = 0 by omega, haddress]
    exact hnext.drives (by omega) rfl
  · -- the chip sends the byte at its address, and goes on to the next one
    have hpassed := h.passed hge
    obtain ⟨hnext, hdrives⟩ := SpiSram.bits_read (b := sent s x) hpassed hge
    have hreceived : received s x = memory (address + BitVec.ofNat 24 (m - 4)) := by
      rw [received_eq hpassed.clockCounter hpassed.instRegister (h.drives hge),
        hpassed.memoryBlock]
    have hstate : s.ctrl.state = .dataPhase := hbusy.ctrl.state.trans (place_data hge hm)
    have hreg : (s.ctrl.handed i (received s x)).dataOReg = s.ctrl.latched (received s x) :=
      if_pos hstate
    have hcount : s.ctrl.dataCounter.extractLsb' 0 2 = BitVec.ofNat 2 (d + (m - 4)) := by
      rw [hbusy.ctrl.dataCounter]
      refine BitVec.eq_of_toNat_eq ?_
      rw [Lib.toNat_extract, BitVec.toNat_ofNat, BitVec.toNat_ofNat]
      omega
    obtain ⟨hlane, hkept⟩ := SpiSramCtrl.latched_lane (r := received s x) (by omega)
      (Nat.le_add_right d _) hcount hbusy.ctrl.bmode hbusy.ctrl.hmode
    rw [hreg]
    refine ⟨fun hle => absurd hle (by omega), fun _ => hnext, fun _ => ?_, fun j hj => ?_⟩
    · rw [(h.drives hge).addrRegister, add_ofNat_succ] at hdrives
      have hplace : m - 4 + 1 = m + 1 - 4 := by omega
      rw [hplace] at hdrives
      exact hdrives
    · rcases Nat.lt_or_eq_of_le (Nat.le_of_lt_succ hj) with hlt | rfl
      · rw [hkept _ (by omega) (by omega)]
        exact h.taken j hlt
      · have hplace : 4 + j - 4 = j := by omega
        have hsum : 3 - d - j = 3 - (d + (4 + j - 4)) := by omega
        rw [hsum, hlane, hreceived, hplace]

/-- A read keeps the memory and brings its bytes. -/
theorem read_memory (ha : Access .cmdRead d) (hburst : ∀ k, (x k).burstI = false)
    (h : Busy .cmdRead d 0 s) (hcounter : s.chip.clockCounter = 0)
    (haddr : Addresses x address) :
    (s.after x (lastCycle d)).chip.memoryBlock = s.chip.memoryBlock ∧
      ∀ j < 4 - d, (s.after x (lastCycle d)).ctrl.dataOReg.extractLsb' (8 * (3 - d - j)) 8 =
        s.chip.memoryBlock (address + BitVec.ofNat 24 j) := by
  have hd := ha.first
  have hzero : Reading s.chip.memoryBlock address d 0 s.chip s.ctrl.dataOReg :=
    ⟨fun _ => addressing_zero hcounter, fun hfour => absurd hfour (by decide),
      fun hfour => absurd hfour (by decide), fun j hj => absurd hj (by omega)⟩
  obtain ⟨-, -, hlast⟩ := h.run ha hburst
    (fun m q reg => Reading s.chip.memoryBlock address d m q reg) hzero
    (fun m hm t _ hbusy hreading => hreading.byte ha hbusy hm haddr.byte _) (m := 7 - d)
    (by omega)
  exact ⟨(hlast.passed (by omega)).memoryBlock, fun j hj => hlast.taken j (by omega)⟩

end HfRisc.Rtl.SpiSramSystem
