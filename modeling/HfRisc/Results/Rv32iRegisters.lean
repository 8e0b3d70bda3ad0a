import HfRisc.Isa.Refine
import HfRisc.Pipe.CoreI
import HfRisc.Results.Programs

/-!
# Reading the interrupt registers back

A word that the core stores passes through the byte order of its store lanes and of the write
process of the controller, and comes back through the read process and the load lanes. For the
registers of one byte the four cancel. `IRQ_VECTOR` is written in the byte order of the core
and read as it stands, so a load gets it with its bytes reversed.
-/

namespace HfRisc.Rtl

/-- The registers of the controller that software reads and writes. -/
inductive IntRegister
  | irqVector | irqMask | irqStatus | extioOut
deriving DecidableEq, Repr

namespace IntRegister

/-- `INT_CONTROL_BASE` with the offset of the register. -/
def address : IntRegister → Word
  | .irqVector => 0xf0000000
  | .irqMask => 0xf0000020
  | .irqStatus => 0xf0000030
  | .extioOut => 0xf0000090

/-- `address_cpu(7 downto 4)` of the register. -/
def select (reg : IntRegister) : BitVec 4 := reg.address.extractLsb' 4 4

/-- The bits of a word that the register has. -/
def implemented (v : Word) : IntRegister → Word
  | .irqVector => v
  | .irqMask | .irqStatus | .extioOut => v &&& 0xff

/-- What the register holds. -/
def contents (r : IntControl) : IntRegister → Word
  | .irqVector => r.irqVector
  | .irqMask => r.irqMask.setWidth 32
  | .irqStatus => r.irqStatus.setWidth 32
  | .extioOut => r.extioOut.setWidth 32

end IntRegister

namespace IntControl

open IntRegister

variable {r : IntControl} {b : CpuBus} {reg : IntRegister} {stall : Bool} {w : Word}
  {x : BitVec 8}

/-- An interrupt or an exception is entered. -/
def Entered (b : CpuBus) : Prop := b.irqAck = true ∨ b.exception = true

instance (b : CpuBus) : Decidable (Entered b) := inferInstanceAs (Decidable (_ ∨ _))

theorem statusStep_of_not_entered (h : ¬ Entered b) :
    r.statusStep b = if writes b 0b0011 then b.dataOut.extractLsb' 24 8 else r.irqStatus := by
  rw [Entered, ← Bool.or_eq_true] at h
  rw [statusStep]
  exact if_neg h

/-- A register stays until it is written. -/
theorem contents_step (hentered : ¬ Entered b) (hwrites : writes b reg.select = false) :
    reg.contents (r.step stall b w x) = reg.contents r := by
  cases reg with
  | irqVector => exact if_neg (Bool.eq_false_iff.mp hwrites)
  | irqMask =>
    exact congrArg (BitVec.setWidth 32) (if_neg (Bool.eq_false_iff.mp hwrites))
  | irqStatus =>
    refine congrArg (BitVec.setWidth 32) ((statusStep_of_not_entered hentered).trans ?_)
    exact if_neg (Bool.eq_false_iff.mp hwrites)
  | extioOut =>
    exact congrArg (BitVec.setWidth 32) (if_neg (Bool.eq_false_iff.mp hwrites))

/-- The byte that the write process takes from the bus. -/
theorem setWidth_lane (v : Word) :
    ((swapBytes v).extractLsb' 24 8).setWidth 32 = v &&& 0xff := by
  have hmask : v.toNat &&& (0xff : Word).toNat = v.toNat % 2 ^ 8 :=
    Nat.and_two_pow_sub_one_eq_mod v.toNat 8
  refine BitVec.eq_of_toNat_eq ?_
  rw [BitVec.toNat_and, hmask, swapBytes, Lib.byte3, BitVec.toNat_setWidth, Lib.toNat_extract]
  omega

theorem contents_write {v : Word} (hdata : b.dataOut = swapBytes v) (hentered : ¬ Entered b)
    (hwrites : writes b reg.select = true) :
    reg.contents (r.step stall b w x) = reg.implemented v := by
  cases reg with
  | irqVector =>
    refine (if_pos hwrites).trans ?_
    rw [hdata]
    exact swapBytes_swapBytes v
  | irqMask =>
    rw [implemented, ← setWidth_lane, ← hdata]
    exact congrArg (BitVec.setWidth 32) (if_pos hwrites)
  | irqStatus =>
    rw [implemented, ← setWidth_lane, ← hdata]
    refine congrArg (BitVec.setWidth 32) ((statusStep_of_not_entered hentered).trans ?_)
    exact if_pos hwrites
  | extioOut =>
    rw [implemented, ← setWidth_lane, ← hdata]
    exact congrArg (BitVec.setWidth 32) (if_pos hwrites)

/-- What a load makes of the word that the read process latches. -/
theorem swapBytes_readReg (hselect : b.periphReg = reg.select) :
    swapBytes (r.readReg b w x) =
      if reg = .irqVector then swapBytes (reg.contents r) else reg.contents r := by
  have hlow : ∀ y : BitVec 8, swapBytes (y ++ 0x000000#24) = y.setWidth 32 := by
    intro y
    have hlt := y.isLt
    refine BitVec.eq_of_toNat_eq ?_
    simp only [swapBytes, Lib.toNat_append, Lib.toNat_extract, BitVec.toNat_setWidth,
      BitVec.toNat_ofNat]
    omega
  rw [readReg, hselect]
  cases reg with
  | irqVector => rfl
  | irqMask => exact hlow r.irqMask
  | irqStatus => exact hlow r.irqStatus
  | extioOut => exact hlow r.extioOut

end IntControl

end HfRisc.Rtl

namespace HfRisc.Results

open HfRisc.Rtl HfRisc.Lib HfRisc.Pipe

variable {n : ℕ} {s t : System n Unit} {i : Input} {x : ℕ → Input} {w a : Word}
  {reg : IntRegister} {rd rs1 rs2 : BitVec 5} {imm : Word}

/-- The state after the first `k` cycles of the rv32i core. -/
def coreAfter (s : System n Unit) (x : ℕ → Input) (k : ℕ) : System n Unit :=
  (System.rawMachine rv32i).run s (Mealy.inputs x k)

/-- The last memory cycle of a load or store, in which no stall repeats it. -/
structure MemoryCycle (s : System n Unit) (i : Input) (inst : Isa.Instr) : Prop where
  decoded : ∃ w, s.core.ex = decode rv32i.control w ∧ Isa.decode false w = some inst
  port : s.core.mwait = true
  ready : i.stall = false

/-! ## The two instructions -/

/-- The address that an access drives. -/
theorem address_eq (hport : s.core.mwait = true) (hop : s.core.ex.ctl.aluOp = 0b0100)
    (hsrc1 : s.core.ex.ctl.aluSrc1 = false) (hrs1 : s.core.ex.rs1 = rs1)
    (hsrc2 : s.core.ex.aluSrc2 s.core.regs s.core.pc = imm) :
    (s.bus rv32i).address = readReg s.core.regs rs1 + imm := by
  show s.core.address rv32i = _
  rw [Datapath.address_eq_result hport, Datapath.aluOut, hop, hsrc2, Execute.aluSrc1,
    if_pos hsrc1, hrs1]
  exact implementsRv32i.add _ _

theorem accesses_of_address (hport : s.core.mwait = true)
    (haddress : (s.bus rv32i).address = reg.address) :
    (s.bus rv32i).periphAccess = true ∧ (s.bus rv32i).periphReg = reg.select := by
  rw [CpuBus.periphAccess, CpuBus.periphReg, haddress]
  refine ⟨?_, rfl⟩
  show (reg.address.extractLsb' 27 5 == 0b11110 && s.core.mwait) = true
  rw [hport]
  cases reg <;> rfl

/-- What a `sw` drives in its memory cycle. -/
theorem sw_bus (h : MemoryCycle s i (.store .sw rs1 rs2 imm)) :
    (s.bus rv32i).address = readReg s.core.regs rs1 + imm ∧
      (s.bus rv32i).dataOut = swapBytes (readReg s.core.regs rs2) ∧
      (s.bus rv32i).periphAccessWe = true := by
  obtain ⟨w, hex, hdec⟩ := h.decoded
  have hfields : Isa.opcode w = 0b0100011 ∧ Isa.decodeStore (Isa.funct3 w) = some .sw ∧
      rs1 = Isa.rs1 w ∧ rs2 = Isa.rs2 w ∧ imm = Isa.immS w := by
    rcases Isa.decode_cases hdec with ⟨-, h⟩ | ⟨-, h⟩ | ⟨-, h⟩ | ⟨-, h⟩ | ⟨-, _, -, h⟩ |
      ⟨-, _, -, h⟩ | ⟨ho, o, hf, h⟩ | ⟨-, _, -, h⟩ | ⟨-, _, -, h⟩ | ⟨-, -, _, -, h⟩ | ⟨-, h⟩ <;>
      cases h
    exact ⟨ho, hf, rfl, rfl, rfl⟩
  obtain ⟨ho, hf, rfl, rfl, rfl⟩ := hfields
  have hctl : s.core.ex.ctl = .store 0b11 := by
    rw [hex]
    show controlRv32i (Isa.opcode w) (Isa.funct3 w) (Isa.funct7 w) = _
    rw [ho]
    exact Isa.row_store hf _
  refine ⟨address_eq h.port (by rw [hctl]; rfl) (by rw [hctl]; rfl) (by rw [hex]; rfl) ?_, ?_, ?_⟩
  · rw [Execute.aluSrc2, hctl, ← Isa.immS_eq rv32i.control, hex]
    rfl
  · show s.core.ex.dataOut _ = _
    rw [Execute.dataOut, hctl, hex]
    rfl
  · show (s.core.ex.dataW _ != 0) = true
    rw [Execute.dataW, hctl]
    rfl

/-- What a memory cycle leaves in the datapath. -/
theorem port_step {d : Datapath Unit} {y : DatapathIn} (hport : d.mwait = true)
    (hready : y.stall = false) :
    (d.step rv32i y).ex = d.ex ∧ (d.step rv32i y).regs = d.regs ∧
      (d.step rv32i y).mwait = false ∧ (d.step rv32i y).memToRegDly = d.ex.memToReg ∧
      (d.step rv32i y).stallReg = false := by
  have hsig : d.stallSig rv32i y.stall = false := by rw [hready]; rfl
  have hacc : d.ex.dataAccess = true := by
    rw [Datapath.mwait, Bool.and_eq_true] at hport
    exact hport.1
  have hwreg : d.wreg rv32i = false := by
    rw [Datapath.wreg, hport]
    simp [Datapath.aluWait, rv32i]
  have hex : (d.step rv32i y).ex = d.ex :=
    if_neg fun h => Bool.false_ne_true (h.2.symm.trans hport)
  have hdly : (d.step rv32i y).dataAccessDly = true := (if_pos hsig).trans hacc
  refine ⟨hex, if_neg (Bool.eq_false_iff.mp hwreg), ?_, if_pos hsig, hsig⟩
  rw [Datapath.mwait, hdly, Bool.not_true, Bool.and_false]

/-- The cycle behind the memory cycle of a load writes its register. -/
theorem load_step {d : Datapath Unit} {y : DatapathIn} (hmwait : d.mwait = false)
    (hload : d.memToRegDly = true) (hreg : d.stallReg = false) :
    (d.step rv32i y).regs = writeReg d.regs d.ex.rd (d.writeData rv32i y.dataIn) := by
  have hwreg : d.wreg rv32i = true := by
    rw [Datapath.wreg, hload, hmwait, hreg, Bool.or_true]
    rfl
  exact if_pos hwreg

/-- A `lw` from the controller writes the word that the read process latches in its memory
cycle, with its bytes reversed, in the cycle behind it. -/
theorem lw_regs (h : MemoryCycle s i (.load .lw rd rs1 imm)) (i' : Input)
    (haddress : readReg s.core.regs rs1 + imm = reg.address) :
    ((s.step rv32i i).step rv32i i').core.regs = writeReg s.core.regs rd
      (swapBytes (s.intc.readReg (s.bus rv32i) (s.dataRead rv32i i) i.extioIn)) ∧
      (s.bus rv32i).periphReg = reg.select := by
  obtain ⟨w, hex, hdec⟩ := h.decoded
  have hfields : Isa.opcode w = 0b0000011 ∧ Isa.decodeLoad (Isa.funct3 w) = some .lw ∧
      rd = Isa.rd w ∧ rs1 = Isa.rs1 w ∧ imm = Isa.immI w := by
    rcases Isa.decode_cases hdec with ⟨-, h⟩ | ⟨-, h⟩ | ⟨-, h⟩ | ⟨-, h⟩ | ⟨-, _, -, h⟩ |
      ⟨ho, o, hf, h⟩ | ⟨-, _, -, h⟩ | ⟨-, _, -, h⟩ | ⟨-, _, -, h⟩ | ⟨-, -, _, -, h⟩ | ⟨-, h⟩ <;>
      cases h
    exact ⟨ho, hf, rfl, rfl, rfl⟩
  obtain ⟨ho, hf, rfl, rfl, rfl⟩ := hfields
  have hctl : s.core.ex.ctl = .load 0b11 true := by
    rw [hex]
    show controlRv32i (Isa.opcode w) (Isa.funct3 w) (Isa.funct7 w) = _
    rw [ho]
    exact Isa.row_load hf _
  have haddress' : (s.bus rv32i).address = reg.address := by
    rw [← haddress]
    refine address_eq h.port (by rw [hctl]; rfl) (by rw [hctl]; rfl) (by rw [hex]; rfl) ?_
    rw [Execute.aluSrc2, hctl, ← Isa.immI_eq rv32i.control, hex]
    rfl
  obtain ⟨haccess, hselect⟩ := accesses_of_address h.port haddress'
  refine ⟨?_, hselect⟩
  have hstep : (s.step rv32i i).core = s.core.step rv32i (s.datapathIn rv32i i) := rfl
  obtain ⟨hex', hregs, hmwait, hload, hreg⟩ :=
    port_step (y := s.datapathIn rv32i i) h.port h.ready
  rw [← hstep] at hex' hregs hmwait hload hreg
  have hload' : (s.step rv32i i).core.memToRegDly = true := by
    have hmem : s.core.ex.memToReg = (s.core.ex.ctl.memRead != 0b00) := by
      rw [hex]
      rfl
    rw [hload, hmem, hctl]
    rfl
  have hdata : ((s.step rv32i i).datapathIn rv32i i').dataIn =
      s.intc.readReg (s.bus rv32i) (s.dataRead rv32i i) i.extioIn := by
    have hdly : (s.step rv32i i).intc.periphAccessDly = true :=
      (if_pos h.ready).trans haccess
    have hlatch : (s.step rv32i i).intc.periphData =
        s.intc.readReg (s.bus rv32i) (s.dataRead rv32i i) i.extioIn := if_pos haccess
    show (s.step rv32i i).intc.dataInCpu _ = _
    rw [IntControl.dataInCpu, hdly, hlatch, if_neg (by decide)]
  have hrd : s.core.ex.rd = Isa.rd w := by
    rw [hex]
    rfl
  show ((s.step rv32i i).core.step rv32i _).regs = _
  rw [load_step hmwait hload' hreg, hregs, hdata, Datapath.writeData, hex', hrd,
    Execute.writeData, hctl]
  show writeReg _ _ (s.core.ex.dataInS _ _) = _
  rw [Execute.dataInS, hctl]
  rfl

/-! ## A store and a load -/

/-- What the register holds `k` cycles behind a `sw` to it, while no interrupt or exception is
entered and the register is not written again. -/
theorem contents_after {k : ℕ} (hstore : MemoryCycle s (x 0) (.store .sw rs1 rs2 imm))
    (haddress : readReg s.core.regs rs1 + imm = reg.address)
    (hentered : ∀ j ≤ k, ¬ IntControl.Entered ((coreAfter s x j).bus rv32i))
    (hother : ∀ j ≤ k, 0 < j →
      IntControl.writes ((coreAfter s x j).bus rv32i) reg.select = false) :
    reg.contents (coreAfter s x (k + 1)).intc = reg.implemented (readReg s.core.regs rs2) := by
  induction k with
  | zero =>
    obtain ⟨hbus, hdata, hwe⟩ := sw_bus hstore
    obtain ⟨haccess, hselect⟩ := accesses_of_address hstore.port (hbus.trans haddress)
    have hwrites : IntControl.writes (s.bus rv32i) reg.select = true := by
      rw [IntControl.writes, haccess, hwe, hselect, BEq.rfl]
      rfl
    exact IntControl.contents_write hdata (hentered 0 (Nat.le_refl 0)) hwrites
  | succ k ih =>
    have hprev := ih (fun j hj => hentered j (Nat.le_succ_of_le hj))
      fun j hj hpos => hother j (Nat.le_succ_of_le hj) hpos
    have hstep : coreAfter s x (k + 1 + 1) = (coreAfter s x (k + 1)).step rv32i (x (k + 1)) :=
      Mealy.run_inputs_succ _ s x (k + 1)
    rw [← hprev, hstep]
    exact IntControl.contents_step (hentered (k + 1) (Nat.le_refl _))
      (hother (k + 1) (Nat.le_refl _) (Nat.succ_pos k))

/-- For every value and register, whatever runs between a `sw` to the register and a `lw` from
it that does not write the register or enter an interrupt, the load leaves the implemented bits
of the value in its destination if and only if that is not `x0`, or they are zero, and the
register is not `IRQ_VECTOR`, or the bytes of the value read the same in both orders. -/
theorem rv32i_register_readback {rd rs1' : BitVec 5} {imm' : Word} {m : ℕ}
    (hstore : MemoryCycle s (x 0) (.store .sw rs1 rs2 imm))
    (haddress : readReg s.core.regs rs1 + imm = reg.address) (hm : 0 < m)
    (hload : MemoryCycle (coreAfter s x m) (x m) (.load .lw rd rs1' imm'))
    (haddress' : readReg (coreAfter s x m).core.regs rs1' + imm' = reg.address)
    (hentered : ∀ j < m, ¬ IntControl.Entered ((coreAfter s x j).bus rv32i))
    (hother : ∀ j < m, 0 < j →
      IntControl.writes ((coreAfter s x j).bus rv32i) reg.select = false) :
    readReg (coreAfter s x (m + 2)).core.regs rd = reg.implemented (readReg s.core.regs rs2) ↔
      if rd = 0 then reg.implemented (readReg s.core.regs rs2) = 0
      else reg = .irqVector →
        swapBytes (readReg s.core.regs rs2) = readReg s.core.regs rs2 := by
  obtain ⟨k, rfl⟩ := Nat.exists_eq_add_of_lt hm
  rw [Nat.zero_add] at hload haddress' hentered hother ⊢
  have hcontents := contents_after (k := k) hstore haddress
    (fun j hj => hentered j (Nat.lt_succ_of_le hj))
    fun j hj hpos => hother j (Nat.lt_succ_of_le hj) hpos
  have hstep : coreAfter s x (k + 1 + 2) =
      ((coreAfter s x (k + 1)).step rv32i (x (k + 1))).step rv32i (x (k + 1 + 1)) := by
    rw [coreAfter, Mealy.run_inputs_succ, Mealy.run_inputs_succ]
    rfl
  obtain ⟨hregs, hselect⟩ := lw_regs hload (x (k + 1 + 1)) haddress'
  rw [hstep, hregs, IntControl.swapBytes_readReg hselect, hcontents]
  by_cases hrd : rd = 0
  · rw [if_pos hrd, hrd]
    exact eq_comm
  · have hread : ∀ v : Word,
        readReg (writeReg (coreAfter s x (k + 1)).core.regs rd v) rd = v := fun v => by
      rw [readReg, if_pos hrd, writeReg, if_pos ⟨hrd, rfl⟩]
    rw [if_neg hrd, hread]
    by_cases hreg : reg = .irqVector
    · rw [if_pos hreg, hreg]
      exact ⟨fun h _ => h, fun h => h rfl⟩
    · rw [if_neg hreg]
      exact ⟨fun _ h => absurd h hreg, fun _ => rfl⟩

/-! ## A value and its reversal -/

/-- `lui x1, 0xf0000; lui x2, 0x12345; addi x2, x2, 0x678`, a store of `x2` and a load to `x3`:
the state in which the store is in its memory cycle. -/
def storingWord (store load : Word) : System 14 Unit :=
  coreAfter
    (boot rv32i () idleIntc (program [0xf00000b7, 0x12345137, 0x67810113, store, load]))
    (fun _ => calmInput) 5

/-- `sw x2, 32(x1)` and `lw x3, 32(x1)`, to and from `IRQ_MASK`. -/
def storingMask : System 14 Unit := storingWord 0x0220a023 0x0200a183

/-- `sw x2, 0(x1)` and `lw x3, 0(x1)`, to and from `IRQ_VECTOR`. -/
def storingVector : System 14 Unit := storingWord 0x0020a023 0x0000a183

/-- The mask comes back. -/
theorem rv32i_register_readback_mask :
    readReg (coreAfter storingMask (fun _ => calmInput) (3 + 2)).core.regs 3 =
        IntRegister.irqMask.implemented (readReg storingMask.core.regs 2) ↔
      if (3 : BitVec 5) = 0 then
        IntRegister.irqMask.implemented (readReg storingMask.core.regs 2) = 0
      else IntRegister.irqMask = .irqVector →
        swapBytes (readReg storingMask.core.regs 2) = readReg storingMask.core.regs 2 :=
  @rv32i_register_readback 14 storingMask (fun _ => calmInput) .irqMask 1 2 32 3 1 32 3
    ⟨⟨0x0220a023, by decide +kernel, by decide⟩, by decide +kernel, by decide⟩ (by decide +kernel)
    (by decide) ⟨⟨0x0200a183, by decide +kernel, by decide⟩, by decide +kernel, by decide⟩
    (by decide +kernel) (by decide +kernel) (by decide +kernel)

/-- The vector `0x12345678` comes back as `0x78563412`. -/
theorem rv32i_register_reversed :
    ¬ ∀ (s : System 14 Unit) (x : ℕ → Input) (reg : IntRegister) (rd rs1 rs2 rs1' : BitVec 5)
      (imm imm' : Word) (m : ℕ), MemoryCycle s (x 0) (.store .sw rs1 rs2 imm) →
      readReg s.core.regs rs1 + imm = reg.address → 0 < m →
      MemoryCycle (coreAfter s x m) (x m) (.load .lw rd rs1' imm') →
      readReg (coreAfter s x m).core.regs rs1' + imm' = reg.address →
      (∀ j < m, ¬ IntControl.Entered ((coreAfter s x j).bus rv32i)) →
      (∀ j < m, 0 < j →
        IntControl.writes ((coreAfter s x j).bus rv32i) reg.select = false) → rd ≠ 0 →
      readReg (coreAfter s x (m + 2)).core.regs rd =
        reg.implemented (readReg s.core.regs rs2) := by
  intro h
  have hread := h storingVector (fun _ => calmInput) .irqVector 3 1 2 1 0 0 3
    ⟨⟨0x0020a023, by decide +kernel, by decide⟩, by decide +kernel, by decide⟩ (by decide +kernel)
    (by decide) ⟨⟨0x0000a183, by decide +kernel, by decide⟩, by decide +kernel, by decide⟩
    (by decide +kernel) (by decide +kernel) (by decide +kernel) (by decide)
  exact absurd hread (by decide +kernel)

end HfRisc.Results
