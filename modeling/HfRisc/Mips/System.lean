import HfRisc.Lib.Mealy
import HfRisc.Mips.Datapath
import HfRisc.Rtl.System

/-!
# The MIPS processor on its test bench (`cpu.vhd`, `int_control.vhd`, `hf-risc_tb.vhd`, `ram.vhd`)

The interrupt controller is that of the RISC-V cores with its registers in the order of the core,
and the RAM is the same. The core never raises an exception. The boot ROM at `0x0…` is left out.
-/

namespace HfRisc.Mips

open HfRisc.Rtl (IntControl CpuBus DatapathIn Input periphSel wordIndex mergeLanes writeRam
  commitMem)

/-! ## The interrupt controller -/

namespace IntControl

variable (r : IntControl) (b : CpuBus)

/-- What a read of the controller's registers latches. -/
def readReg (dataReadMem : Word) (extioIn : BitVec 8) : Word :=
  if b.periphReg = 0b0000 then r.irqVector
  else if b.periphReg = 0b0001 then 0x000000#24 ++ extioIn
  else if b.periphReg = 0b0010 then 0x000000#24 ++ r.irqMask
  else if b.periphReg = 0b0011 then 0x000000#24 ++ r.irqStatus
  else if b.periphReg = 0b0100 then r.irqEpc
  else if b.periphReg = 0b1000 then 0x000000#24 ++ extioIn
  else if b.periphReg = 0b1001 then 0x000000#24 ++ r.extioOut
  else dataReadMem

/-- `irq_status_reg` at the clock edge. -/
def statusStep : BitVec 8 :=
  let written :=
    if Rtl.IntControl.writes b 0b0011 then b.dataOut.extractLsb' 0 8 else r.irqStatus
  if b.irqAck || b.exception then written &&& 0xfe else written

/-- One clock edge of the controller. -/
def step (stall : Bool) (dataReadMem : Word) (extioIn : BitVec 8) : IntControl where
  periphData := if b.periphAccess then readReg r b dataReadMem extioIn else r.periphData
  irqVector := if Rtl.IntControl.writes b 0b0000 then b.dataOut else r.irqVector
  irqMask := if Rtl.IntControl.writes b 0b0010 then b.dataOut.extractLsb' 0 8 else r.irqMask
  irqStatus := statusStep r b
  extioOut := if Rtl.IntControl.writes b 0b1001 then b.dataOut.extractLsb' 0 8 else r.extioOut
  irqEpc := if (r.irq = true ∧ b.irqAck = false) ∨ b.exception = true then b.address else r.irqEpc
  irq := if stall = false then (r.pulseStep b.irqAck extioIn).1 else r.irq
  pulseState := if stall = false then r.pulseNextState else r.pulseState
  pulseNextState :=
    if stall = false then (r.pulseStep b.irqAck extioIn).2 else r.pulseNextState
  periphAccessDly := if stall = false then b.periphAccess else r.periphAccessDly

end IntControl

/-! ## The system -/

/-- The registers of the whole system. -/
structure System (n : ℕ) where
  core : Datapath
  intc : IntControl
  ram : BitVec n → Word
  dataReadRam : Word
  periphDly : Bool

namespace System

variable {n : ℕ} (s : System n) (i : Input)

/-- What the core drives in this cycle. -/
def bus : CpuBus where
  irqAck := s.core.irqAckDly
  exception := false
  address := s.core.address
  dataOut := s.core.ex.dataOut (Rtl.readReg s.core.regs s.core.ex.readReg2)
  dataW := s.core.ex.dataW (s.core.ex.aluOut s.core.regs).result
  dataAccess := s.core.mwait

/-- `data_read`: the word the memory side returns. -/
def dataRead : Word :=
  if periphSel s.core.address || s.periphDly then i.dataReadPeriph else s.dataReadRam

/-- `data_in_cpu`: the word the core reads. -/
def dataIn : Word := s.intc.dataInCpu (s.dataRead i)

/-- The inputs of the datapath. -/
def datapathIn : DatapathIn where
  stall := i.stall
  irqVector := s.intc.irqVector
  irq := s.intc.irq
  dataIn := s.dataIn i

/-- The RAM is enabled. -/
def ramEnable : Bool := ramSel s.core.address && !i.stall

/-- One clock edge of the system. -/
def step : System n where
  core := s.core.step (s.datapathIn i)
  intc := IntControl.step s.intc s.bus i.stall (s.dataRead i) i.extioIn
  ram :=
    if s.ramEnable i then writeRam s.ram s.core.address s.bus.dataWeMem s.bus.dataOut else s.ram
  dataReadRam :=
    if s.ramEnable i then
      mergeLanes s.bus.dataWeMem s.dataReadRam (s.ram (wordIndex n s.core.address))
    else s.dataReadRam
  periphDly := periphSel s.core.address

/-- The register file write of this cycle. -/
def commitsReg : List Commit :=
  if s.core.wreg then commitReg s.core.ex.writeReg (s.core.writeData (s.dataIn i)) else []

/-- The store of this cycle: the `mwait` cycle, once the stall is released. -/
def commitsMem : List Commit :=
  if s.core.mwait = true ∧ i.stall = false then
    commitMem s.core.address s.bus.dataW s.bus.dataOut
  else []

/-- Everything this cycle commits. -/
def commits : List Commit := s.commitsReg i ++ s.commitsMem i

/-- The system as a machine that emits what it commits. -/
def machine : Lib.Mealy (System n) Input Commit where
  step := System.step
  out := System.commits

/-! ## The controller at rest -/

/-- No request is raised or can be. -/
structure Resting (r : IntControl) : Prop where
  irq : r.irq = false
  master : r.irqStatus.getLsbD 0 = false
  state : r.pulseState ≠ .int
  next : r.pulseNextState ≠ .int
  access : r.periphAccessDly = false

/-- A cycle without an access to the controller leaves it at rest. -/
theorem Resting.step {r : IntControl} {b : CpuBus} {stall : Bool} {w : Word} {x : BitVec 8}
    (h : Resting r) (hb : b.periphAccess = false) : Resting (IntControl.step r b stall w x) := by
  have hwrites : ∀ k, Rtl.IntControl.writes b k = false := by
    intro k
    rw [Rtl.IntControl.writes, hb, Bool.false_and, Bool.false_and]
  have hpulse : (r.pulseStep b.irqAck x).1 = false ∧ (r.pulseStep b.irqAck x).2 ≠ .int := by
    unfold Rtl.IntControl.pulseStep
    cases hstate : r.pulseState with
    | int => exact absurd hstate h.state
    | idle =>
      simp only [h.master, h.irq, Bool.false_eq_true, and_false, if_false]
      exact ⟨trivial, h.next⟩
    | req =>
      cases b.irqAck with
      | true => exact ⟨rfl, nofun⟩
      | false => exact ⟨h.irq, h.next⟩
    | ackn => exact ⟨h.irq, nofun⟩
    | done =>
      simp only [h.master, h.irq, Bool.false_eq_true, if_false]
      exact ⟨trivial, h.next⟩
  refine ⟨?_, ?_, ?_, ?_, ?_⟩
  · show (if stall = false then _ else r.irq) = false
    split
    · exact hpulse.1
    · exact h.irq
  · show (IntControl.statusStep r b).getLsbD 0 = false
    rw [IntControl.statusStep, hwrites, if_neg Bool.false_ne_true]
    split
    · rw [BitVec.getLsbD_and, h.master, Bool.false_and]
    · exact h.master
  · show (if stall = false then _ else r.pulseState) ≠ _
    split
    · exact h.next
    · exact h.state
  · show (if stall = false then _ else r.pulseNextState) ≠ _
    split
    · exact hpulse.2
    · exact h.next
  · show (if stall = false then _ else r.periphAccessDly) = false
    split
    · exact hb
    · exact h.access

end System

end HfRisc.Mips
