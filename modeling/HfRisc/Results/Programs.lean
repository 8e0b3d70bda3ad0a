import HfRisc.Pipe.Refinement

/-!
# Small programs and their surroundings

What the concrete runs next to the main results start from.
-/

namespace HfRisc.Results

open HfRisc.Rtl HfRisc.Pipe

variable {n : ℕ}

/-- The start of the RAM. -/
def base : Word := 0x40000000

/-- A program at the start of the RAM, with NOPs behind. -/
def program (ws : List Word) : Seq 14 where
  regs := fun _ => 0
  pc := base
  ram := fun k => swapBytes (ws.getD k.toNat nop)

/-- An input without stall and with all lines low. -/
def calmInput : Input where
  stall := false
  extioIn := 0
  dataReadPeriph := 0

/-- An input with the stall asserted. -/
def stallInput : Input := { calmInput with stall := true }

/-- The controller with its vector set and line 0 enabled. -/
def armedIntc : IntControl := { idleIntc with irqVector := base + 64, irqMask := 1, irqStatus := 1 }

/-- An input with line 0 high. -/
def tickInput : Input := { calmInput with extioIn := 1 }

theorem undisturbed_calmInput {α : Type} (s : System n α) : Undisturbed s calmInput where
  stall := rfl
  lines := .inl (by simp [IntControl.interrupt, calmInput])

/-! ## The first instruction -/

section Boot

variable {α : Type} {c : Core α} {L : Contract c} {σ : Seq n} {alu : α} {intc : IntControl}
  {i j : Input}

/-- A resting controller with interrupts disabled makes no request. -/
theorem irqAck_boot_step (hrest : intc.Resting) (hmaster : intc.irqStatus.getLsbD 0 = false) :
    ((boot c alu intc σ).step c i).irqAck c = false := by
  have hrest' : ((boot c alu intc σ).step c i).intc.Resting := hrest.step (.inr hmaster)
  rw [System.irqAck, hrest'.irq, Datapath.irqAck_of_irq_false]

/-- Two cycles after the start, the first instruction is in execute. -/
theorem atExecute_boot_of_resting (hidle : L.Idle alu) (hset : intc.Settled)
    (hrest : intc.Resting) (hmaster : intc.irqStatus.getLsbD 0 = false) (hram : ramSel σ.pc = true)
    (hi : i.stall = false) (hj : j.stall = false) :
    AtExecute L (((boot c alu intc σ).step c i).step c j) σ := by
  have hstart := start_boot hidle hset σ
  have hirq : (boot c alu intc σ).intc.irq = false := hrest.irq
  have hack : (boot c alu intc σ).irqAck c = false := by
    rw [System.irqAck, hirq, Datapath.irqAck_of_irq_false]
  have hb : (boot c alu intc σ).core.bubble c (boot c alu intc σ).intc.irq = true := by
    simp [Datapath.bubble, boot]
  have hmwait := hstart.mwait_of_noLoad hstart.noLoad
  have hdec := hstart.step_decode hstart.settled hstart.ack hi hack (inert_of_bubble hb i _)
  refine hdec.step_execute hj ?_ (irqAck_boot_step hrest hmaster) hram
  rw [hstart.step_ex_bubble hi hmwait hb]
  exact bubble_noLoad L

theorem atExecute_boot (hidle : L.Idle alu) (hram : ramSel σ.pc = true)
    (hi : i.stall = false) (hj : j.stall = false) :
    AtExecute L (((boot c alu idleIntc σ).step c i).step c j) σ :=
  atExecute_boot_of_resting hidle settled_idleIntc ⟨rfl, by decide, by decide⟩ (by decide) hram
    hi hj

end Boot

end HfRisc.Results
