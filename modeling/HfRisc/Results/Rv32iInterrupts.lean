import HfRisc.Pipe.CoreI
import HfRisc.Pipe.Traps
import HfRisc.Results.Programs
import HfRisc.Rtl.Pulse

/-!
# Interrupts of the rv32i core

No computation of this core holds the pipeline, so every request comes promptly
and every serviceable run is precise.

Clearing the master bit of `IRQ_STATUS` keeps further requests from being
sampled. One that is in flight is acknowledged all the same.
-/

namespace HfRisc.Results

open HfRisc.Rtl HfRisc.Lib HfRisc.Pipe

variable {n : ℕ}

/-- The rv32i pipeline never waits for its ALU. -/
theorem stallReg_rv32i {r : ℕ} {s : System n Unit} {σ : Seq n} (h : Tracks contractRv32i r s σ) :
    s.core.stallReg = false := by
  cases h with
  | fetch h _ _ _ _ => exact h.stall
  | stray h _ => exact h.stall
  | access h => exact h.stall
  | decode h _ => exact h.stall
  | execute h => exact h.stall
  | mul h _ => exact h.unit.elim
  | load h => exact h.stall
  | release h => exact h.unit.elim
  | vector h _ _ => exact h.stall
  | ack h _ _ => exact h.stall

theorem precise_serviceable : Precise (n := n) contractRv32i (Serviceable rv32i) := by
  intro r s σ i ht hi
  refine ⟨hi, fun hwait => ?_⟩
  rcases hwait with h | h | h
  · cases h
  · rw [stallReg_rv32i ht] at h
    cases h
  · cases h

/-- Interrupts are precise: the writes up to the handler are a prefix of those of
the uninterrupted execution, the saved address less four is that of the first
instruction not in it, and a program started there makes the remaining writes. -/
theorem rv32i_interrupt_precise {s : System n Unit}
    (h : Reachable contractRv32i (Serviceable rv32i) s) {x : ℕ → Input} {T : ℕ}
    (hx : ∀ N ≤ T + 2,
      Serviceable rv32i ((System.rawMachine rv32i).run s (Mealy.inputs x N)) (x N))
    (hfirst : ∀ N < T, accepts rv32i ((System.rawMachine rv32i).run s (Mealy.inputs x N)) = false)
    (hacc : accepts rv32i ((System.rawMachine rv32i).run s (Mealy.inputs x T)) = true) :
    ∃ σ ios, Executes contractRv32i (Serviceable rv32i) (withdraw s) σ ∧
      (System.rawMachine rv32i).trace s (Mealy.inputs x (T + 3)) =
        (Seq.machine rv32i contractRv32i).trace σ ios ∧
      ((System.rawMachine rv32i).run s (Mealy.inputs x (T + 3))).intc.irqEpc - 4 =
        ((Seq.machine rv32i contractRv32i).run σ ios).pc ∧
      Executes contractRv32i (Serviceable rv32i)
        ((System.rawMachine rv32i).run s (Mealy.inputs x (T + 3)))
        { (Seq.machine rv32i contractRv32i).run σ ios with
          pc := ((System.rawMachine rv32i).run s (Mealy.inputs x T)).intc.irqVector } ∧
      ∀ s' τ, Start contractRv32i s' τ →
        τ.regs = ((Seq.machine rv32i contractRv32i).run σ ios).regs →
        τ.ram = ((Seq.machine rv32i contractRv32i).run σ ios).ram →
        τ.pc = ((System.rawMachine rv32i).run s (Mealy.inputs x (T + 3))).intc.irqEpc - 4 →
        Executes contractRv32i (Serviceable rv32i) s'
          ((Seq.machine rv32i contractRv32i).run σ ios) := by
  rw [← System.machine_rv32i] at hx hfirst hacc ⊢
  exact precise_of_accept precise_serviceable h hx hfirst hacc

/-! ## A timer tick in a row of additions -/

/-- `addi x1, x1, 1` everywhere but at the vector, where there is a NOP. -/
def counting : Seq 14 where
  regs := fun _ => 0
  pc := base
  ram := fun k => swapBytes (if k = 16 then nop else 0x00108093)

instance {α : Type} (c : Core α) (s : System n α) (i : Input) : Decidable (Serviceable c s i) :=
  decidable_of_iff
    (i.stall = false ∧ (s.core.bubble c s.intc.irq = false → ramSel s.core.pcLast = true) ∧
      (s.irqAck c = true → ramSel s.intc.irqVector = true ∧
        swapBytes (s.ram (wordIndex n s.intc.irqVector)) = nop) ∧
      s.core.ex.except = false)
    ⟨fun ⟨h₁, h₂, h₃, h₄⟩ => ⟨h₁, h₂, h₃, h₄⟩, fun ⟨h₁, h₂, h₃, h₄⟩ => ⟨h₁, h₂, h₃, h₄⟩⟩

/-- The state in which `counting` starts. -/
def ticking : System 14 Unit := boot rv32i () armedIntc counting

theorem start_ticking : Start contractRv32i ticking counting :=
  start_boot trivial List.mem_cons_self counting

/-- The tick is accepted in cycle 3, with two additions done. -/
theorem rv32i_interrupt_precise_tick :
    ∃ σ ios, Executes contractRv32i (Serviceable rv32i) (withdraw ticking) σ ∧
      (System.rawMachine rv32i).trace ticking (Mealy.inputs (fun _ => tickInput) 6) =
        (Seq.machine rv32i contractRv32i).trace σ ios ∧
      ((System.rawMachine rv32i).run ticking
          (Mealy.inputs (fun _ => tickInput) 6)).intc.irqEpc - 4 =
        ((Seq.machine rv32i contractRv32i).run σ ios).pc ∧
      Executes contractRv32i (Serviceable rv32i)
        ((System.rawMachine rv32i).run ticking (Mealy.inputs (fun _ => tickInput) 6))
        { (Seq.machine rv32i contractRv32i).run σ ios with
          pc := ((System.rawMachine rv32i).run ticking
            (Mealy.inputs (fun _ => tickInput) 3)).intc.irqVector } ∧
      ∀ s' τ, Start contractRv32i s' τ →
        τ.regs = ((Seq.machine rv32i contractRv32i).run σ ios).regs →
        τ.ram = ((Seq.machine rv32i contractRv32i).run σ ios).ram →
        τ.pc = ((System.rawMachine rv32i).run ticking
          (Mealy.inputs (fun _ => tickInput) 6)).intc.irqEpc - 4 →
        Executes contractRv32i (Serviceable rv32i) s'
          ((Seq.machine rv32i contractRv32i).run σ ios) :=
  rv32i_interrupt_precise (T := 3) (.start start_ticking) (by decide +kernel) (by decide +kernel)
    (by decide +kernel)

end HfRisc.Results

/-! ## Disabling interrupts on the rv32i core -/

namespace HfRisc.Results

open HfRisc.Rtl HfRisc.Lib HfRisc.Pipe

variable {n : ℕ}

/-- After a store that clears the master bit with nothing in flight, no interrupt is
acknowledged until a store sets the bit again. -/
theorem rv32i_disable_effective {s : System n Unit} {i : Input}
    (hclear : IntControl.ClearsMaster (s.bus rv32i))
    (hflight : ¬ s.intc.InFlight i.stall i.extioIn) {ins : List Input}
    (hins : (System.rawMachine rv32i).Along (fun s _ => ¬ IntControl.SetsMaster (s.bus rv32i))
      (s.step rv32i i) ins) :
    ((System.rawMachine rv32i).run (s.step rv32i i) ins).irqAck rv32i = false := by
  have hrest : (s.step rv32i i).intc.Resting := IntControl.resting_step hflight
  have hmaster : (s.step rv32i i).intc.irqStatus.getLsbD 0 = false :=
    IntControl.master_step (.inl hclear)
  rw [System.irqAck, (resting_run hrest hmaster hins).irq, Datapath.irqAck_of_irq_false]

/-! ## A store to `IRQ_STATUS` -/

/-- `lui x1, 0xf0000`, `sw x0, 48(x1)`. -/
def disabling : List Word := [0xf00000b7, 0x0200a823]

/-- `disabling`, with interrupts enabled. -/
def disablingState : System 14 Unit := boot rv32i () armedIntc (program disabling)

/-- The run of `disabling` under the input `x`; the store is in execute in cycle 3. -/
def disablingRun (x : Input) (N : ℕ) : System 14 Unit :=
  (System.rawMachine rv32i).run disablingState (List.replicate N x)

/-- The line rises right behind the store. -/
theorem rv32i_disable_effective_calm :
    ((System.rawMachine rv32i).run ((disablingRun calmInput 3).step rv32i calmInput)
      (List.replicate 6 tickInput)).irqAck rv32i = false := by
  refine rv32i_disable_effective (by decide +kernel) (by decide +kernel) ?_
  simp only [List.replicate, Mealy.Along]
  decide +kernel

/-- The line has been high from the start: the request is acknowledged two cycles
behind the store, with the master bit clear. -/
theorem rv32i_disable_late :
    IntControl.ClearsMaster ((disablingRun tickInput 3).bus rv32i) ∧
      (∀ k < 3, (disablingRun tickInput (4 + k)).intc.irqStatus.getLsbD 0 = false ∧
        ¬ IntControl.SetsMaster ((disablingRun tickInput (4 + k)).bus rv32i)) ∧
      (disablingRun tickInput 5).irqAck rv32i = true ∧
      (disablingRun tickInput 6).core.pc = base + 64 := by
  decide +kernel

end HfRisc.Results
