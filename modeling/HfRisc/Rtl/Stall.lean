import HfRisc.Rtl.Step

/-!
# Stalls of the rv32i core

The external stall holds the program counter and the pipeline registers, but not
the registers of the interrupt controller, and a cycle later it also replays the
fetch. In the cycle in which a load or store owns the memory port (`mwait`) the
fetch is replayed anyway, so there a stall is transparent (`trace_stalled`), unless
the controller would answer the access differently the second time.

The proof relates the state `s` of the run without stalls to the state `t` of
the stalled run: outside a stall the two are `Similar`, within one `t` is
`Paused` where `s` is about to step.
-/

namespace HfRisc.Rtl

open HfRisc.Lib

variable {n : ℕ} {s t : System n Unit} {i : Input}

/-- A cycle that can be stalled without consequences: a load or store owns the
memory port, and the controller would answer it alike the next time. -/
structure Transparent (s : System n Unit) : Prop where
  port : s.core.mwait = true
  ack : s.core.irqAckDly = false
  store : IntControl.writes (s.bus rv32i) 0b0010 = false ∧
    IntControl.writes (s.bus rv32i) 0b0011 = false
  load : (s.bus rv32i).periphAccess = true → (s.bus rv32i).dataW = 0 →
    s.periphDly = false ∧ (s.intc.irq = true → (s.bus rv32i).periphReg ≠ 0b0100)

/-- The cycles of a run whose stalls are transparent. -/
def StallsTransparently (s : System n Unit) (i : Input) : Prop := i.stall = true → Transparent s

/-- The execute stage holds a decoded instruction. -/
def Decoded (s : System n Unit) : Prop := ∃ w, s.core.ex = decode rv32i.control w

/-- The states differ in the word last read from the controller at most, and only
where no instruction looks at it. -/
structure Similar (s t : System n Unit) : Prop where
  eq : t = { s with intc := { s.intc with periphData := t.intc.periphData } }
  data : s.core.mwait = false → s.intc.periphAccessDly = true →
    t.intc.periphData = s.intc.periphData ∨
      s.core.ex.regToMem = true ∧ s.core.memToRegDly = false

/-- The stalled state `t` repeats the memory cycle of `s`: the registers it has
written already are about to be written with the same values. -/
structure Paused (s t : System n Unit) : Prop where
  port : s.core.mwait = true
  ack : s.core.irqAckDly = false
  core : ∃ b, t.core = { s.core with stallReg := b }
  ram : t.ram = s.ram
  dataReadRam : t.dataReadRam = s.dataReadRam
  irqMask : t.intc.irqMask = s.intc.irqMask
  irqStatus : t.intc.irqStatus = s.intc.irqStatus
  irq : t.intc.irq = s.intc.irq
  pulseState : t.intc.pulseState = s.intc.pulseState
  pulseNextState : t.intc.pulseNextState = s.intc.pulseNextState
  periphAccessDly : t.intc.periphAccessDly = s.intc.periphAccessDly
  irqVector : t.intc.irqVector = s.intc.irqVector ∨ IntControl.writes (s.bus rv32i) 0b0000 = true
  extioOut : t.intc.extioOut = s.intc.extioOut ∨ IntControl.writes (s.bus rv32i) 0b1001 = true
  irqEpc : t.intc.irqEpc = s.intc.irqEpc ∨ s.intc.irq = true
  load : (s.bus rv32i).periphAccess = true → (s.bus rv32i).dataW = 0 →
    t.periphDly = s.periphDly ∧
      (t.intc.irqEpc = s.intc.irqEpc ∨ (s.bus rv32i).periphReg ≠ 0b0100)

/-! ## Decoded instructions -/

namespace Decoded

theorem step (h : Decoded s) : Decoded (s.step rv32i i) := by
  unfold Decoded
  simp only [System.step, Datapath.step]
  split
  · exact ⟨_, rfl⟩
  · exact h

theorem exclusive (h : Decoded s) : s.core.ex.ctl.Exclusive := by
  obtain ⟨w, hw⟩ := h
  rw [hw]
  exact exclusive_controlRv32i _ _ _

theorem regToMem_iff (h : Decoded s) : s.core.ex.regToMem = true ↔ s.core.ex.ctl.memWrite ≠ 0 := by
  obtain ⟨w, hw⟩ := h
  rw [hw]
  exact bne_iff_ne

theorem memToReg_iff (h : Decoded s) : s.core.ex.memToReg = true ↔ s.core.ex.ctl.memRead ≠ 0 := by
  obtain ⟨w, hw⟩ := h
  rw [hw]
  exact bne_iff_ne

/-- A store in execute writes no register and loads nothing. -/
theorem of_store (h : Decoded s) (hstore : s.core.ex.regToMem = true) :
    s.core.ex.ctl.regWrite = false ∧ s.core.ex.memToReg = false := by
  have hw := h.regToMem_iff.mp hstore
  refine ⟨(h.exclusive.ofStore hw).2.2.1, ?_⟩
  by_contra hload
  rw [Bool.not_eq_false] at hload
  exact hw (h.exclusive.ofLoad (h.memToReg_iff.mp hload)).1

/-- Byte lanes are only driven by stores. -/
theorem store_of_dataW (h : Decoded s) (hlanes : (s.bus rv32i).dataW ≠ 0) :
    s.core.ex.regToMem = true := by
  rw [h.regToMem_iff]
  intro hw
  refine hlanes ?_
  show s.core.ex.dataW _ = 0
  simp [Execute.dataW, hw]

/-- A load or store is no exception. -/
theorem not_except (h : Decoded s) (hport : s.core.mwait = true) : s.core.ex.except = false := by
  refine Execute.except_of_branch_zero ?_
  rw [Datapath.mwait, Bool.and_eq_true, Execute.dataAccess, Bool.or_eq_true] at hport
  rcases hport.1 with hstore | hload
  · exact (h.exclusive.ofStore (h.regToMem_iff.mp hstore)).2.1
  · exact (h.exclusive.ofLoad (h.memToReg_iff.mp hload)).2.2.1

end Decoded

/-- An address of the controller is not a peripheral's. -/
theorem CpuBus.periphSel_of_periphAccess {b : CpuBus} (h : b.periphAccess = true) :
    periphSel b.address = false := by
  rw [periphAccess, Bool.and_eq_true, beq_iff_eq] at h
  rw [periphSel, beq_eq_false_iff_ne]
  intro h'
  have h₁ := congrArg BitVec.toNat h.1
  have h₂ := congrArg BitVec.toNat h'
  simp [BitVec.extractLsb'_toNat, Nat.shiftRight_eq_div_pow] at h₁ h₂
  omega

/-! ## The core -/

namespace Datapath

variable {d : Datapath Unit} {x y : DatapathIn}

/-- In a memory cycle the core looks at nothing but the stall. -/
theorem step_of_port (h : d.mwait = true) (b : Bool) (hstall : y.stall = x.stall) :
    ({ d with stallReg := b } : Datapath Unit).step rv32i y = d.step rv32i x := by
  have hb : ({ d with stallReg := b } : Datapath Unit).mwait = true := h
  simp [step, pcStep, stallSig, wreg, aluWait, h, hb, hstall, rv32i]

/-- A stalled memory cycle changes nothing. -/
theorem step_stalled (h : d.mwait = true) (hstall : x.stall = true) :
    d.step rv32i x = { d with stallReg := true } := by
  simp [step, pcStep, stallSig, wreg, aluWait, h, hstall, rv32i]

/-- Where nothing is written back and decode is killed, the word on the bus does
not matter. -/
theorem step_congr_dataIn (hkill : d.bubble rv32i x.irq = true) (hw : d.wreg rv32i = false)
    (w : Word) : d.step rv32i { x with dataIn := w } = d.step rv32i x := by
  simp [step, pcStep, instIn, hkill, hw]

end Datapath

/-! ## Outside a stall -/

namespace Similar

theorem refl (s : System n Unit) : Similar s s := ⟨rfl, fun _ _ => .inl rfl⟩

/-- The two states see the same word, or do not look at it. -/
theorem word (h : Similar s t) (hd : Decoded s) (hport : s.core.mwait = false) (i : Input) :
    t.dataIn rv32i i = s.dataIn rv32i i ∨
      s.core.bubble rv32i s.intc.irq = true ∧ s.core.wreg rv32i = false := by
  rw [h.eq]
  cases hdly : s.intc.periphAccessDly with
  | false =>
    left
    simp only [System.dataIn, IntControl.dataInCpu, hdly, if_true]
    rfl
  | true =>
    rcases h.data hport hdly with hp | ⟨hstore, hlate⟩
    · left
      rw [hp]
    · right
      refine ⟨by simp [Datapath.bubble, hstore], ?_⟩
      simp [Datapath.wreg, (hd.of_store hstore).1, hlate, Datapath.aluWait, rv32i]

theorem commits (h : Similar s t) (hd : Decoded s) (i : Input) :
    t.commits rv32i i = s.commits rv32i i := by
  have hcore : t.core = s.core := by rw [h.eq]
  have hreg : t.commitsReg rv32i i = s.commitsReg rv32i i := by
    cases hport : s.core.mwait with
    | true =>
      have hw : s.core.wreg rv32i = false := by
        simp [Datapath.wreg, hport, Datapath.aluWait, rv32i]
      rw [System.commitsReg_nil hw, System.commitsReg_nil (by rw [hcore, hw])]
    | false =>
      rcases h.word hd hport i with hword | ⟨-, hw⟩
      · rw [System.commitsReg, System.commitsReg, hcore, hword]
      · rw [System.commitsReg_nil hw, System.commitsReg_nil (by rw [hcore, hw])]
  rw [System.commits, System.commits, hreg, System.commitsMem, System.commitsMem, hcore]

theorem step (h : Similar s t) (hd : Decoded s) (hstall : i.stall = false) :
    Similar (s.step rv32i i) (t.step rv32i i) := by
  have hcore : (t.step rv32i i).core = (s.step rv32i i).core := by
    rw [h.eq]
    cases hport : s.core.mwait with
    | true => exact Datapath.step_of_port hport s.core.stallReg rfl
    | false =>
      have hword := h.word hd hport i
      rw [h.eq] at hword
      rcases hword with hword | ⟨hkill, hw⟩
      · simp only [System.step, System.datapathIn, hword]
      · exact Datapath.step_congr_dataIn (x := s.datapathIn rv32i i) hkill hw _
  obtain ⟨heq, -⟩ := h
  generalize t.intc.periphData = p at heq
  subst heq
  refine ⟨System.ext hcore rfl rfl rfl rfl, fun _ hdly => .inl ?_⟩
  -- A word that will be looked at is read in this cycle.
  have hper : (s.bus rv32i).periphAccess = true := by
    simpa [System.step, IntControl.step, hstall] using hdly
  show (if (s.bus rv32i).periphAccess = true then _ else p) = if _ then _ else _
  rw [if_pos hper, if_pos hper]
  rfl

/-- A transparent stall may begin. -/
theorem paused (h : Similar s t) (ht : Transparent t) : Paused s t := by
  obtain ⟨heq, -⟩ := h
  generalize t.intc.periphData = p at heq
  subst heq
  exact
    { port := ht.port, ack := ht.ack, core := ⟨s.core.stallReg, rfl⟩, ram := rfl
      dataReadRam := rfl, irqMask := rfl, irqStatus := rfl, irq := rfl, pulseState := rfl
      pulseNextState := rfl, periphAccessDly := rfl, irqVector := .inl rfl, extioOut := .inl rfl
      irqEpc := .inl rfl, load := fun _ _ => ⟨rfl, .inl rfl⟩ }

end Similar

/-! ## Within a stall -/

namespace Paused

theorem bus_eq (h : Paused s t) : t.bus rv32i = s.bus rv32i := by
  obtain ⟨b, hb⟩ := h.core
  simp only [System.bus, hb]
  rfl

theorem port' (h : Paused s t) : t.core.mwait = true := by
  obtain ⟨b, hb⟩ := h.core
  rw [hb]
  exact h.port

/-- One more stalled cycle. -/
theorem pause (h : Paused s t) (hd : Decoded s) (ht : Transparent t) (hstall : i.stall = true) :
    Paused s (t.step rv32i i) ∧ t.commits rv32i i = [] := by
  have hbus := h.bus_eq
  obtain ⟨b, hb⟩ := h.core
  have hexc : (s.bus rv32i).exception = false := hd.not_except h.port
  have hack : (s.bus rv32i).irqAck = false := h.ack
  have hen : t.ramEnable rv32i i = false := by simp [System.ramEnable, hstall]
  obtain ⟨hmask, hstatus⟩ := ht.store
  rw [hbus] at hmask hstatus
  simp only [BitVec.ofNat_eq_ofNat] at hmask hstatus
  have hepc : (t.step rv32i i).intc.irqEpc = t.intc.irqEpc ∨ s.intc.irq = true := by
    cases hirq : s.intc.irq with
    | true => exact .inr rfl
    | false => exact .inl (by simp [System.step, IntControl.step, hbus, h.irq, hirq, hexc])
  refine ⟨
    { port := h.port, ack := h.ack, core := ⟨true, ?_⟩
      ram := by simp [System.step, hen, h.ram]
      dataReadRam := by simp [System.step, hen, h.dataReadRam]
      irqMask := by simp [System.step, IntControl.step, hbus, hmask, h.irqMask]
      irqStatus := by
        simp [System.step, IntControl.step, IntControl.statusStep, hbus, hstatus, hack, hexc,
          h.irqStatus]
      irq := by simp [System.step, IntControl.step, hstall, h.irq]
      pulseState := by simp [System.step, IntControl.step, hstall, h.pulseState]
      pulseNextState := by simp [System.step, IntControl.step, hstall, h.pulseNextState]
      periphAccessDly := by simp [System.step, IntControl.step, hstall, h.periphAccessDly]
      irqVector := ?_, extioOut := ?_, irqEpc := ?_, load := fun hper hload => ?_ }, ?_⟩
  · rw [System.step, Datapath.step_stalled h.port' hstall, hb]
  · cases hw : IntControl.writes (s.bus rv32i) 0b0000 with
    | true => exact .inr rfl
    | false =>
      simp only [BitVec.ofNat_eq_ofNat] at hw
      rcases h.irqVector with hv | hv
      · exact .inl (by simp [System.step, IntControl.step, hbus, hw, hv])
      · exact .inr (hw ▸ hv)
  · cases hw : IntControl.writes (s.bus rv32i) 0b1001 with
    | true => exact .inr rfl
    | false =>
      simp only [BitVec.ofNat_eq_ofNat] at hw
      rcases h.extioOut with hv | hv
      · exact .inl (by simp [System.step, IntControl.step, hbus, hw, hv])
      · exact .inr (hw ▸ hv)
  · rcases hepc with hepc | hirq
    · rw [hepc]
      exact h.irqEpc
    · exact .inr hirq
  · obtain ⟨hdly, hreg⟩ := h.load hper hload
    obtain ⟨hdly', hreg'⟩ := ht.load (by rw [hbus, hper]) (by rw [hbus, hload])
    refine ⟨?_, ?_⟩
    · show periphSel (t.bus rv32i).address = _
      rw [hbus, ← hdly, hdly']
      exact CpuBus.periphSel_of_periphAccess hper
    · rcases hepc with hepc | hirq
      · rw [hepc]
        exact hreg
      · right
        rw [← hbus]
        exact hreg' (by rw [h.irq, hirq])
  · have hw : t.core.wreg rv32i = false := by
      simp [Datapath.wreg, h.port', Datapath.aluWait, rv32i]
    rw [System.commits, System.commitsReg_nil hw, System.commitsMem, hstall]
    simp

/-- The controller leaves the stall with every register but the data of the bus as it would
have been. -/
theorem release_intc (h : Paused s t) (hd : Decoded s) (hstall : i.stall = false) :
    (t.step rv32i i).intc =
      { (s.step rv32i i).intc with periphData := (t.step rv32i i).intc.periphData } := by
  have hbus := h.bus_eq
  have hexc : (s.bus rv32i).exception = false := hd.not_except h.port
  have hack : (s.bus rv32i).irqAck = false := h.ack
  -- What the stalled cycles wrote is written again.
  have hvector : (t.step rv32i i).intc.irqVector = (s.step rv32i i).intc.irqVector := by
    rcases h.irqVector with hv | hv <;> simp only [System.step, IntControl.step, hbus, hv, if_true]
  have hext : (t.step rv32i i).intc.extioOut = (s.step rv32i i).intc.extioOut := by
    rcases h.extioOut with hv | hv <;> simp only [System.step, IntControl.step, hbus, hv, if_true]
  have hepc : (t.step rv32i i).intc.irqEpc = (s.step rv32i i).intc.irqEpc := by
    simp only [System.step, IntControl.step, hbus, h.irq, hack, hexc]
    rcases h.irqEpc with hv | hv <;> simp [hv]
  have hpulse : t.intc.pulseStep (s.bus rv32i).irqAck i.extioIn =
      s.intc.pulseStep (s.bus rv32i).irqAck i.extioIn := by
    simp only [IntControl.pulseStep, IntControl.interrupt, h.pulseState, h.pulseNextState, h.irq,
      h.irqMask, h.irqStatus]
    cases s.intc.pulseState <;> rfl
  refine IntControl.ext rfl hvector ?_ ?_ hext hepc ?_ ?_ ?_ ?_
  · simp only [System.step, IntControl.step, hbus, h.irqMask]
  · simp only [System.step, IntControl.step, IntControl.statusStep, hbus, h.irqStatus]
  · simp only [System.step, IntControl.step, hbus, hstall, hpulse, if_true]
  · simp only [System.step, IntControl.step, hstall, h.pulseNextState, if_true]
  · simp only [System.step, IntControl.step, hbus, hstall, hpulse, if_true]
  · simp only [System.step, IntControl.step, hbus, hstall, if_true]

/-- A load reads registers that the stalled cycles have not touched. -/
theorem release_periphData (h : Paused s t) (hper : (s.bus rv32i).periphAccess = true)
    (hload : (s.bus rv32i).dataW = 0) :
    (t.step rv32i i).intc.periphData = (s.step rv32i i).intc.periphData := by
  have hbus := h.bus_eq
  have haddr : t.core.address rv32i = s.core.address rv32i := congrArg CpuBus.address hbus
  obtain ⟨hdly', hreg⟩ := h.load hper hload
  have hread : t.dataRead rv32i i = s.dataRead rv32i i := by
    simp only [System.dataRead, haddr, hdly', h.dataReadRam]
  have hno : ∀ {p : Prop} k, IntControl.writes (s.bus rv32i) k = true → p := fun k hk => by
    simp [IntControl.writes, CpuBus.periphAccessWe, hload] at hk
  have hvector : t.intc.irqVector = s.intc.irqVector := h.irqVector.elim id (hno _)
  have hext : t.intc.extioOut = s.intc.extioOut := h.extioOut.elim id (hno _)
  show (if (t.bus rv32i).periphAccess = true then _ else t.intc.periphData) = if _ then _ else _
  rw [hbus, if_pos hper, if_pos hper, hread]
  simp only [IntControl.readReg, hvector, hext, h.irqMask, h.irqStatus]
  rcases hreg with hepc | hreg
  · rw [hepc]
  · simp only [if_neg hreg]

/-- The memory cycle after the stall does what it would have done without. -/
theorem release (h : Paused s t) (hd : Decoded s) (hstall : i.stall = false) :
    t.commits rv32i i = s.commits rv32i i ∧ Similar (s.step rv32i i) (t.step rv32i i) := by
  have hbus := h.bus_eq
  obtain ⟨b, hb⟩ := h.core
  have haddr : t.core.address rv32i = s.core.address rv32i := congrArg CpuBus.address hbus
  have hout : t.core.dataOut = s.core.dataOut := congrArg CpuBus.dataOut hbus
  have hen : t.ramEnable rv32i i = s.ramEnable rv32i i := by
    rw [System.ramEnable, System.ramEnable, haddr]
  have hcore : (t.step rv32i i).core = (s.step rv32i i).core := by
    show t.core.step rv32i _ = s.core.step rv32i _
    rw [hb]
    exact Datapath.step_of_port h.port b rfl
  refine ⟨?_, System.ext hcore (h.release_intc hd hstall) ?_ ?_ ?_, fun _ hdly => ?_⟩
  · have hw : s.core.wreg rv32i = false := by
      simp [Datapath.wreg, h.port, Datapath.aluWait, rv32i]
    have hw' : t.core.wreg rv32i = false := by
      simp [Datapath.wreg, h.port', Datapath.aluWait, rv32i]
    have hlanes : t.core.dataW rv32i = s.core.dataW rv32i := congrArg CpuBus.dataW hbus
    rw [System.commits, System.commits, System.commitsReg_nil hw, System.commitsReg_nil hw',
      System.commitsMem, System.commitsMem, haddr, hout, hlanes, h.port, h.port']
  · show (if t.ramEnable rv32i i = true then writeRam t.ram _ (t.bus rv32i).dataWeMem _
      else t.ram) = _
    rw [hen, haddr, hout, hbus, h.ram]
    rfl
  · show (if t.ramEnable rv32i i = true then
      mergeLanes (t.bus rv32i).dataWeMem t.dataReadRam (t.ram _) else t.dataReadRam) = _
    rw [hen, haddr, hbus, h.ram, h.dataReadRam]
    rfl
  · exact congrArg periphSel haddr
  · have hper : (s.bus rv32i).periphAccess = true := by
      simpa [System.step, IntControl.step, hstall] using hdly
    by_cases hload : (s.bus rv32i).dataW = 0
    · exact .inl (h.release_periphData hper hload)
    · -- After a store the data of the bus is not read.
      right
      have hstore := hd.store_of_dataW hload
      have hex : (s.step rv32i i).core.ex = s.core.ex := by
        simp [System.step, Datapath.step, h.port]
      refine ⟨by rw [hex, hstore], ?_⟩
      simp [System.step, Datapath.step, Datapath.stallSig, Datapath.aluWait, rv32i,
        System.datapathIn, hstall, (hd.of_store hstore).2]

end Paused

/-! ## Whole runs -/

/-- Between the run without stalls and the stalled one. -/
theorem trace_stalled {ins : List Input} (hrel : Similar s t ∨ Paused s t) (hd : Decoded s)
    (h : (System.rawMachine rv32i).Along StallsTransparently t ins) :
    (System.rawMachine rv32i).trace t ins =
      (System.rawMachine rv32i).trace s (ins.filter fun i => !i.stall) := by
  induction ins generalizing s t with
  | nil => rfl
  | cons i ins ih =>
    obtain ⟨hi, htail⟩ := h
    cases hstall : i.stall with
    | true =>
      have ht := hi hstall
      have hp : Paused s t := by
        rcases hrel with hs | hp
        · exact hs.paused ht
        · exact hp
      obtain ⟨hp', hout⟩ := hp.pause hd ht hstall
      rw [List.filter_cons_of_neg (by simp [hstall]), ← ih (.inr hp') hd htail]
      show t.commits rv32i i ++ (System.rawMachine rv32i).trace (t.step rv32i i) ins = _
      rw [hout, List.nil_append]
    | false =>
      have hstep : t.commits rv32i i = s.commits rv32i i ∧
          Similar (s.step rv32i i) (t.step rv32i i) := by
        rcases hrel with hs | hp
        · exact ⟨hs.commits hd i, hs.step hd hstall⟩
        · exact hp.release hd hstall
      have htr := ih (.inl hstep.2) hd.step htail
      rw [List.filter_cons_of_pos (by simp [hstall])]
      show t.commits rv32i i ++ (System.rawMachine rv32i).trace (t.step rv32i i) ins =
        s.commits rv32i i ++ (System.rawMachine rv32i).trace (s.step rv32i i) _
      rw [hstep.1, htr]

end HfRisc.Rtl
