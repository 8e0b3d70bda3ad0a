import HfRisc.Pipe.Access

/-!
# The pipeline simulates the sequential machine

`Tracks` is the union of the phases, ranked by the number of silent cycles ahead.
`Enabled` collects what a cycle must satisfy for the pipeline to be precise: no
external stall, code and interrupt handler in RAM with a NOP at the vector, no
request while the ALU waits, and behind a `SYSTEM` instruction a harmless word
and no request. Every enabled cycle is silent or performs the next steps of the
sequential machine: `Tracks.step_quiet` when nothing interrupts it,
`Tracks.step_accept` when an interrupt is accepted, `AtExecute.step_trap` for the
exception.
-/

namespace HfRisc.Pipe

open HfRisc.Rtl HfRisc.Lib

variable {n : ℕ} {α : Type} {c : Core α}

/-- Where the instruction at the sequential program counter is, with a bound on
the cycles before the next commit. -/
inductive Tracks (L : Contract c) : ℕ → System n α → Seq n → Prop
  | fetch {s σ} (h : AtFetch L s σ) (settled : s.intc.Settled) (ack : s.core.irqAckDly = false)
      (inert : ∀ i,
        Harmless L (decode c.control (s.core.instIn c s.intc.irq (s.dataIn c i))) σ.regs)
      (guard : s.irqAck c = false ∨ L.Cooling s.core.alu) : Tracks L (L.latency + 5) s σ
  | stray {s σ} (h : AtDecode L s σ) (load : s.core.ex.memToReg = true) :
      Tracks L (L.latency + 4) s σ
  | access {s σ} (h : AtAccess L s σ) : Tracks L (L.latency + 3) s σ
  | decode {s σ} (h : AtDecode L s σ) (noLoad : s.core.ex.memToReg = false) :
      Tracks L (L.latency + 2) s σ
  | execute {s σ} (h : AtExecute L s σ) : Tracks L (L.latency + 1) s σ
  | mul {s σ k} (h : AtMul L k s σ) (le : k ≤ L.latency) : Tracks L k s σ
  | load {s σ} (h : AtLoad L s σ) : Tracks L 0 s σ
  | release {s σ} (h : AtRelease L s σ) : Tracks L (L.latency + 6) s σ
  | vector {s σ} (h : AtVector L s σ) (ram : ramSel σ.pc = true) (nop : σ.fetch = nop) :
      Tracks L (L.latency + 5) s σ
  | ack {s σ} (h : AtAck L s σ) (ram : ramSel σ.pc = true) (nop : σ.fetch = nop) :
      Tracks L (L.latency + 6) s σ

/-- The largest rank. -/
def Contract.rank (L : Contract c) : ℕ := L.latency + 6

/-- Where a program starts: its first instruction is about to be fetched, and the
word in decode is killed or harmless. -/
structure Start (L : Contract c) (s : System n α) (σ : Seq n) : Prop extends AtFetch L s σ where
  settled : s.intc.Settled
  ack : s.core.irqAckDly = false
  first : s.core.bds = true ∨
    s.intc.irq = false ∧ ∀ i, Harmless L (decode c.control (swapBytes (s.dataIn c i))) σ.regs

/-- What a cycle must satisfy. -/
structure Enabled (L : Contract c) (s : System n α) (i : Input) (σ : Seq n) : Prop where
  stall : i.stall = false
  code : AtDecode L s σ ∨ AtExecute L s σ → s.core.bubble c s.intc.irq = false →
    ramSel s.core.pcLast = true
  handler : s.irqAck c = true → ramSel s.intc.irqVector = true ∧
    swapBytes (s.ram (wordIndex n s.intc.irqVector)) = nop
  quiet : s.core.aluWait c = true ∨ s.core.stallReg = true ∨ c.aluWait3 s.core.alu = true →
    s.intc.irq = false
  trap : AtExecute L s σ → s.core.ex.except = true →
    s.irqAck c = false ∧ (s.step c i).intc.irq = false ∧ ramSel s.intc.irqVector = true ∧
    ramSel s.core.pc = true ∧
    Harmless L (Rtl.decode c.control (swapBytes (s.ram (wordIndex n s.core.pc)))) s.core.regs

variable {L : Contract c} {s : System n α} {σ : Seq n} {i : Input} {r : ℕ}

/-! ## Entering the phases -/

/-- A killed decode stage is inert. -/
theorem inert_of_bubble (h : s.core.bubble c s.intc.irq = true) (i : Input)
    (regs : BitVec 5 → Word) :
    Harmless L (decode c.control (s.core.instIn c s.intc.irq (s.dataIn c i))) regs := by
  rw [Datapath.instIn_bubble h]
  exact harmless_bubble L _

/-- Behind a jump the next fetch is under way and decode is killed by `bds`. -/
theorem Tracks.of_bds (h : AtFetch L s σ) (hset : s.intc.Settled)
    (hdly : s.core.irqAckDly = false) (hbds : s.core.bds = true) :
    Tracks L (L.latency + 5) s σ := by
  have hb : s.core.bubble c s.intc.irq = true := by simp [Datapath.bubble, hbds]
  refine .fetch h hset hdly (fun i => inert_of_bubble hb i _) (.inl ?_)
  rw [h.irqAck, hbds, Bool.not_true, Bool.and_false, Bool.false_and]

theorem Start.tracks (h : Start L s σ) : Tracks L (L.latency + 5) s σ := by
  rcases h.first with hbds | ⟨hirq, hex⟩
  · exact .of_bds h.toAtFetch h.settled h.ack hbds
  · refine .fetch h.toAtFetch h.settled h.ack (fun i => ?_) (.inl ?_)
    · rw [Datapath.instIn]
      split
      · exact harmless_bubble L _
      · exact hex i
    · rw [h.irqAck, hirq, Bool.false_and, Bool.false_and]

theorem Tracks.of_decode (h : AtDecode L s σ) : ∃ r ≤ L.latency + 4, Tracks L r s σ := by
  cases hload : s.core.ex.memToReg with
  | false => exact ⟨_, by omega, .decode h hload⟩
  | true => exact ⟨_, le_refl _, .stray h hload⟩

/-! ## Starting from a sequential state -/

/-- A controller at rest: nothing enabled, no request. -/
def idleIntc : IntControl where
  periphData := 0
  irqVector := 0
  irqMask := 0
  irqStatus := 0
  extioOut := 0
  irqEpc := 0
  irq := false
  pulseState := .idle
  pulseNextState := .idle
  periphAccessDly := false

/-- A system about to fetch the first instruction of `σ`, with the word in decode
killed. -/
def boot (c : Core α) (alu : α) (intc : IntControl) (σ : Seq n) : System n α where
  core :=
    { pc := σ.pc
      pcLast := 0
      pcLast2 := 0
      irqAckDly := false
      bds := true
      memToRegDly := false
      dataAccessDly := false
      stallReg := false
      ex := decode c.control 0
      regs := σ.regs
      alu := alu }
  intc := intc
  ram := σ.ram
  dataReadRam := 0
  periphDly := false

theorem start_boot {alu : α} (hidle : L.Idle alu) {intc : IntControl} (hset : intc.Settled)
    (σ : Seq n) : Start L (boot c alu intc σ) σ where
  ram := rfl
  regs := rfl
  stall := rfl
  harmless := harmless_bubble L _
  late := fun h => nomatch h
  unit := .inl hidle
  pc := rfl
  noLoad := bubble_noLoad L
  settled := hset
  ack := rfl
  first := .inl rfl

theorem settled_idleIntc : idleIntc.Settled := List.mem_cons_self

/-! ## Cycles without an interrupt or an exception -/

/-- A silent cycle with a lower rank, or a cycle that completes one instruction. -/
def Advances (L : Contract c) (r : ℕ) (s : System n α) (i : Input) (σ : Seq n) : Prop :=
  (∃ r' < r, Tracks L r' (s.step c i) σ ∧ s.finals c i = []) ∨
  (∃ r' ≤ L.rank, ∃ io, Tracks L r' (s.step c i) (σ.next c L io) ∧
    s.finals c i = σ.effects c L io)

theorem AtFetch.advances (h : AtFetch L s σ) (hset : s.intc.Settled)
    (hdly : s.core.irqAckDly = false) (hstall : i.stall = false) (hack : s.irqAck c = false)
    (hex : Harmless L (decode c.control (s.core.instIn c s.intc.irq (s.dataIn c i))) σ.regs) :
    Advances L (L.latency + 5) s i σ := by
  obtain ⟨r', hr', ht⟩ := Tracks.of_decode (h.step_decode hset hdly hstall hack hex)
  refine .inl ⟨r', by omega, ht, ?_⟩
  rw [System.finals_eq h.aluWait, h.commits (h.mwait_of_noLoad h.noLoad)]

theorem AtDecode.advances (h : AtDecode L s σ) (he : Enabled L s i σ)
    (hload : s.core.ex.memToReg = false) (hack : s.irqAck c = false) :
    Advances L (L.latency + 2) s i σ := by
  have hram : ramSel σ.pc = true := by
    rw [← h.pcLast]
    exact he.code (.inl h) (by rw [h.bubble_eq_irqAck hload, hack])
  refine .inl ⟨_, by omega, .execute (h.step_execute he.stall hload hack hram), ?_⟩
  rw [System.finals_eq h.aluWait, h.commits (h.mwait_of_noLoad hload)]

theorem AtDecode.advances_stray (h : AtDecode L s σ) (hstall : i.stall = false)
    (hload : s.core.ex.memToReg = true) : Advances L (L.latency + 4) s i σ := by
  obtain ⟨hacc, hcommits⟩ := h.step_stray hstall hload
  refine .inl ⟨_, by omega, .access hacc, ?_⟩
  rw [System.finals_eq h.aluWait, hcommits]

theorem AtAccess.advances (h : AtAccess L s σ) (hstall : i.stall = false) :
    Advances L (L.latency + 3) s i σ := by
  obtain ⟨hdec, hload⟩ := h.step hstall
  refine .inl ⟨_, by omega, .decode hdec hload, ?_⟩
  rw [System.finals_eq h.aluWait, h.commits]

/-- The five ways an instruction leaves execute, apart from the exception. -/
theorem AtExecute.advances (h : AtExecute L s σ) (he : Enabled L s i σ)
    (hack : s.irqAck c = false) (hexc : s.core.ex.except = false) :
    Advances L (L.latency + 1) s i σ := by
  rw [h.ex] at hexc
  have hwait := h.aluWait
  cases hslow : L.slow (σ.ex c).ctl.aluOp with
  | true =>
    obtain ⟨⟨k, hk, hmul⟩, hfinals⟩ := h.step_slow he.stall hslow
    exact .inl ⟨k, by omega, .mul hmul hk, hfinals⟩
  | false =>
    rw [hslow] at hwait
    cases hload : (σ.ex c).memToReg with
    | true =>
      obtain ⟨hl, hcommits⟩ := h.step_load he.stall hload
      exact .inl ⟨0, by omega, .load hl, by rw [System.finals_eq hwait, hcommits]⟩
    | false =>
      cases hstore : (σ.ex c).regToMem with
      | true =>
        obtain ⟨ha, hcommits⟩ := h.step_store 0 he.stall hstore
        exact .inr ⟨_, by rw [Contract.rank]; omega, 0, .access ha,
          by rw [System.finals_eq hwait, hcommits]⟩
      | false =>
        have hplain : (σ.ex c).dataAccess = false := by rw [Execute.dataAccess, hload, hstore]; rfl
        have hfin : s.finals c i = σ.effects c L 0 := by
          rw [System.finals_eq hwait, h.commits hslow hplain]
        cases htaken : σ.taken c L with
        | true =>
          obtain ⟨hf, hbds, hdly⟩ := h.step_taken he.stall hslow hplain 0 htaken
          have hset := System.step_settled (c := c) he.stall h.settled h.ack
          exact .inr ⟨_, by rw [Contract.rank]; omega, 0, .of_bds hf hset hdly hbds, hfin⟩
        | false =>
          have hram : ramSel (σ.pc + 4) = true := by
            rw [← h.pcs.pcLast]
            exact he.code (.inr h) (by rw [h.bubble_eq hslow hplain hexc htaken, hack])
          exact .inr ⟨_, by rw [Contract.rank]; omega, 0,
            .execute (h.step_next he.stall hslow hplain 0 hexc htaken hack hram), hfin⟩

theorem AtMul.advances {k : ℕ} (h : AtMul L k s σ) (hk : k ≤ L.latency)
    (hstall : i.stall = false) : Advances L k s i σ := by
  cases k with
  | zero =>
    obtain ⟨hr, hfinals⟩ := h.step_last hstall 0
    exact .inr ⟨_, le_refl _, 0, .release hr, hfinals⟩
  | succ k =>
    obtain ⟨hm, hfinals⟩ := h.step hstall
    exact .inl ⟨k, by omega, .mul hm (by omega), hfinals⟩

theorem AtLoad.advances (h : AtLoad L s σ) (hstall : i.stall = false) :
    Advances L 0 s i σ := by
  obtain ⟨hd, hload⟩ := h.step hstall
  exact .inr ⟨_, by rw [Contract.rank]; omega, s.dataIn c i, .decode hd hload,
    by rw [System.finals_eq h.aluWait, h.commits]⟩

theorem AtRelease.advances (h : AtRelease L s σ) (hstall : i.stall = false)
    (hirq : s.intc.irq = false) : Advances L (L.latency + 6) s i σ := by
  obtain ⟨hf, hcool, hdly⟩ := h.step hstall hirq
  have hset := System.step_settled (c := c) hstall h.settled h.ack
  have hb : (s.step c i).core.bubble c (s.step c i).intc.irq = true := by
    simp [Datapath.bubble, L.cooling_kill hcool]
  exact .inl ⟨_, by omega, .fetch hf hset hdly (fun i' => inert_of_bubble hb i' _) (.inr hcool),
    by rw [System.finals_eq h.aluWait, h.commits]⟩

/-- A cycle in which no interrupt is accepted and no exception is raised. -/
theorem Tracks.step_quiet (h : Tracks L r s σ) (he : Enabled L s i σ)
    (hack : s.irqAck c = false) (hexc : s.core.ex.except = false) : Advances L r s i σ := by
  cases h with
  | fetch h hset hdly hex _ => exact h.advances hset hdly he.stall hack (hex i)
  | stray h hload => exact h.advances_stray he.stall hload
  | access h => exact h.advances he.stall
  | decode h hload => exact h.advances he hload hack
  | execute h => exact h.advances he hack hexc
  | mul h hk => exact h.advances hk he.stall
  | load h => exact h.advances he.stall
  | release h => exact h.advances he.stall (he.quiet (.inr (.inl h.stall)))
  | vector h hram hnop =>
    obtain ⟨r', hr', ht⟩ := Tracks.of_decode (h.step (i := i) he.stall hram hnop)
    exact .inl ⟨r', by omega, ht, by
      rw [System.finals_eq h.aluWait, h.commits (h.mwait_of_noLoad h.noLoad)]⟩
  | ack h =>
    rw [h.accepts] at hack
    cases hack

/-! ## Cycles with an interrupt or an exception -/

/-- A cycle in which an interrupt is accepted: at most one instruction commits,
and the address of its successor is saved. -/
theorem Tracks.step_accept (h : Tracks L r s σ) (he : Enabled L s i σ)
    (hack : s.irqAck c = true) (hdly : s.core.irqAckDly = false)
    (hexc : s.core.ex.except = false) :
    ∃ ios, AtAck L (s.step c i) { (Seq.machine c L).run σ ios with pc := s.intc.irqVector } ∧
      ramSel s.intc.irqVector = true ∧
      Seq.fetch { (Seq.machine c L).run σ ios with pc := s.intc.irqVector } = nop ∧
      s.finals c i = (Seq.machine c L).trace σ ios ∧
      (s.step c i).intc.irqEpc = ((Seq.machine c L).run σ ios).pc + 4 := by
  obtain ⟨hvec, hnop⟩ := he.handler hack
  have hirq : s.intc.irq = true := by
    by_contra hno
    rw [Bool.not_eq_true] at hno
    rw [System.irqAck, hno, Datapath.irqAck_of_irq_false] at hack
    cases hack
  have hquiet : ∀ {p : Prop}, s.intc.irq = false → p := fun hf => by
    rw [hirq] at hf
    cases hf
  -- An interrupt is taken at an instruction that is in decode or, without memory access and
  -- without the slow unit, in execute; the other stages hold it back.
  cases h with
  | fetch h _ _ _ hguard =>
    rcases hguard with hno | hcool
    · rw [hack] at hno
      cases hno
    · exact hquiet (he.quiet (.inr (.inr (L.cooling_kill hcool))))
  | stray h hload =>
    rw [h.irqAck, hload, Bool.not_true, Bool.and_false] at hack
    cases hack
  | access h =>
    rw [h.irqAck_eq_false] at hack
    cases hack
  | decode h hload =>
    obtain ⟨ha, hepc⟩ := h.step_ack (i := i) he.stall hack
    refine ⟨[], ha, hvec, ?_, ?_, hepc⟩
    · rw [← hnop, h.ram]
      rfl
    · rw [System.finals_eq h.aluWait, h.commits (h.mwait_of_noLoad hload)]
      rfl
  | execute h =>
    rw [h.ex] at hexc
    have hplain : (σ.ex c).dataAccess = false := by
      by_contra hacc
      rw [Bool.not_eq_false, Execute.dataAccess, Bool.or_eq_true] at hacc
      rcases hacc with h' | h' <;> simp [System.irqAck, Datapath.irqAck, h.ex, h'] at hack
    have hslow : L.slow (σ.ex c).ctl.aluOp = false := by
      by_contra hslow
      rw [Bool.not_eq_false] at hslow
      exact hquiet (he.quiet (.inl (by rw [h.aluWait, hslow])))
    have hwait : s.core.aluWait c = false := by rw [h.aluWait, hslow]
    have hmwait : s.core.mwait = false := by rw [h.mwait, hplain]
    obtain ⟨ha, hepc⟩ := h.step_ack (i := i) he.stall hslow hplain 0 hexc hack
    refine ⟨[0], ha, hvec, ?_, ?_, hepc⟩
    · have hram : (σ.next c L 0).ram = s.ram := by
        rw [← h.ram_next (i := i) hplain 0, System.step_ram hmwait]
      rw [← hnop, ← hram]
      rfl
    · rw [System.finals_eq hwait, h.commits hslow hplain 0]
      simp [Seq.machine]
  | mul h hk => exact hquiet (he.quiet (.inl h.aluWait))
  | load h =>
    rw [h.irqAck_eq_false] at hack
    cases hack
  | release h => exact hquiet (he.quiet (.inr (.inl h.stall)))
  | vector h =>
    rw [h.irqAck_eq_false] at hack
    cases hack
  | ack h =>
    rw [h.ack] at hdly
    cases hdly

/-- The second cycle of an accepted interrupt. -/
theorem Tracks.step_again (h : Tracks L r s σ) (he : Enabled L s i σ)
    (hack : s.irqAck c = true) (hdly : s.core.irqAckDly = true) :
    Tracks L (L.latency + 5) (s.step c i) σ ∧ s.finals c i = [] ∧ r = L.latency + 6 := by
  have hno : ∀ {p : Prop}, s.core.irqAckDly = false → p := fun hf => by
    rw [hdly] at hf
    cases hf
  cases h with
  | fetch _ _ hd _ _ => exact hno hd
  | stray h _ => exact hno h.ack
  | access h => exact hno h.ack
  | decode h _ => exact hno h.ack
  | execute h => exact hno h.ack
  | mul h _ => exact hno h.ack
  | load h => exact hno h.ack
  | release h => exact hno h.ack
  | vector h =>
    rw [h.irqAck_eq_false] at hack
    cases hack
  | ack h hram hnop =>
    exact ⟨.vector (h.step he.stall) hram hnop, by
      rw [System.finals_eq h.aluWait, h.commits (h.mwait_of_noLoad h.noLoad)], rfl⟩

/-- Only the tracked instruction raises the exception. -/
theorem Tracks.atExecute_of_except (h : Tracks L r s σ) (hexc : s.core.ex.except = true) :
    AtExecute L s σ := by
  have hno : ∀ {p : Prop}, s.core.ex.except = false → p := fun hf => by
    rw [hexc] at hf
    cases hf
  cases h with
  | fetch h _ _ _ _ => exact hno h.harmless.system
  | stray h _ => exact hno h.harmless.system
  | access h => exact hno (Execute.except_of_branch_zero h.branch)
  | decode h _ => exact hno h.harmless.system
  | execute h => exact h
  | mul h _ =>
    have hb := (slow_shape L (σ.exclusive L) h.slow).2.2.2.1
    exact hno (Execute.except_of_branch_zero (by rw [h.ex, hb]))
  | load h =>
    have hb := (load_shape (σ.exclusive L) (Seq.memToReg_iff.mp h.load)).2.2
    exact hno (Execute.except_of_branch_zero (by rw [h.ex, hb]))
  | release h =>
    have hb := (slow_shape L h.exclusive h.slow).2.2.2.1
    exact hno (Execute.except_of_branch_zero hb)
  | vector h => exact hno h.harmless.system
  | ack h => exact hno h.harmless.system

/-- The cycle after an exception: the handler is about to be fetched, and the word
behind the killed one is on its way to decode. -/
structure AtTrap (L : Contract c) (s : System n α) (σ : Seq n) : Prop extends AtFetch L s σ where
  settled : s.intc.Settled
  ack : s.core.irqAckDly = false
  quiet : s.irqAck c = false
  inert : ∀ i, Harmless L (Rtl.decode c.control (s.core.instIn c s.intc.irq (s.dataIn c i))) σ.regs

theorem AtTrap.tracks (h : AtTrap L s σ) : Tracks L (L.latency + 5) s σ :=
  .fetch h.toAtFetch h.settled h.ack h.inert (.inl h.quiet)

/-- The exception commits nothing, the handler follows it, and the address two
words further on is saved. -/
theorem AtExecute.step_trap (h : AtExecute L s σ) (he : Enabled L s i σ)
    (hexc : s.core.ex.except = true) :
    AtTrap L (s.step c i) { σ with pc := s.intc.irqVector } ∧ s.finals c i = [] ∧
      (s.step c i).intc.irqEpc = σ.pc + 8 := by
  obtain ⟨hack, hirq', hvec, hram, hex⟩ := he.trap h hexc
  have hexc' : (σ.ex c).except = true := by rw [← h.ex, hexc]
  obtain ⟨hslow, hplain, hwrites, hstore⟩ := Seq.shape_of_except L hexc'
  have hwait : s.core.aluWait c = false := by rw [h.aluWait, hslow]
  have hmwait : s.core.mwait = false := by rw [h.mwait, hplain]
  obtain ⟨hf, hepc⟩ := h.step_except (i := i) he.stall hslow hplain 0 hexc'
  have hset := System.step_settled (c := c) he.stall h.settled h.ack
  have hcore := h.step he.stall hslow hplain 0
  have hdly : (s.step c i).core.irqAckDly = false := by rw [hcore, hack]
  have hack' : (s.step c i).irqAck c = false := by
    rw [System.irqAck, hirq', Datapath.irqAck_of_irq_false]
  -- The word behind the killed one is already on its way to decode.
  have hfetched := System.step_fetched (c := c) (i := i) hmwait he.stall
  have hmwait' := hf.mwait_of_noLoad hf.noLoad
  have hper : periphSel ((s.step c i).core.address c) = false := by
    rw [Datapath.address_eq_pc hmwait', hf.pc]
    exact periphSel_of_ramSel hvec
  rw [Seq.next_of_idle hwrites hstore] at hf
  refine ⟨{ hf with settled := hset, ack := hdly, quiet := hack', inert := fun i' => ?_ }, ?_, hepc⟩
  · rw [Datapath.instIn]
    split
    · exact harmless_bubble L _
    · rw [System.dataIn_fetched hfetched hram hper, System.step_ram hmwait, ← h.regs]
      exact hex
  · rw [System.finals_eq hwait, h.commits hslow hplain 0, Seq.effects_of_idle hwrites hstore]

/-! ## A slow instruction from start to end -/

section Slow

variable {x : ℕ → Input} (hstall : ∀ N, (x N).stall = false)
include hstall

/-- The rest of the wait. -/
theorem AtMul.run {k N : ℕ} (h : AtMul L k ((System.machine c).run s (Mealy.inputs x N)) σ)
    (io : Word) :
    AtRelease L ((System.machine c).run s (Mealy.inputs x (N + k + 1))) (σ.next c L io) ∧
      (System.machine c).trace s (Mealy.inputs x (N + k + 1)) =
        (System.machine c).trace s (Mealy.inputs x N) ++ σ.effects c L io := by
  induction k generalizing N with
  | zero =>
    obtain ⟨hr, hout⟩ := h.step_last (hstall N) io
    rw [Nat.add_zero, Mealy.run_inputs_succ, Mealy.trace_inputs_succ]
    exact ⟨hr, congrArg _ hout⟩
  | succ k ih =>
    obtain ⟨hm, hout⟩ := h.step (hstall N)
    have hmul : AtMul L k ((System.machine c).run s (Mealy.inputs x (N + 1))) σ := by
      rw [Mealy.run_inputs_succ]
      exact hm
    have htr : (System.machine c).trace s (Mealy.inputs x (N + 1)) =
        (System.machine c).trace s (Mealy.inputs x N) := by
      rw [Mealy.trace_inputs_succ]
      show _ ++ System.finals c _ _ = _
      rw [hout, List.append_nil]
    have hnext := ih hmul
    rwa [htr, show N + 1 + k + 1 = N + (k + 1) + 1 by omega] at hnext

/-- The instruction waits for its result, which it leaves as its only effect, and is
released. -/
theorem AtExecute.run_slow (h : AtExecute L s σ) (hslow : L.slow (σ.ex c).ctl.aluOp = true)
    (io : Word) :
    ∃ N ≤ L.latency + 2,
      AtRelease L ((System.machine c).run s (Mealy.inputs x N)) (σ.next c L io) ∧
      (System.machine c).trace s (Mealy.inputs x N) = σ.effects c L io := by
  obtain ⟨⟨k, hk, hm⟩, hout⟩ := h.step_slow (hstall 0) hslow
  have hmul : AtMul L k ((System.machine c).run s (Mealy.inputs x 1)) σ := by
    rw [Mealy.run_inputs_succ]
    exact hm
  obtain ⟨hr, htr⟩ := hmul.run hstall io
  refine ⟨1 + k + 1, by omega, hr, ?_⟩
  rw [htr, Mealy.trace_inputs_succ]
  show [] ++ System.finals c s (x 0) ++ _ = _
  rw [hout]
  rfl

end Slow

end HfRisc.Pipe
