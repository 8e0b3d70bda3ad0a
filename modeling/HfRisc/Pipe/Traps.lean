import HfRisc.Pipe.Refinement

/-!
# Precise interrupts and exceptions

The pipeline tracks the sequential machine through any number of interrupts, as
long as every cycle is `Serviceable` and no request comes while the ALU holds the
pipeline (`Prompt`). At an acknowledge the writes committed so far are those of
the sequential machine up to some instruction, and the saved address, less four,
is the address of that instruction (`interrupt_precise`).

A `SYSTEM` instruction kills the word behind it, but not the one behind that: by
the time the handler is addressed, the word two further on is on its way to
decode, and executes. A run is `Trappable` while that word is `Harmless`. Then
nothing is committed between the exception and the handler, and the saved
address, less four, is that of the instruction behind the exception
(`precise_of_trap`).
-/

namespace HfRisc.Pipe

open HfRisc.Rtl HfRisc.Lib

variable {n : ℕ} {α : Type} {c : Core α} {L : Contract c} {s : System n α} {σ : Seq n} {i : Input}
  {r : ℕ}

/-- What a program and its handler have to keep to: code in RAM, a NOP in RAM at
the interrupt vector whenever an interrupt is accepted, no `SYSTEM` instruction. -/
structure Serviceable (c : Core α) (s : System n α) (i : Input) : Prop where
  stall : i.stall = false
  code : s.core.bubble c s.intc.irq = false → ramSel s.core.pcLast = true
  handler : s.irqAck c = true → ramSel s.intc.irqVector = true ∧
    swapBytes (s.ram (wordIndex n s.intc.irqVector)) = nop
  noSystem : s.core.ex.except = false

/-- No request while the ALU holds the pipeline, nor in the two cycles behind. -/
def Prompt (c : Core α) (s : System n α) : Prop :=
  s.core.aluWait c = true ∨ s.core.stallReg = true ∨ c.aluWait3 s.core.alu = true →
    s.intc.irq = false

theorem Serviceable.enabled (h : Serviceable c s i) (hp : Prompt c s) : Enabled L s i σ where
  stall := h.stall
  code := fun _ hopen => h.code hopen
  handler := h.handler
  quiet := hp
  trap := fun _ hexc => by
    rw [h.noSystem] at hexc
    cases hexc

/-- The cycles a run may consist of. -/
abbrev Condition (n : ℕ) (α : Type) := System n α → Input → Prop

/-- A condition under which the pipeline serves interrupts precisely. -/
def Precise (L : Contract c) (P : Condition n α) : Prop :=
  ∀ {r s σ i}, Tracks L r s σ → P s i → Serviceable c s i ∧ Prompt c s

/-- The states of a run from the start of a program. -/
inductive Reachable (L : Contract c) (P : Condition n α) : System n α → Prop
  | start {s : System n α} {σ : Seq n} (h : Start L s σ) : Reachable L P s
  | step {s : System n α} {i : Input} (h : Reachable L P s) (hi : P s i) :
      Reachable L P (s.step c i)

/-- Every serviceable cycle keeps track of the sequential machine. -/
theorem Tracks.step (h : Tracks L r s σ) (he : Enabled L s i σ) (hexc : s.core.ex.except = false) :
    ∃ r' σ', Tracks L r' (s.step c i) σ' := by
  cases hack : s.irqAck c with
  | false =>
    rcases h.step_quiet he hack hexc with ⟨r', -, ht, -⟩ | ⟨r', -, io, ht, -⟩
    · exact ⟨r', σ, ht⟩
    · exact ⟨r', _, ht⟩
  | true =>
    cases hdly : s.core.irqAckDly with
    | false =>
      obtain ⟨ios, ha, hram, hnop, -⟩ := h.step_accept he hack hdly hexc
      exact ⟨_, _, .ack ha hram hnop⟩
    | true => exact ⟨_, σ, (h.step_again he hack hdly).1⟩

theorem Reachable.tracks {P : Condition n α} (hP : Precise L P) (h : Reachable L P s) :
    ∃ r σ, Tracks L r s σ := by
  induction h with
  | start h => exact ⟨_, _, h.tracks⟩
  | step _ hi ih =>
    obtain ⟨r, σ, ht⟩ := ih
    obtain ⟨hsrv, hprompt⟩ := hP ht hi
    exact ht.step (hsrv.enabled hprompt) hsrv.noSystem

/-! ## Between two interrupts -/

/-- A request is accepted in this cycle. The core acknowledges each request twice
over, the second time while the first is being answered. -/
def accepts (c : Core α) (s : System n α) : Bool := s.irqAck c && !s.core.irqAckDly

theorem accepts_iff : accepts c s = true ↔ s.irqAck c = true ∧ s.core.irqAckDly = false := by
  rw [accepts, Bool.and_eq_true, Bool.not_eq_true']

/-- A cycle of a run in which no request is accepted. -/
def Uninterrupted (c : Core α) (P : Condition n α) (s : System n α) (i : Input) : Prop :=
  P s i ∧ accepts c s = false

theorem sequential_sim {P : Condition n α} (hP : Precise L P) :
    Mealy.Simulation (System.machine c) (Seq.machine c L) (Tracks L) (Uninterrupted c P)
      L.rank where
  step := by
    rintro r s σ i ht ⟨hi, hacc⟩
    obtain ⟨hsrv, hprompt⟩ := hP ht hi
    have he : Enabled L s i σ := hsrv.enabled hprompt
    cases hack : s.irqAck c with
    | true =>
      -- The second acknowledge of a request accepted before.
      have hdly : s.core.irqAckDly = true := by
        rw [accepts, hack, Bool.true_and] at hacc
        simpa using hacc
      obtain ⟨ht', hout, rfl⟩ := ht.step_again he hack hdly
      exact .inl ⟨_, Nat.lt_succ_self _, ht', hout⟩
    | false =>
      rcases ht.step_quiet he hack hsrv.noSystem with
        ⟨r', hlt, ht', hout⟩ | ⟨r', hle, io, ht', hout⟩
      · exact .inl ⟨r', hlt, ht', hout⟩
      · refine .inr ⟨r', hle, [io], List.cons_ne_nil _ _, ht', ?_⟩
        show s.finals c i = σ.effects c L io ++ []
        rw [hout, List.append_nil]

/-- From `s`, an uninterrupted run commits exactly what the instructions from `σ`
on do, one after another and without end. -/
def Executes (L : Contract c) (P : Condition n α) (s : System n α) (σ : Seq n) : Prop :=
  ∀ x : ℕ → Input,
    (∀ N, Uninterrupted c P ((System.machine c).run s (Mealy.inputs x N)) (x N)) →
    (∀ N, ∃ ios, (System.machine c).trace s (Mealy.inputs x N) = (Seq.machine c L).trace σ ios) ∧
    ∀ k, ∃ N ios, k ≤ ios.length ∧
      (System.machine c).trace s (Mealy.inputs x N) = (Seq.machine c L).trace σ ios

theorem Tracks.executes {P : Condition n α} (hP : Precise L P) (h : Tracks L r s σ) :
    Executes L P s σ := by
  intro x hx
  refine ⟨fun N => ?_, fun k => ?_⟩
  · obtain ⟨-, ios, -, htr⟩ := (sequential_sim hP).run h (Mealy.along_inputs _ hx N)
    exact ⟨ios, htr⟩
  · obtain ⟨N, -, ios, hlen, -, htr⟩ := (sequential_sim hP).reaches hx h k
    exact ⟨N, ios, hlen, htr⟩

/-- The same state with a request that is not yet accepted withdrawn. -/
def withdraw (s : System n α) : System n α :=
  if s.core.irqAckDly = true then s else
    { s with intc := { s.intc with irq := false, pulseState := .idle, pulseNextState := .idle } }

/-- A request that is not yet accepted has left no trace. -/
theorem Tracks.withdraw (h : Tracks L r s σ) : Tracks L r (withdraw s) σ := by
  rw [Pipe.withdraw]
  split
  · exact h
  rename_i hdly
  rw [Bool.not_eq_true] at hdly
  set s' : System n α :=
    { s with intc := { s.intc with irq := false, pulseState := .idle, pulseNextState := .idle } }
    with hs'
  have hset : s'.intc.Settled := List.mem_cons_self
  cases h with
  | fetch h _ _ hex hguard =>
    refine .fetch { h with } hset hdly (fun i => ?_) (.inl Datapath.irqAck_of_irq_false)
    rcases hguard with hack | hcool
    · have hb : s.core.bubble c false = s.core.bubble c s.intc.irq := by
        have hack' : s.core.irqAck c s.intc.irq = false := hack
        simp only [Datapath.bubble, hack', Datapath.irqAck_of_irq_false]
      have hword := hex i
      rw [Datapath.instIn, ← hb] at hword
      exact hword
    · exact inert_of_bubble (by simp [Datapath.bubble, hs', L.cooling_kill hcool]) i _
  | stray h hload =>
    exact .stray { h with
      settled := hset
      fetched := ⟨h.fetched.direct, h.fetched.word⟩ } hload
  | access h => exact .access { h with settled := hset }
  | decode h hload =>
    exact .decode { h with
      settled := hset
      fetched := ⟨h.fetched.direct, h.fetched.word⟩ } hload
  | execute h =>
    exact .execute { h with
      settled := hset
      pcs := ⟨h.pcs.pc, h.pcs.pcLast, h.pcs.pcLast2⟩
      fetched := ⟨h.fetched.direct, h.fetched.word⟩ }
  | mul h hk =>
    exact .mul { h with settled := hset, pcs := ⟨h.pcs.pc, h.pcs.pcLast, h.pcs.pcLast2⟩ } hk
  | load h => exact .load { h with settled := hset }
  | release h => exact .release { h with settled := hset }
  | vector h =>
    rw [h.ack] at hdly
    cases hdly
  | ack h =>
    rw [h.ack] at hdly
    cases hdly

/-! ## The acknowledge -/

/-- An accepted interrupt, from the acknowledge to the first instruction behind
the vector: three cycles, in the first of which at most one instruction commits. -/
theorem Tracks.enter (h : Tracks L r s σ) (hsrv : Serviceable c s i) (hprompt : Prompt c s)
    (hack : s.irqAck c = true) (hdly : s.core.irqAckDly = false) {i' i'' : Input}
    (hi' : i'.stall = false) (hi'' : i''.stall = false) :
    ∃ ios, (System.machine c).trace s [i, i', i''] = (Seq.machine c L).trace σ ios ∧
      ((System.machine c).run s [i, i', i'']).intc.irqEpc =
        ((Seq.machine c L).run σ ios).pc + 4 ∧
      AtDecode L ((System.machine c).run s [i, i', i''])
        { (Seq.machine c L).run σ ios with pc := s.intc.irqVector } := by
  obtain ⟨ios, ha, hram, hnop, hout, hepc⟩ :=
    h.step_accept (hsrv.enabled hprompt) hack hdly hsrv.noSystem
  have hv := ha.step (i := i') hi'
  have hout' : (s.step c i).finals c i' = [] := by
    rw [System.finals_eq ha.aluWait, ha.commits (ha.mwait_of_noLoad ha.noLoad)]
  have hout'' : ((s.step c i).step c i').finals c i'' = [] := by
    rw [System.finals_eq hv.aluWait, hv.commits (hv.mwait_of_noLoad hv.noLoad)]
  refine ⟨ios, ?_, ?_, hv.step hi'' hram hnop⟩
  · show s.finals c i ++ ((s.step c i).finals c i' ++
      (((s.step c i).step c i').finals c i'' ++ [])) = _
    rw [hout, hout', hout'', List.append_nil, List.append_nil, List.append_nil]
  · show (((s.step c i).step c i').step c i'').intc.irqEpc = _
    rw [hv.step_irqEpc, ha.step_irqEpc, hepc]

/-- Precise interrupts: what is committed before the handler is a prefix of the
sequential execution, the saved address is that of the first instruction missing
in it, and a program started there with the registers and the memory of that
moment commits the rest. -/
theorem precise_of_accept {P : Condition n α} (hP : Precise L P) (h : Reachable L P s)
    {x : ℕ → Input} {T : ℕ}
    (hx : ∀ N ≤ T + 2, P ((System.machine c).run s (Mealy.inputs x N)) (x N))
    (hfirst : ∀ N < T, accepts c ((System.machine c).run s (Mealy.inputs x N)) = false)
    (hacc : accepts c ((System.machine c).run s (Mealy.inputs x T)) = true) :
    ∃ σ ios, Executes L P (withdraw s) σ ∧
      (System.machine c).trace s (Mealy.inputs x (T + 3)) = (Seq.machine c L).trace σ ios ∧
      ((System.machine c).run s (Mealy.inputs x (T + 3))).intc.irqEpc - 4 =
        ((Seq.machine c L).run σ ios).pc ∧
      Executes L P ((System.machine c).run s (Mealy.inputs x (T + 3)))
        { (Seq.machine c L).run σ ios with
          pc := ((System.machine c).run s (Mealy.inputs x T)).intc.irqVector } ∧
      ∀ s' τ, Start L s' τ → τ.regs = ((Seq.machine c L).run σ ios).regs →
        τ.ram = ((Seq.machine c L).run σ ios).ram →
        τ.pc = ((System.machine c).run s (Mealy.inputs x (T + 3))).intc.irqEpc - 4 →
        Executes L P s' ((Seq.machine c L).run σ ios) := by
  obtain ⟨r, σ, ht⟩ := h.tracks hP
  obtain ⟨hack, hdly⟩ := accepts_iff.mp hacc
  -- Up to the acknowledge the run is uninterrupted.
  have halong : (System.machine c).Along (Uninterrupted c P) s (Mealy.inputs x T) :=
    (System.machine c).along_inputs_of_lt fun N hN => ⟨hx N (by omega), hfirst N hN⟩
  obtain ⟨r', ios, ht', htr⟩ := (sequential_sim hP).run ht halong
  obtain ⟨hsrv, hprompt⟩ := hP ht' (hx T (by omega))
  -- The acknowledge and the two cycles that fetch the vector.
  obtain ⟨r₁, σ₁, ht₁⟩ := ht'.step (hsrv.enabled hprompt) hsrv.noSystem
  rw [show ((System.machine c).run s (Mealy.inputs x T)).step c (x T) =
    (System.machine c).run s (Mealy.inputs x (T + 1)) from
      ((System.machine c).run_inputs_succ s x T).symm] at ht₁
  obtain ⟨hsrv₁, hprompt₁⟩ := hP ht₁ (hx (T + 1) (by omega))
  obtain ⟨r₂, σ₂, ht₂⟩ := ht₁.step (hsrv₁.enabled hprompt₁) hsrv₁.noSystem
  rw [show ((System.machine c).run s (Mealy.inputs x (T + 1))).step c (x (T + 1)) =
    (System.machine c).run s (Mealy.inputs x (T + 2)) from
      ((System.machine c).run_inputs_succ s x (T + 1)).symm] at ht₂
  obtain ⟨hsrv₂, -⟩ := hP ht₂ (hx (T + 2) (by omega))
  obtain ⟨ios', htr', hepc, hdec⟩ := ht'.enter hsrv hprompt hack hdly hsrv₁.stall hsrv₂.stall
  have hepc' : ((System.machine c).run s (Mealy.inputs x (T + 3))).intc.irqEpc - 4 =
      ((Seq.machine c L).run σ (ios ++ ios')).pc := by
    rw [Mealy.inputs_add_three, Mealy.run_append, Mealy.run_append, hepc]
    exact BitVec.add_sub_cancel _ _
  refine ⟨σ, ios ++ ios', ht.withdraw.executes hP, ?_, hepc', ?_,
    fun s' τ hstart hregs hram hpc => ?_⟩
  · rw [Mealy.inputs_add_three, Mealy.trace_append, Mealy.trace_append, htr, htr']
  · obtain ⟨r₃, -, ht₃⟩ := Tracks.of_decode hdec
    rw [Mealy.inputs_add_three, Mealy.run_append, Mealy.run_append]
    exact ht₃.executes hP
  · have hτ : τ = (Seq.machine c L).run σ (ios ++ ios') := by
      ext1
      · exact hregs
      · rw [hpc, hepc']
      · exact hram
    rw [← hτ]
    exact hstart.tracks.executes hP

end HfRisc.Pipe

/-! ## Precise exceptions -/

namespace HfRisc.Pipe

open HfRisc.Rtl HfRisc.Lib

variable {n : ℕ} {α : Type} {c : Core α} {L : Contract c} {s : System n α} {σ : Seq n} {i : Input}
  {r : ℕ}

/-- What a cycle without interrupts has to keep to: code in RAM, and behind an
exception a vector in RAM and a harmless word. -/
structure Trappable (L : Contract c) (s : System n α) (i : Input) : Prop
    extends Undisturbed s i where
  code : s.core.bubble c s.intc.irq = false → ramSel s.core.pcLast = true
  vector : s.core.ex.except = true → ramSel s.intc.irqVector = true
  behind : s.core.ex.except = true → ramSel s.core.pc = true ∧
    Harmless L (decode c.control (swapBytes (s.ram (wordIndex n s.core.pc)))) s.core.regs

theorem irqAck_of_resting (h : s.intc.Resting) : s.irqAck c = false := by
  rw [System.irqAck, h.irq, Datapath.irqAck_of_irq_false]

theorem Trappable.enabled (h : Trappable L s i) (hrest : s.intc.Resting) : Enabled L s i σ where
  stall := h.stall
  code := fun _ hopen => h.code hopen
  handler := fun hack => by
    rw [irqAck_of_resting hrest] at hack
    cases hack
  quiet := fun _ => hrest.irq
  trap := fun _ hexc => by
    have hrest' : (s.step c i).intc.Resting := hrest.step h.lines
    exact ⟨irqAck_of_resting hrest, hrest'.irq, h.vector hexc, (h.behind hexc).1, (h.behind hexc).2⟩

/-- A run without interrupts keeps track of the sequential machine through any
number of exceptions. -/
theorem Trappable.step (h : Trappable L s i) (hrest : s.intc.Resting) (ht : Tracks L r s σ) :
    ∃ r' σ', Tracks L r' (s.step c i) σ' := by
  cases hexc : s.core.ex.except with
  | true => exact ⟨_, _, ((ht.atExecute_of_except hexc).step_trap (h.enabled hrest) hexc).1.tracks⟩
  | false => exact ht.step (h.enabled hrest) hexc

/-- The state of a run without interrupts. -/
def Traps (L : Contract c) (s : System n α) : Prop :=
  s.intc.Resting ∧ ∃ r σ, Tracks L r s σ

theorem Start.traps (h : Start L s σ) (hrest : s.intc.Resting) : Traps L s :=
  ⟨hrest, _, _, h.tracks⟩

theorem Traps.run (h : Traps L s) {is : List Input}
    (hi : (System.machine c).Along (Trappable L) s is) : Traps L ((System.machine c).run s is) := by
  refine Mealy.run_invariant (System.machine c) (fun s i hs hi => ?_) h hi
  obtain ⟨hrest, r, σ, ht⟩ := hs
  exact ⟨hrest.step hi.lines, hi.step hrest ht⟩

/-- In decode, the pipeline moves on silently. -/
theorem AtDecode.silent (h : AtDecode L s σ) (hstall : i.stall = false) (hack : s.irqAck c = false)
    (hram : ramSel σ.pc = true) : ∃ r', Tracks L r' (s.step c i) σ ∧ s.finals c i = [] := by
  cases hload : s.core.ex.memToReg with
  | true =>
    obtain ⟨hacc, hcommits⟩ := h.step_stray hstall hload
    exact ⟨_, .access hacc, by rw [System.finals_eq h.aluWait, hcommits]⟩
  | false =>
    exact ⟨_, .execute (h.step_execute hstall hload hack hram),
      by rw [System.finals_eq h.aluWait, h.commits (h.mwait_of_noLoad hload)]⟩

/-- An exception, from execute to the first instruction of the handler there:
three cycles in which nothing commits. -/
theorem AtExecute.enter_trap (h : AtExecute L s σ) (hrest : s.intc.Resting)
    (hexc : s.core.ex.except = true) {i' i'' : Input} (hi : Trappable L s i)
    (hi' : Undisturbed (s.step c i) i')
    (hi'' : Undisturbed ((s.step c i).step c i') i'') :
    (System.machine c).trace s [i, i', i''] = [] ∧
      ((System.machine c).run s [i, i', i'']).intc.irqEpc = σ.pc + 8 ∧
      ∃ r', Tracks L r' ((System.machine c).run s [i, i', i''])
        { σ with pc := s.intc.irqVector } := by
  obtain ⟨hf, hout, hepc⟩ := h.step_trap (hi.enabled hrest) hexc
  have hrest' : (s.step c i).intc.Resting := hrest.step hi.lines
  have hrest'' : ((s.step c i).step c i').intc.Resting := hrest'.step hi'.lines
  have hd := hf.step_decode hf.settled hf.ack hi'.stall hf.quiet (hf.inert i')
  have hout' : (s.step c i).finals c i' = [] := by
    rw [System.finals_eq hf.aluWait, hf.commits (hf.mwait_of_noLoad hf.noLoad)]
  obtain ⟨r', ht, hout''⟩ := hd.silent hi''.stall (irqAck_of_resting hrest'') (hi.vector hexc)
  refine ⟨?_, ?_, r', ht⟩
  · show s.finals c i ++ ((s.step c i).finals c i' ++
      (((s.step c i).step c i').finals c i'' ++ [])) = []
    rw [hout, hout', hout'']
    rfl
  · show (((s.step c i).step c i').step c i'').intc.irqEpc = _
    rw [System.step_irqEpc_hold (.inl hrest''.irq) hd.harmless.system,
      System.step_irqEpc_hold (.inl hrest'.irq) hf.harmless.system, hepc]

/-- Precise exceptions: nothing is committed up to the handler, the saved address
is that of the instruction behind the exception, and the handler and whoever
returns find the registers and the memory of the exception. -/
theorem precise_of_trap {P : Condition n α} (hP : Precise L P) {s₀ : System n α} {σ₀ : Seq n}
    (hstart : Start L s₀ σ₀) (hrest : s₀.intc.Resting) {x : ℕ → Input} {T : ℕ}
    (hx : ∀ N ≤ T + 2, Trappable L ((System.machine c).run s₀ (Mealy.inputs x N)) (x N))
    (hs : s = (System.machine c).run s₀ (Mealy.inputs x T)) (hexc : s.core.ex.except = true) :
    s.core.ex = decode c.control (swapBytes (s.ram (wordIndex n s.core.pcLast2))) ∧
      (System.machine c).trace s₀ (Mealy.inputs x (T + 3)) =
        (System.machine c).trace s₀ (Mealy.inputs x T) ∧
      ((System.machine c).run s₀ (Mealy.inputs x (T + 3))).intc.irqEpc - 4 = s.core.pcLast2 + 4 ∧
      Executes L P ((System.machine c).run s₀ (Mealy.inputs x (T + 3)))
        ⟨s.core.regs, s.intc.irqVector, s.ram⟩ ∧
      ∀ s', Start L s' ⟨s.core.regs,
          ((System.machine c).run s₀ (Mealy.inputs x (T + 3))).intc.irqEpc - 4, s.ram⟩ →
        Executes L P s' ⟨s.core.regs, s.core.pcLast2 + 4, s.ram⟩ := by
  have halong : (System.machine c).Along (Trappable L) s₀ (Mealy.inputs x T) :=
    (System.machine c).along_inputs_of_lt fun N hN => hx N (by omega)
  obtain ⟨hrest', r, σ, ht⟩ := (hstart.traps hrest).run halong
  have h₀ := hx T (by omega)
  have h₁ := (hx (T + 1) (by omega)).toUndisturbed
  have h₂ := (hx (T + 2) (by omega)).toUndisturbed
  rw [Mealy.run_inputs_succ] at h₁
  rw [Mealy.run_inputs_succ, Mealy.run_inputs_succ] at h₂
  rw [← hs] at hrest' ht h₀ h₁ h₂
  have he := ht.atExecute_of_except hexc
  obtain ⟨hout, hepc, r', ht'⟩ := he.enter_trap hrest' hexc h₀ h₁ h₂
  have hend : (System.machine c).run s₀ (Mealy.inputs x (T + 3)) =
      (System.machine c).run s [x T, x (T + 1), x (T + 2)] := by
    rw [Mealy.inputs_add_three, Mealy.run_append, ← hs]
  have hpc : ((System.machine c).run s₀ (Mealy.inputs x (T + 3))).intc.irqEpc - 4 =
      s.core.pcLast2 + 4 := by
    rw [hend, hepc, he.pcs.pcLast2]
    calc σ.pc + 8 - 4 = σ.pc + 4 + 4 - 4 := by rw [BitVec.add_assoc]; rfl
      _ = σ.pc + 4 := BitVec.add_sub_cancel _ _
  refine ⟨?_, ?_, hpc, ?_, fun s' hs' => ?_⟩
  · rw [he.ex, he.ram, he.pcs.pcLast2]
    rfl
  · rw [Mealy.inputs_add_three, Mealy.trace_append, ← hs, hout, List.append_nil]
  · rw [hend, he.regs, he.ram]
    exact ht'.executes hP
  · rw [← hpc]
    exact hs'.tracks.executes hP

end HfRisc.Pipe
