import HfRisc.Pipe.Traps

/-!
# Interrupts and exceptions in one run

The program counters saved in a run with both may be imprecise: a request that comes up
in the cycle behind an exception saves the address of the handler itself. The pipeline
keeps track of a sequential machine all the same (`Live.step`), so that an
instruction in execute is there as `AtExecute` describes it, whatever the run before.
-/

namespace HfRisc.Pipe

open HfRisc.Rtl HfRisc.Lib

variable {n : ℕ} {α : Type} {c : Core α} {L : Contract c} {s : System n α} {σ : Seq n} {i : Input}
  {r : ℕ}

/-- What a program and its handler have to keep to: code in RAM, a NOP in RAM at the
vector whenever the handler is entered, and a harmless word two behind an exception. -/
structure Runnable (L : Contract c) (s : System n α) (i : Input) : Prop where
  stall : i.stall = false
  code : s.core.bubble c s.intc.irq = false → ramSel s.core.pcLast = true
  handler : s.irqAck c = true ∨ s.core.ex.except = true → ramSel s.intc.irqVector = true ∧
    swapBytes (s.ram (wordIndex n s.intc.irqVector)) = nop
  behind : s.core.ex.except = true → ramSel s.core.pc = true ∧
    Harmless L (decode c.control (swapBytes (s.ram (wordIndex n s.core.pc)))) s.core.regs

theorem Runnable.enabled (h : Runnable L s i) (hp : Prompt c s)
    (hexc : s.core.ex.except = false) : Enabled L s i σ where
  stall := h.stall
  code := fun _ hopen => h.code hopen
  handler := fun hack => h.handler (.inl hack)
  quiet := hp
  trap := fun _ h' => by
    rw [hexc] at h'
    cases h'

/-- A request comes up behind an exception: the handler is about to be fetched when it
is entered once more. -/
structure Reentering (L : Contract c) (s : System n α) (σ : Seq n) : Prop
    extends AtFetch L s σ where
  settled : s.intc.Settled
  ack : s.core.irqAckDly = false
  acked : s.irqAck c = true
  vector : s.intc.irqVector = σ.pc
  inRam : ramSel σ.pc = true
  nop : σ.fetch = nop

/-- The pipeline is in one of its phases. -/
inductive Live (L : Contract c) (s : System n α) : Prop
  | tracks {r : ℕ} {σ : Seq n} (h : Tracks L r s σ)
  | reentering {σ : Seq n} (h : Reentering L s σ)

theorem Start.live (h : Start L s σ) : Live L s := .tracks h.tracks

/-- The handler is fetched again. -/
theorem Reentering.step (h : Reentering L s σ) (hstall : i.stall = false) :
    AtAck L (s.step c i) { σ with pc := s.intc.irqVector } := by
  have hmwait := h.mwait_of_noLoad h.noLoad
  have hcore := h.toCalm.step hstall hmwait
  have hb : s.core.bubble c s.intc.irq = true := by
    rw [h.toCalm.bubble_eq h.noLoad, h.acked, Bool.or_true]
  refine atAck_of_accept hstall hmwait h.settled h.ack h.acked ?_ ?_ ?_
  · exact
      { h.toCalm.next hstall hmwait h.noLoad rfl rfl
          (by rw [Datapath.instIn_bubble hb]; exact harmless_bubble L _) with
        pc := by
          rw [hcore, h.acked]
          rfl
        noLoad := by
          rw [h.step_ex_bubble hstall hmwait hb]
          exact bubble_noLoad L }
  · rw [hcore, h.acked]
  · rw [hcore]

/-- Behind an exception the handler is fetched, the saved address is that of the word two
further on, and this word is harmless in decode. -/
theorem AtExecute.step_except_runnable (h : AtExecute L s σ) (hi : Runnable L s i)
    (hexc : s.core.ex.except = true) :
    AtFetch L (s.step c i) { σ with pc := s.intc.irqVector } ∧
      (s.step c i).intc.irqEpc = σ.pc + 8 ∧ (s.step c i).core.irqAckDly = s.irqAck c ∧
      (s.step c i).core.bds = false ∧
      ∀ i', Harmless L (decode c.control ((s.step c i).core.instIn c (s.step c i).intc.irq
        ((s.step c i).dataIn c i'))) σ.regs := by
  obtain ⟨hvec, -⟩ := hi.handler (.inr hexc)
  obtain ⟨hram, hbehind⟩ := hi.behind hexc
  have hexc' : (σ.ex c).except = true := by rw [← h.ex, hexc]
  obtain ⟨hslow, hplain, hwrites, hstore⟩ := Seq.shape_of_except L hexc'
  have hmwait : s.core.mwait = false := by rw [h.mwait, hplain]
  obtain ⟨hf, hepc⟩ := h.step_except (i := i) hi.stall hslow hplain 0 hexc'
  rw [Seq.next_of_idle hwrites hstore] at hf
  have hcore := h.step hi.stall hslow hplain 0
  have hbds : (s.step c i).core.bds = false := by
    rw [hcore]
    by_contra htaken
    rw [Bool.not_eq_false] at htaken
    rw [Seq.not_except_of_taken L htaken] at hexc'
    cases hexc'
  have hper : periphSel ((s.step c i).core.address c) = false := by
    rw [Datapath.address_eq_pc (hf.mwait_of_noLoad hf.noLoad), hf.pc]
    exact periphSel_of_ramSel hvec
  refine ⟨hf, hepc, by rw [hcore], hbds, fun i' => ?_⟩
  rw [Datapath.instIn]
  split
  · exact harmless_bubble L _
  · rw [System.dataIn_fetched (System.step_fetched hmwait hi.stall) hram hper,
      System.step_ram hmwait, ← h.regs]
    exact hbehind

/-- A request accepted in the cycle of an exception. -/
theorem AtExecute.step_except_ack (h : AtExecute L s σ) (hi : Runnable L s i)
    (hexc : s.core.ex.except = true) (hack : s.irqAck c = true) :
    AtAck L (s.step c i) { σ with pc := s.intc.irqVector } := by
  obtain ⟨hf, -, hdly, hbds, -⟩ := h.step_except_runnable hi hexc
  have hexc' : (σ.ex c).except = true := by rw [← h.ex, hexc]
  have hmwait : s.core.mwait = false := by rw [h.mwait, (Seq.shape_of_except L hexc').2.1]
  exact atAck_of_accept hi.stall hmwait h.settled h.ack hack hf (hdly.trans hack) hbds

/-- A request, or none, behind or along with an exception. -/
theorem AtExecute.live_of_except (h : AtExecute L s σ) (hi : Runnable L s i)
    (hexc : s.core.ex.except = true) : Live L (s.step c i) := by
  obtain ⟨hvec, hnop⟩ := hi.handler (.inr hexc)
  obtain ⟨hf, -, hdly, -, hbehind⟩ := h.step_except_runnable hi hexc
  have hword : Seq.fetch { σ with pc := s.intc.irqVector } = nop := by
    rw [← hnop, h.ram]
    rfl
  cases hack : s.irqAck c with
  | true => exact .tracks (.ack (h.step_except_ack hi hexc hack) hvec hword)
  | false =>
    have hset := System.step_settled (c := c) hi.stall h.settled h.ack
    rw [hack] at hdly
    cases hack' : (s.step c i).irqAck c with
    | true =>
      have hexc' : (σ.ex c).except = true := by rw [← h.ex, hexc]
      have hmwait : s.core.mwait = false := by rw [h.mwait, (Seq.shape_of_except L hexc').2.1]
      exact .reentering { hf with
        settled := hset
        ack := hdly
        acked := hack'
        vector := System.step_irqVector hmwait
        inRam := hvec
        nop := hword }
    | false => exact .tracks (.fetch hf hset hdly hbehind (.inl hack'))

/-- Every runnable cycle leads from phase to phase. -/
theorem Live.step (h : Live L s) (hi : Runnable L s i) (hp : Prompt c s) :
    Live L (s.step c i) := by
  rcases h with ⟨ht⟩ | ⟨hre⟩
  · cases hexc : s.core.ex.except with
    | true => exact (ht.atExecute_of_except hexc).live_of_except hi hexc
    | false =>
      obtain ⟨r', σ', ht'⟩ := ht.step (hi.enabled hp hexc) hexc
      exact .tracks ht'
  · refine .tracks (.ack (hre.step hi.stall) ?_ ?_)
    · rw [hre.vector]
      exact hre.inRam
    · rw [hre.vector]
      exact hre.nop

/-- So it does along a run whose requests are prompt. -/
theorem Live.run (h : Live L s) (hp : ∀ {s : System n α}, Live L s → Prompt c s) {is : List Input}
    (hi : (System.machine c).Along (Runnable L) s is) : Live L ((System.machine c).run s is) :=
  Mealy.run_invariant (System.machine c) (fun _ _ hs hi => hs.step hi (hp hs)) h hi

end HfRisc.Pipe
