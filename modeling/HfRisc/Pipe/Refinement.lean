import HfRisc.Isa.Refine
import HfRisc.Pipe.Track
import HfRisc.Rtl.Pulse

/-!
# The pipeline refines the instruction set

Without interrupts, the tracked pipeline executes the instruction set: the
simulation between the two machines, for a core that implements it. The relation
carries that the program is well behaved from here on and that the interrupt
controller rests.
-/

namespace HfRisc.Pipe

open HfRisc.Rtl HfRisc.Lib HfRisc.Isa

variable {n : ℕ} {α : Type} {c : Core α} {L : Contract c} {s : System n α} {σ : Seq n} {i : Input}
  {m : Bool} {r : ℕ}

/-- A cycle without an external stall and without an enabled interrupt line. -/
structure Undisturbed (s : System n α) (i : Input) : Prop where
  stall : i.stall = false
  lines : s.intc.interrupt i.extioIn = false ∨ s.intc.irqStatus.getLsbD 0 = false

/-- A program that stays legal, in RAM and aligned, and never computes an odd
`JALR` sum. -/
structure WellBehaved (m : Bool) (a : State n) : Prop where
  ok : ∀ k, (Isa.run m a k).Ok m
  even : ∀ k, (Isa.run m a k).EvenTarget m

theorem WellBehaved.step {a : State n} (h : WellBehaved m a) : WellBehaved m (a.step m) where
  ok k := h.ok (k + 1)
  even k := h.even (k + 1)

/-- A legal instruction raises no exception. -/
theorem not_except_of_legal (hI : Implements L m) {ins : Instr}
    (h : Isa.decode m σ.fetch = some ins) : (σ.ex c).except = false := by
  have hzero : (σ.ex c).ctl.branch = 0 → (σ.ex c).except = false :=
    Execute.except_of_branch_zero
  rcases decode_cases h with ⟨ho, -⟩ | ⟨ho, -⟩ | ⟨ho, -⟩ | ⟨ho, -⟩ | ⟨ho, o, hf, -⟩ |
    ⟨ho, o, hf, -⟩ | ⟨ho, o, hf, -⟩ | ⟨ho, o, hf, -⟩ | ⟨ho, o, hf, -⟩ | ⟨ho, hm, o, hf, -⟩ | ⟨ho, -⟩
  · exact hzero (by rw [ctl_eq, ho, hI.rows _ _ _ (by decide) (by decide)]; rfl)
  · exact hzero (by rw [ctl_eq, ho, hI.rows _ _ _ (by decide) (by decide)]; rfl)
  · exact hzero (by rw [ctl_eq, ho, hI.rows _ _ _ (by decide) (by decide)]; rfl)
  · exact hzero (by rw [ctl_eq, ho, hI.rows _ _ _ (by decide) (by decide)]; rfl)
  · rw [Execute.except, ctl_eq, ho, hI.rows _ _ _ (by decide) (by decide), row_branch hf]
    cases o <;> rfl
  · exact hzero (by rw [ctl_eq, ho, hI.rows _ _ _ (by decide) (by decide), row_load hf]; rfl)
  · exact hzero (by rw [ctl_eq, ho, hI.rows _ _ _ (by decide) (by decide), row_store hf]; rfl)
  · obtain ⟨_, _, hrow, -⟩ := hI.opImm hf
    exact hzero (by rw [ctl_eq, ho, hrow]; rfl)
  · obtain ⟨_, hrow, -⟩ := hI.op hf
    exact hzero (by rw [ctl_eq, ho, hrow]; rfl)
  · obtain ⟨_, hrow, -⟩ := hI.mul hm hf
    exact hzero (by rw [ctl_eq, ho, hrow]; rfl)
  · exact hzero (by rw [ctl_eq, ho, hI.rows _ _ _ (by decide) (by decide)]; rfl)

/-- The simulation relation. -/
structure Refines (L : Contract c) (m : Bool) (r : ℕ) (s : System n α) (a : State n) : Prop where
  tracks : ∃ σ, Tracks L r s σ ∧ ofSeq σ = a
  resting : s.intc.Resting
  good : WellBehaved m a

/-- Behind an open decode stage the instruction in execute stays on the straight
line. -/
theorem AtExecute.straight_of_open (h : AtExecute L s σ)
    (hopen : s.core.bubble c s.intc.irq = false) : σ.taken c L = false := by
  cases hslow : L.slow (σ.ex c).ctl.aluOp with
  | true =>
    obtain ⟨-, -, hjump, hbranch, -⟩ := slow_shape L (σ.exclusive L) hslow
    exact Seq.taken_of_straight hjump hbranch
  | false =>
    rw [← h.taken hslow]
    simp only [Datapath.bubble, Bool.or_eq_false_iff] at hopen
    rw [hopen.1.1.1.2, hopen.1.1.2]
    rfl

/-- An undisturbed cycle of a well-behaved program is enabled. -/
theorem enabled_of_wellBehaved (hI : Implements L m) (hgood : WellBehaved m (ofSeq σ))
    (hrest : s.intc.Resting) (hi : Undisturbed s i) : Enabled L s i σ := by
  have hok := hgood.ok 0
  have hack : s.irqAck c = false := by
    rw [System.irqAck, hrest.irq, Datapath.irqAck_of_irq_false]
  obtain ⟨ins, hdec, -, -⟩ := hok.legal
  rw [show Isa.run m (ofSeq σ) 0 = ofSeq σ from rfl, fetch_ofSeq hok.aligned] at hdec
  exact
    { stall := hi.stall
      code := by
        rintro (h | h) hopen
        · rw [h.pcLast]
          exact hok.ram
        · have hnext := (hgood.ok 1).ram
          have hstep := (next_eq_step hI hok (hgood.even 0) 0).1
          rw [show Isa.run m (ofSeq σ) 1 = (ofSeq σ).step m from rfl, ← hstep] at hnext
          have hpc : (ofSeq (σ.next c L 0)).pc = σ.pc + 4 := by
            simp [ofSeq, Seq.next, h.straight_of_open hopen]
          rw [h.pcs.pcLast, ← hpc]
          exact hnext
      handler := fun h => by
        rw [hack] at h
        cases h
      quiet := fun _ => hrest.irq
      trap := fun h hexc => by
        rw [h.ex, not_except_of_legal hI hdec] at hexc
        cases hexc }

/-- The pipeline simulates the instruction set. -/
theorem refines_sim (hI : Implements L m) :
    Mealy.Simulation (System.machine (n := n) c) (Isa.machine n m) (Refines L m) Undisturbed
      L.rank where
  step := by
    rintro r s a i ⟨⟨σ, ht, rfl⟩, hrest, hgood⟩ hi
    have hrest' : ((System.machine c).step s i).intc.Resting := hrest.step hi.lines
    have he := enabled_of_wellBehaved (i := i) hI hgood hrest hi
    have hack : s.irqAck c = false := by
      rw [System.irqAck, hrest.irq, Datapath.irqAck_of_irq_false]
    have hexc : s.core.ex.except = false := by
      by_contra hexc
      rw [Bool.not_eq_false] at hexc
      obtain ⟨ins, hdec, -, -⟩ := (hgood.ok 0).legal
      rw [show Isa.run m (ofSeq σ) 0 = ofSeq σ from rfl,
        fetch_ofSeq (hgood.ok 0).aligned] at hdec
      rw [(ht.atExecute_of_except hexc).ex, not_except_of_legal hI hdec] at hexc
      cases hexc
    rcases ht.step_quiet he hack hexc with ⟨r', hlt, ht', hout⟩ | ⟨r', hle, io, ht', hout⟩
    · exact .inl ⟨r', hlt, ⟨⟨σ, ht', rfl⟩, hrest', hgood⟩, hout⟩
    · obtain ⟨hstate, heff⟩ := next_eq_step hI (hgood.ok 0) (hgood.even 0) io
      refine .inr ⟨r', hle, [()], List.cons_ne_nil _ _, ⟨⟨_, ht', hstate⟩, hrest', hgood.step⟩, ?_⟩
      show s.finals c i = (ofSeq σ).effects m ++ []
      rw [hout, heff, List.append_nil]

/-- A list of units is determined by its length. -/
theorem eq_replicate_unit (es : List Unit) : es = List.replicate es.length () :=
  List.eq_replicate_iff.mpr ⟨rfl, fun _ _ => rfl⟩

/-- Every prefix of the run of a well-behaved program has the effects of a prefix
of its execution, and ends in the state after it. -/
theorem refines_run (hI : Implements L m) (h : Start L s σ) (hrest : s.intc.Resting)
    (hgood : WellBehaved m (ofSeq σ)) {x : ℕ → Input}
    (hx : ∀ N, Undisturbed ((System.machine c).run s (Mealy.inputs x N)) (x N)) (N : ℕ) :
    ∃ k r, Refines L m r ((System.machine c).run s (Mealy.inputs x N)) (Isa.run m (ofSeq σ) k) ∧
      (System.machine c).trace s (Mealy.inputs x N) = Isa.trace m (ofSeq σ) k := by
  have hR : Refines L m (L.latency + 5) s (ofSeq σ) := ⟨⟨σ, h.tracks, rfl⟩, hrest, hgood⟩
  obtain ⟨r, es, hR', htr⟩ := (refines_sim hI).run hR (Mealy.along_inputs _ hx N)
  rw [eq_replicate_unit es] at hR' htr
  exact ⟨es.length, r, hR', htr⟩

/-- And every prefix of its execution is reached. -/
theorem refines_reaches (hI : Implements L m) (h : Start L s σ) (hrest : s.intc.Resting)
    (hgood : WellBehaved m (ofSeq σ)) {x : ℕ → Input}
    (hx : ∀ N, Undisturbed ((System.machine c).run s (Mealy.inputs x N)) (x N)) (k : ℕ) :
    ∃ N, ∃ k' ≥ k,
      (System.machine c).trace s (Mealy.inputs x N) = Isa.trace m (ofSeq σ) k' := by
  have hR : Refines L m (L.latency + 5) s (ofSeq σ) := ⟨⟨σ, h.tracks, rfl⟩, hrest, hgood⟩
  obtain ⟨N, r, es, hlen, -, htr⟩ := (refines_sim hI).reaches hx hR k
  rw [eq_replicate_unit es] at htr
  exact ⟨N, es.length, hlen, htr⟩

end HfRisc.Pipe
