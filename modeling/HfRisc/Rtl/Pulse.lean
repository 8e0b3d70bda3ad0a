import HfRisc.Rtl.Step

/-!
# Requests on their way

The state machine of the controller looks at the master bit of `IRQ_STATUS` when
it samples an interrupt line, two cycles before the request is up. A request that
is `InFlight` when the bit is cleared is raised all the same; if none is, the
controller is `Resting` and stays so until the bit is set again (`resting_run`).
-/

namespace HfRisc.Rtl

open HfRisc.Lib

namespace IntControl

/-- No request is raised, and none is on its way. -/
structure Resting (r : IntControl) : Prop where
  irq : r.irq = false
  state : r.pulseState ≠ .int
  next : r.pulseNextState ≠ .int

/-- The state machine samples an enabled line in this cycle. -/
structure Samples (r : IntControl) (stall : Bool) (x : BitVec 8) : Prop where
  stall : stall = false
  idle : r.pulseState = .idle
  line : r.interrupt x = true
  master : r.irqStatus.getLsbD 0 = true

/-- A request is up, on its way, or sampled in this cycle. -/
def InFlight (r : IntControl) (stall : Bool) (x : BitVec 8) : Prop :=
  r.irq = true ∨ r.pulseState = .int ∨ r.pulseNextState = .int ∨ r.Samples stall x

instance (r : IntControl) (stall : Bool) (x : BitVec 8) : Decidable (r.Samples stall x) :=
  decidable_of_iff
    (stall = false ∧ r.pulseState = .idle ∧ r.interrupt x = true ∧ r.irqStatus.getLsbD 0 = true)
    ⟨fun ⟨h₁, h₂, h₃, h₄⟩ => ⟨h₁, h₂, h₃, h₄⟩, fun ⟨h₁, h₂, h₃, h₄⟩ => ⟨h₁, h₂, h₃, h₄⟩⟩

instance (r : IntControl) (stall : Bool) (x : BitVec 8) : Decidable (r.InFlight stall x) :=
  inferInstanceAs (Decidable (_ ∨ _ ∨ _ ∨ _))

variable {r : IntControl} {b : CpuBus} {w : Word} {x : BitVec 8} {stall : Bool}

theorem resting_of_not_inFlight (h : ¬ r.InFlight stall x) : r.Resting where
  irq := by
    by_contra hirq
    exact h (.inl (by simpa using hirq))
  state hs := h (.inr (.inl hs))
  next hn := h (.inr (.inr (.inl hn)))

/-- With nothing in flight, the controller rests. -/
theorem resting_step (h : ¬ r.InFlight stall x) : (r.step stall b w x).Resting := by
  obtain ⟨hirq, hstate, hnext⟩ := resting_of_not_inFlight h
  cases stall with
  | true => exact ⟨hirq, hstate, hnext⟩
  | false =>
    have hout : (r.pulseStep b.irqAck x).1 = false ∧ (r.pulseStep b.irqAck x).2 ≠ .int := by
      rw [pulseStep]
      cases hs : r.pulseState with
      | idle =>
        have hno : ¬ (r.interrupt x = true ∧ r.irqStatus.getLsbD 0 = true) := by
          rintro ⟨hl, hm⟩
          exact h (.inr (.inr (.inr ⟨rfl, hs, hl, hm⟩)))
        simp only [if_neg hno]
        exact ⟨hirq, hnext⟩
      | int => exact absurd hs hstate
      | req => cases b.irqAck <;> simp [hirq, hnext]
      | ackn => simp [hirq]
      | done => cases r.irqStatus.getLsbD 0 <;> simp [hirq, hnext]
    exact ⟨hout.1, hnext, hout.2⟩

/-- And only then, unless the core is acknowledging. -/
theorem not_inFlight_of_resting (hack : b.irqAck = false) (h : (r.step stall b w x).Resting) :
    ¬ r.InFlight stall x := by
  obtain ⟨hirq, hstate, hnext⟩ := h
  cases stall with
  | true =>
    rintro (h | h | h | h)
    · rw [show (r.step true b w x).irq = r.irq from rfl, h] at hirq
      cases hirq
    · exact hstate h
    · exact hnext h
    · cases h.stall
  | false =>
    rw [show (r.step false b w x).irq = (r.pulseStep b.irqAck x).1 from rfl, hack] at hirq
    rw [show (r.step false b w x).pulseNextState = (r.pulseStep b.irqAck x).2 from rfl,
      hack] at hnext
    rintro (h | h | h | h)
    · cases hs : r.pulseState <;> simp [pulseStep, hs, h] at hirq
    · simp [pulseStep, h] at hirq
    · exact hstate h
    · simp [pulseStep, h.idle, h.line, h.master] at hnext

/-- Without an enabled line the controller keeps resting. -/
theorem Resting.step (h : r.Resting)
    (hline : r.interrupt x = false ∨ r.irqStatus.getLsbD 0 = false) :
    (r.step stall b w x).Resting := by
  refine resting_step ?_
  rintro (hirq | hstate | hnext | hs)
  · rw [h.irq] at hirq
    cases hirq
  · exact h.state hstate
  · exact h.next hnext
  · rcases hline with hl | hm
    · rw [hs.line] at hl
      cases hl
    · rw [hs.master] at hm
      cases hm

/-- A write that sets the master bit of `IRQ_STATUS`. -/
def SetsMaster (b : CpuBus) : Prop := writes b 0b0011 = true ∧ b.dataOut.getLsbD 24 = true

/-- A write that clears it. -/
def ClearsMaster (b : CpuBus) : Prop := writes b 0b0011 = true ∧ b.dataOut.getLsbD 24 = false

instance (b : CpuBus) : Decidable (SetsMaster b) := inferInstanceAs (Decidable (_ ∧ _))

instance (b : CpuBus) : Decidable (ClearsMaster b) := inferInstanceAs (Decidable (_ ∧ _))

/-- A cleared master bit stays so unless a write sets it. -/
theorem master_step (h : ClearsMaster b ∨ r.irqStatus.getLsbD 0 = false ∧ ¬ SetsMaster b) :
    (r.step stall b w x).irqStatus.getLsbD 0 = false := by
  have hwritten : (if writes b 0b0011 = true then b.dataOut.extractLsb' 24 8
      else r.irqStatus).getLsbD 0 = false := by
    split
    · rename_i hw
      have hbit : b.dataOut.getLsbD 24 = false := by
        rcases h with h | ⟨-, h⟩
        · exact h.2
        · by_contra hbit
          exact h ⟨hw, by simpa using hbit⟩
      rw [BitVec.getLsbD_extractLsb', hbit]
      rfl
    · rename_i hw
      rcases h with h | ⟨h, -⟩
      · exact absurd h.1 hw
      · exact h
  show (r.statusStep b).getLsbD 0 = false
  rw [statusStep]
  split
  · rw [BitVec.getLsbD_and]
    simp
  · exact hwritten

/-! ## From the master bit to the request -/

/-- Without an acknowledge, the request is up when it was, or when it is raised now. -/
theorem irq_step (hack : b.irqAck = false) :
    (r.step false b w x).irq = true ↔ r.irq = true ∨ r.pulseState = .int := by
  show (r.pulseStep b.irqAck x).1 = true ↔ _
  rw [hack, pulseStep]
  cases hs : r.pulseState <;> simp

theorem state_step : (r.step false b w x).pulseState = r.pulseNextState := rfl

/-- A machine that is not on its way to a request turns to it by sampling a line. -/
theorem next_step_int (hnext : r.pulseNextState ≠ .int) :
    (r.step false b w x).pulseNextState = .int ↔ r.Samples false x := by
  show (r.pulseStep b.irqAck x).2 = .int ↔ _
  have hsamples : r.Samples false x ↔
      r.pulseState = .idle ∧ r.interrupt x = true ∧ r.irqStatus.getLsbD 0 = true :=
    ⟨fun h => ⟨h.idle, h.line, h.master⟩, fun ⟨h₁, h₂, h₃⟩ => ⟨rfl, h₁, h₂, h₃⟩⟩
  rw [hsamples, pulseStep]
  cases hs : r.pulseState with
  | idle => simp [hnext]
  | int => simp
  | req => cases b.irqAck <;> simp [hnext]
  | ackn => simp
  | done => cases r.irqStatus.getLsbD 0 <;> simp [hnext]

/-- The cycles of the controller from a write of `IRQ_STATUS` on: the core
acknowledges nothing and writes no other register. -/
structure Window (r : ℕ → IntControl) (x : ℕ → BitVec 8) (N : ℕ) : Prop where
  step : ∀ k < N, ∃ b w, r (k + 1) = (r k).step false b w (x k) ∧ b.irqAck = false
  master : ∀ k < N, 0 < k → (r k).irqStatus.getLsbD 0 = true
  mask : ∀ k < N, (r k).irqMask = (r 0).irqMask

/-- The request is not up two and five cycles after the master bit is written: none is
in flight, and the machine does not sample a line in the next two cycles either. -/
structure Calms (r : IntControl) (x : ℕ → BitVec 8) : Prop where
  rest : ¬ r.InFlight false (x 0)
  first : r.pulseNextState = .idle → r.interrupt (x 1) = false
  second : (r.pulseStep false (x 0)).2 = .idle → r.interrupt (x 2) = false

section Window

variable {r : ℕ → IntControl} {x : ℕ → BitVec 8} {N : ℕ}

theorem Window.irq (h : Window r x N) {k : ℕ} (hk : k < N) :
    (r (k + 1)).irq = true ↔ (r k).irq = true ∨ (r k).pulseState = .int := by
  obtain ⟨b, w, hstep, hack⟩ := h.step k hk
  rw [hstep, irq_step hack]

theorem Window.state (h : Window r x N) {k : ℕ} (hk : k < N) :
    (r (k + 1)).pulseState = (r k).pulseNextState := by
  obtain ⟨b, w, hstep, -⟩ := h.step k hk
  rw [hstep, state_step]

theorem Window.next (h : Window r x N) {k : ℕ} (hk : k < N) (hnext : (r k).pulseNextState ≠ .int) :
    (r (k + 1)).pulseNextState = .int ↔ (r k).Samples false (x k) := by
  obtain ⟨b, w, hstep, -⟩ := h.step k hk
  rw [hstep, next_step_int hnext]

/-- After the write, the machine samples whenever it is idle and a line is high. -/
theorem Window.samples_iff (h : Window r x N) {k : ℕ} (hk : k < N) (hpos : 0 < k) :
    (r k).Samples false (x k) ↔ (r k).pulseState = .idle ∧ (r 0).interrupt (x k) = true := by
  have hline : (r k).interrupt (x k) = (r 0).interrupt (x k) := by
    rw [interrupt, interrupt, h.mask k hk]
  rw [← hline]
  exact ⟨fun hs => ⟨hs.idle, hs.line⟩, fun ⟨hi, hl⟩ => ⟨rfl, hi, hl, h.master k hk hpos⟩⟩

theorem Window.irq_two (h : Window r x 2) :
    (r 2).irq = true ↔
      (r 0).irq = true ∨ (r 0).pulseState = .int ∨ (r 0).pulseNextState = .int := by
  rw [h.irq (k := 1) (by omega), h.irq (k := 0) (by omega), h.state (k := 0) (by omega), or_assoc]

/-- With nothing in flight at the write, the request is down two cycles behind it. -/
theorem Window.irq_two_of_rest (h : Window r x 2) (hrest : ¬ (r 0).InFlight false (x 0)) :
    (r 2).irq = false := by
  have hr := resting_of_not_inFlight hrest
  rw [← Bool.not_eq_true, h.irq_two]
  rintro (hi | hi | hi)
  · rw [hr.irq] at hi
    cases hi
  · exact hr.state hi
  · exact hr.next hi

/-- The request is down in cycles two and five exactly when the controller calms. -/
theorem Window.calms_iff (h : Window r x 5) :
    ((r 2).irq = false ∧ (r 5).irq = false) ↔ (r 0).Calms x := by
  have h2 : Window r x 2 :=
    ⟨fun k hk => h.step k (by omega), fun k hk => h.master k (by omega),
      fun k hk => h.mask k (by omega)⟩
  have h₁ := h.state (k := 0) (by omega)
  have h₂ := h.state (k := 1) (by omega)
  have h₃ := h.state (k := 2) (by omega)
  have h₄ := h.state (k := 3) (by omega)
  have hfive : (r 5).irq = true ↔ (r 2).irq = true ∨ (r 1).pulseNextState = .int ∨
      (r 2).pulseNextState = .int ∨ (r 3).pulseNextState = .int := by
    rw [h.irq (k := 4) (by omega), h.irq (k := 3) (by omega), h.irq (k := 2) (by omega), h₂, h₃,
      h₄, or_assoc, or_assoc]
  have hnext : (r 1).pulseNextState = ((r 0).pulseStep false (x 0)).2 := by
    obtain ⟨b, w, hstep, hack⟩ := h.step 0 (by omega)
    rw [hstep]
    show ((r 0).pulseStep b.irqAck (x 0)).2 = _
    rw [hack]
  have hs₁ := h.samples_iff (k := 1) (by omega) Nat.one_pos
  have hs₂ := h.samples_iff (k := 2) (by omega) Nat.two_pos
  rw [h₁] at hs₁
  rw [h₂, hnext] at hs₂
  rw [← Bool.not_eq_true, ← Bool.not_eq_true]
  constructor
  · -- The four ways to be in flight come first, then the two samples within the window.
    rintro ⟨hirq₂, hirq₅⟩
    rw [hfive] at hirq₅
    have hrest := hirq₂
    rw [h2.irq_two] at hrest
    simp only [not_or] at hirq₅ hrest
    obtain ⟨hirq, hstate, hnext₀⟩ := hrest
    obtain ⟨-, hn₁, hn₂, hn₃⟩ := hirq₅
    rw [h.next (by omega) hnext₀] at hn₁
    have hn₁' : (r 1).pulseNextState ≠ .int := by rwa [Ne, h.next (by omega) hnext₀]
    rw [h.next (by omega) hn₁', hs₁] at hn₂
    have hn₂' : (r 2).pulseNextState ≠ .int := by rwa [Ne, h.next (by omega) hn₁', hs₁]
    rw [h.next (by omega) hn₂', hs₂] at hn₃
    refine ⟨?_, fun hi => ?_, fun hi => ?_⟩
    · rintro (hi | hi | hi | hi)
      exacts [hirq hi, hstate hi, hnext₀ hi, hn₁ hi]
    · exact Bool.eq_false_of_not_eq_true fun hl => hn₂ ⟨hi, hl⟩
    · exact Bool.eq_false_of_not_eq_true fun hl => hn₃ ⟨hi, hl⟩
  · -- No state on the way to the core becomes `int`, one cycle after the other.
    rintro ⟨hrest, hfirst, hsecond⟩
    have hr := resting_of_not_inFlight hrest
    have hirq₂ : ¬ (r 2).irq = true := by
      rw [h2.irq_two_of_rest hrest]
      exact Bool.false_ne_true
    have hn₁ : (r 1).pulseNextState ≠ .int := by
      rw [Ne, h.next (by omega) hr.next]
      exact fun hs => hrest (.inr (.inr (.inr hs)))
    have hn₂ : (r 2).pulseNextState ≠ .int := by
      rw [Ne, h.next (by omega) hn₁, hs₁]
      rintro ⟨hi, hl⟩
      rw [hfirst hi] at hl
      cases hl
    have hn₃ : (r 3).pulseNextState ≠ .int := by
      rw [Ne, h.next (by omega) hn₂, hs₂]
      rintro ⟨hi, hl⟩
      rw [hsecond hi] at hl
      cases hl
    refine ⟨hirq₂, ?_⟩
    rw [hfive]
    rintro (hi | hi | hi | hi)
    exacts [hirq₂ hi, hn₁ hi, hn₂ hi, hn₃ hi]

end Window

/-- A machine that waits in `done` calms whatever the lines do: it takes the next three
cycles to sample one. -/
theorem calms_of_done (hirq : r.irq = false) (hstate : r.pulseState = .done)
    (hnext : r.pulseNextState = .done) (hmaster : r.irqStatus.getLsbD 0 = false)
    (x : ℕ → BitVec 8) : r.Calms x where
  rest := by
    rintro (h | h | h | h)
    · rw [hirq] at h
      cases h
    · rw [hstate] at h
      cases h
    · rw [hnext] at h
      cases h
    · rw [h.master] at hmaster
      cases hmaster
  first h := by
    rw [hnext] at h
    cases h
  second h := by
    rw [pulseStep, hstate] at h
    simp only [hmaster, hnext] at h
    cases h

end IntControl

variable {n : ℕ} {α : Type} {c : Core α} {s : System n α} {i : Input}

/-- Once nothing is in flight and the master bit is clear, no request is up until a
write sets the bit again. -/
theorem resting_run {ins : List Input} (hrest : s.intc.Resting)
    (hmaster : s.intc.irqStatus.getLsbD 0 = false)
    (h : (System.rawMachine c).Along (fun s _ => ¬ IntControl.SetsMaster (s.bus c)) s ins) :
    ((System.rawMachine c).run s ins).intc.Resting := by
  refine (Mealy.run_invariant (System.rawMachine c)
    (I := fun s => s.intc.Resting ∧ s.intc.irqStatus.getLsbD 0 = false)
    (fun s i hs hi => ?_) ⟨hrest, hmaster⟩ h).1
  exact ⟨hs.1.step (.inr hs.2), IntControl.master_step (.inr ⟨hs.2, hi⟩)⟩

end HfRisc.Rtl
