import HfRisc.Sim.Cycle

/-!
# What the memory accesses of the simulator leave alone

Reads and writes of `mem_read` and `mem_write` do not touch the register array, and
`mem_write` changes the counters only through their addresses.
-/

namespace HfRisc.Sim

/-! ## The memory map -/

section Map

variable {a : Word} (h : a < EXIT_TRAP)
include h

theorem ne_of_lt_exit {c : Word} (hc : EXIT_TRAP ≤ c) : a ≠ c := by
  rintro rfl
  exact BitVec.not_lt.mpr hc h

/-- No register of the simulators lies below `EXIT_TRAP`. -/
theorem Base.register_of_lt (s : Base) : s.register a = none := by
  unfold Base.register
  repeat rw [if_neg (ne_of_lt_exit h (by decide))]

theorem Base.setRegister_of_lt (s : Base) (v : Word) : s.setRegister a v = none := by
  unfold Base.setRegister
  repeat rw [if_neg (ne_of_lt_exit h (by decide))]

theorem State.register_of_lt (s : State) : s.register a = none := by
  unfold State.register
  repeat rw [if_neg (ne_of_lt_exit h (by decide))]
  exact s.toBase.register_of_lt h

theorem State.setRegister_of_lt (s : State) (v : Word) : s.setRegister a v = none := by
  unfold State.setRegister
  repeat rw [if_neg (ne_of_lt_exit h (by decide))]
  rw [s.toBase.setRegister_of_lt h]
  rfl

end Map

/-! ## What is left alone -/

/-- What both branches give, the conditional gives. -/
theorem forall_mem_ite {α : Type} {P : α → Prop} {p : Prop} [Decidable p] {x y : Option α}
    (hx : ∀ t ∈ x, P t) (hy : ∀ t ∈ y, P t) : ∀ t ∈ (if p then x else y), P t := by
  split
  · exact hx
  · exact hy

/-- The counter that the timers are read off, and what `timer1` is compared with. -/
structure Base.SameTimer (s t : Base) : Prop where
  timer0 : t.timer0 = s.timer0
  timer1 : t.timer1 = s.timer1
  pre : t.timer1Pre = s.timer1Pre
  ctc : t.timer1Ctc = s.timer1Ctc
  cause : t.timercause = s.timercause

/-- The registers that move the timer. -/
def isTimer1 (address : Word) : Prop :=
  address = TIMER1 ∨ address = TIMER1_PRE ∨ address = TIMER1_CTC

instance (address : Word) : Decidable (isTimer1 address) :=
  inferInstanceAs (Decidable (_ ∨ _))

namespace Base

variable {s s' : Base} {address value : Word}

theorem getchar_r : s.getchar.2.r = s.r := by
  rw [getchar]
  split <;> rfl

theorem logChar_r : (s.logChar value).r = s.r := by
  rw [logChar]
  split <;> rfl

/-- A write to a register of the simulator is not a write to `r`. -/
theorem setRegister_r : ∀ t ∈ s.setRegister address value, t.r = s.r := by
  unfold setRegister
  repeat' apply forall_mem_ite
  all_goals rintro _ ⟨⟩
  all_goals first | rfl | exact logChar_r

theorem getchar_sameTimer : s.SameTimer s.getchar.2 := by
  rw [getchar]
  split <;> exact ⟨rfl, rfl, rfl, rfl, rfl⟩

theorem logChar_sameTimer : s.SameTimer (s.logChar value) := by
  rw [logChar]
  split <;> exact ⟨rfl, rfl, rfl, rfl, rfl⟩

theorem setRegister_sameTimer (ha : ¬ isTimer1 address) :
    ∀ t ∈ s.setRegister address value, s.SameTimer t := by
  simp only [isTimer1, not_or] at ha
  obtain ⟨h₁, hpre, hctc⟩ := ha
  unfold setRegister
  simp only [h₁, hpre, hctc, if_false]
  repeat' apply forall_mem_ite
  all_goals rintro _ ⟨⟩
  all_goals first | exact ⟨rfl, rfl, rfl, rfl, rfl⟩ | exact logChar_sameTimer

/-- The cycle count and `timer0` are not written. -/
theorem setRegister_clock :
    ∀ t ∈ s.setRegister address value, t.timer0 = s.timer0 ∧ t.cycles = s.cycles := by
  have hlog : (s.logChar value).timer0 = s.timer0 ∧ (s.logChar value).cycles = s.cycles := by
    rw [logChar]
    split <;> exact ⟨rfl, rfl⟩
  unfold setRegister
  repeat' apply forall_mem_ite
  all_goals rintro _ ⟨⟩
  all_goals first | exact ⟨rfl, rfl⟩ | exact hlog

theorem getchar_clock : s.getchar.2.timer0 = s.timer0 ∧ s.getchar.2.cycles = s.cycles := by
  rw [getchar]
  split <;> exact ⟨rfl, rfl⟩

end Base

namespace State

variable {s s' : State} {address value : Word} {size : Size}

/-- What holds of the writes to the shared registers holds of all. -/
theorem forall_setRegister {P : Base → Prop}
    (hgpio : ∀ t : State, t.toBase = s.toBase → P t.toBase)
    (hbase : ∀ b ∈ s.toBase.setRegister address value, P b) :
    ∀ t ∈ s.setRegister address value, P t.toBase := by
  unfold setRegister
  repeat' apply forall_mem_ite
  all_goals first | (rintro _ ⟨⟩; exact hgpio _ rfl) | skip
  intro t ht
  obtain ⟨b, hb, rfl⟩ := Option.map_eq_some_iff.mp ht
  exact hbase b hb

theorem setRegister_r : ∀ t ∈ s.setRegister address value, t.r = s.r :=
  forall_setRegister (P := fun b => b.r = s.r) (fun _ h => congrArg Base.r h) Base.setRegister_r

theorem setRegister_sameTimer (ha : ¬ isTimer1 address) :
    ∀ t ∈ s.setRegister address value, s.SameTimer t.toBase :=
  forall_setRegister (fun t h => by rw [h]; exact ⟨rfl, rfl, rfl, rfl, rfl⟩)
    (Base.setRegister_sameTimer ha)

/-- A read returns a state that differs at most in the characters still to be read. -/
theorem memRead_cases {p : Word × State} (h : s.memRead size address = .ok p) :
    p.2 = s ∨ p.2 = { s with toBase := s.getchar.2 } := by
  rw [memRead] at h
  repeat' split at h
  all_goals cases h
  · exact .inr rfl
  · exact .inl rfl
  · exact .inl rfl
  · exact .inl rfl

theorem memRead_r {p : Word × State} (h : s.memRead size address = .ok p) : p.2.r = s.r := by
  rcases memRead_cases h with hp | hp <;> rw [hp]
  exact Base.getchar_r

theorem memRead_sameTimer {p : Word × State} (h : s.memRead size address = .ok p) :
    s.SameTimer p.2.toBase := by
  rcases memRead_cases h with hp | hp <;> rw [hp]
  · exact ⟨rfl, rfl, rfl, rfl, rfl⟩
  · exact Base.getchar_sameTimer

/-- A write changes a register of the simulator, nothing, or the memory array. -/
theorem memWrite_cases (h : s.memWrite size address value = .ok s') :
    s.setRegister address value = some s' ∨ s' = s ∨
      ∃ mem, s' = { s with toBase := { s.toBase with mem := mem } } := by
  rw [memWrite] at h
  split at h
  · cases h
  split at h
  · rename_i t ht
    cases h
    exact .inl ht
  split at h
  · cases h
    exact .inr (.inl rfl)
  split at h
  · cases h
  · cases h
    exact .inr (.inr ⟨(s.poke size (Base.offset address) value).mem, by cases size <;> rfl⟩)

theorem memWrite_r (h : s.memWrite size address value = .ok s') : s'.r = s.r := by
  rcases memWrite_cases h with h | rfl | ⟨mem, rfl⟩
  · exact setRegister_r s' h
  · rfl
  · rfl

theorem memWrite_sameTimer (ha : ¬ isTimer1 address)
    (h : s.memWrite size address value = .ok s') : s.SameTimer s'.toBase := by
  rcases memWrite_cases h with h | rfl | ⟨mem, rfl⟩
  · exact setRegister_sameTimer ha s' h
  · exact ⟨rfl, rfl, rfl, rfl, rfl⟩
  · exact ⟨rfl, rfl, rfl, rfl, rfl⟩

end State

end HfRisc.Sim
