import HfRisc.Sim.CacheCycle
import HfRisc.Sim.Frame

/-!
# The two simulators in lockstep

`retime` replaces what depends on the time in a state: the cycle count, the timers
and the causes. Everything else of the interpreter commutes with it, so two states
that differ only there stay so, as long as the program does not look at the time.
-/

namespace HfRisc.Sim

/-! ## States up to time -/

/-- What depends on the time. -/
structure Times where
  cause : Word
  s0cause : Word
  timercause : Word
  timercauseInv : Word
  timermask : Word
  timer0 : Word
  timer1 : Word
  timer1Pre : Word
  timer1Ctc : Word
  timer1Ocr : Word
  cycles : BitVec 64

/-- The time of a state. -/
def Base.times (b : Base) : Times where
  cause := b.cause
  s0cause := b.s0cause
  timercause := b.timercause
  timercauseInv := b.timercauseInv
  timermask := b.timermask
  timer0 := b.timer0
  timer1 := b.timer1
  timer1Pre := b.timer1Pre
  timer1Ctc := b.timer1Ctc
  timer1Ocr := b.timer1Ocr
  cycles := b.cycles

/-- The same state at another time. -/
def Base.retime (b : Base) (t : Times) : Base :=
  { b with
    cause := t.cause
    s0cause := t.s0cause
    timercause := t.timercause
    timercauseInv := t.timercauseInv
    timermask := t.timermask
    timer0 := t.timer0
    timer1 := t.timer1
    timer1Pre := t.timer1Pre
    timer1Ctc := t.timer1Ctc
    timer1Ocr := t.timer1Ocr
    cycles := t.cycles }

/-- The GPIO registers. -/
def gpioRegisters : List Word :=
  [GPIOCAUSE, GPIOCAUSEINV, GPIOMASK, PADDR, PAOUT, PAIN, PAININV, PAINMASK]

/-- The timer registers and the causes they lead to. -/
def timedRegisters : List Word :=
  [IRQ_CAUSE, S0CAUSE, TIMERCAUSE, TIMERCAUSE_INV, TIMERMASK, TIMER0, TIMER1, TIMER1_PRE,
    TIMER1_CTC, TIMER1_OCR]

namespace Base

variable {b : Base} {t : Times} {a v : Word}

theorem register_retime (ha : a ∉ timedRegisters) : (b.retime t).register a = b.register a := by
  simp only [timedRegisters, List.mem_cons, List.not_mem_nil, not_or] at ha
  obtain ⟨h₁, h₂, h₃, h₄, h₅, h₆, h₇, h₈, h₉, h₁₀, -⟩ := ha
  unfold register
  simp only [h₁, h₂, h₃, h₄, h₅, h₆, h₇, h₈, h₉, h₁₀, if_false]
  rfl

theorem logChar_retime : (b.retime t).logChar v = (b.logChar v).retime t := by
  show (if b.logEnabled then _ else _) = (if b.logEnabled then _ else _ : Base).retime t
  split <;> rfl

theorem setRegister_retime (ha : a ∉ timedRegisters) :
    (b.retime t).setRegister a v = (b.setRegister a v).map fun c => c.retime t := by
  simp only [timedRegisters, List.mem_cons, List.not_mem_nil, not_or] at ha
  obtain ⟨-, -, -, h₄, h₅, h₆, h₇, h₈, h₉, h₁₀, -⟩ := ha
  unfold setRegister
  simp only [h₄, h₅, h₆, h₇, h₈, h₉, h₁₀, if_false, apply_ite (Option.map _),
    Option.map_some, Option.map_none, logChar_retime]
  rfl

theorem getchar_retime :
    (b.retime t).getchar = (b.getchar.1, b.getchar.2.retime t) := by
  have hstdin : (b.retime t).stdin = b.stdin := rfl
  rw [getchar, getchar, hstdin]
  cases b.stdin <;> rfl

theorem poke_retime (size : Size) (k : BitVec 20) :
    (b.retime t).poke size k v = (b.poke size k v).retime t := by
  cases size <;> rfl

end Base

/-! ## Pairs of states -/

/-- The simulators have the same state up to time, and no exception is raised. -/
structure InStep (s : State) (c : CacheState) : Prop where
  base : ∃ t, c.toBase = s.toBase.retime t
  exception : s.exception = 0

/-- Both results are states in step, or both runs have stopped. -/
def Together : Except Stop State → Except Stop CacheState → Prop
  | .ok s, .ok c => InStep s c
  | .error _, .error _ => True
  | _, _ => False

theorem Together.bind {x : Except Stop State} {y : Except Stop CacheState}
    {f : State → Except Stop State} {g : CacheState → Except Stop CacheState}
    (h : Together x y) (hf : ∀ s c, x = .ok s → InStep s c → Together (f s) (g c)) :
    Together (x >>= f) (y >>= g) := by
  cases x with
  | error e =>
    cases y with
    | error e' => trivial
    | ok c => exact h.elim
  | ok s =>
    cases y with
    | error e' => exact h.elim
    | ok c => exact hf s c rfl h

namespace InStep

variable {s : State} {c : CacheState} (h : InStep s c)
include h

theorem r_eq : c.r = s.r := by
  obtain ⟨t, ht⟩ := h.base
  rw [ht]
  rfl

theorem pc_eq : c.pc = s.pc := by
  obtain ⟨t, ht⟩ := h.base
  rw [ht]
  rfl

theorem pcNext_eq : c.pcNext = s.pcNext := by
  obtain ⟨t, ht⟩ := h.base
  rw [ht]
  rfl

theorem mem_eq : c.mem = s.mem := by
  obtain ⟨t, ht⟩ := h.base
  rw [ht]
  rfl

theorem setReg (k : BitVec 5) (v : Word) : InStep (s.setReg k v) (c.setReg k v) where
  base := by
    obtain ⟨t, ht⟩ := h.base
    refine ⟨t, ?_⟩
    show c.toBase.setReg k v = _
    rw [ht]
    rfl
  exception := h.exception

theorem setPcNext (target : Word) :
    InStep { s with pcNext := target } { c with pcNext := target } where
  base := by
    obtain ⟨t, ht⟩ := h.base
    refine ⟨t, ?_⟩
    show { c.toBase with pcNext := target } = _
    rw [ht]
    rfl
  exception := h.exception

/-- A penalty is only time. -/
theorem charge (caches : Caches) (n : Word) :
    InStep s ({ c with caches := caches }.charge n) where
  base := by
    obtain ⟨t, ht⟩ := h.base
    refine ⟨{ t with cycles := c.cycles + n.setWidth 64, timer0 := c.timer0 + n }, ?_⟩
    show { c.toBase with cycles := c.cycles + n.setWidth 64, timer0 := c.timer0 + n } = _
    rw [ht]
    rfl
  exception := h.exception

theorem advance : InStep s.advance c.advance where
  base := by
    obtain ⟨t, ht⟩ := h.base
    refine ⟨(c.toBase.advance 0).times, ?_⟩
    show c.toBase.advance 0 = _
    rw [ht]
    rfl
  exception := h.exception

theorem operands_eq (w : Word) : c.operands w = s.operands w := by
  obtain ⟨t, ht⟩ := h.base
  rw [ht]
  rfl

theorem fetch_eq (a : Word) : c.fetch a = s.fetch a := by
  obtain ⟨t, ht⟩ := h.base
  rw [ht]
  rfl

theorem peek_eq (size : Size) (k : BitVec 20) : c.peek size k = s.peek size k := by
  obtain ⟨t, ht⟩ := h.base
  rw [ht]
  cases size <;> rfl

/-- Both read the same character. -/
theorem getchar : c.getchar.1 = s.getchar.1 ∧
    InStep { s with toBase := s.getchar.2 } { c with toBase := c.getchar.2 } := by
  obtain ⟨t, ht⟩ := h.base
  rw [ht, Base.getchar_retime]
  exact ⟨rfl, ⟨t, rfl⟩, h.exception⟩

end InStep

/-! ## Memory accesses -/

/-- A register that neither belongs to the GPIO port nor depends on the time. -/
def Plain (a : Word) : Prop := a ∉ gpioRegisters ∧ a ∉ timedRegisters

section Plain

variable {a v : Word} (ha : Plain a)
include ha

/-- Outside the GPIO port the registers are those of `Base`. -/
theorem State.register_of_plain (s : State) : s.register a = s.toBase.register a := by
  have hg := ha.1
  simp only [gpioRegisters, List.mem_cons, List.not_mem_nil, not_or] at hg
  obtain ⟨h₁, h₂, h₃, h₄, h₅, h₆, h₇, h₈, -⟩ := hg
  unfold State.register
  simp only [h₁, h₂, h₃, h₄, h₅, h₆, h₇, h₈, if_false]

theorem State.setRegister_of_plain (s : State) :
    s.setRegister a v = (s.toBase.setRegister a v).map fun b => { s with toBase := b } := by
  have hg := ha.1
  simp only [gpioRegisters, List.mem_cons, List.not_mem_nil, not_or] at hg
  obtain ⟨h₁, h₂, h₃, h₄, h₅, -, h₇, h₈, -⟩ := hg
  unfold State.setRegister
  simp only [h₁, h₂, h₃, h₄, h₅, h₇, h₈, if_false]

end Plain

/-- Reads give the same value to both, or stop both. -/
def TogetherWith : Except Stop (Word × State) → Except Stop (Word × CacheState) → Prop
  | .ok p, .ok q => q.1 = p.1 ∧ InStep p.2 q.2
  | .error _, .error _ => True
  | _, _ => False

namespace InStep

variable {s : State} {c : CacheState} (h : InStep s c) {size : Size} {a v : Word}
include h

theorem register_eq (ha : Plain a) : c.toBase.register a = s.register a := by
  obtain ⟨t, ht⟩ := h.base
  rw [State.register_of_plain ha, ht, Base.register_retime ha.2]

theorem memRead (ha : Plain a) : TogetherWith (s.memRead size a) (c.memRead size a) := by
  rw [State.memRead, CacheState.memRead, h.register_eq ha]
  by_cases hu : a = UART0
  · rw [if_pos hu, if_pos hu]
    exact ⟨h.getchar.1, h.getchar.2⟩
  rw [if_neg hu, if_neg hu]
  cases s.register a with
  | some value => exact ⟨rfl, h⟩
  | none =>
    dsimp only
    by_cases he : EXIT_TRAP ≤ a
    · rw [if_pos he, if_pos he]
      exact ⟨rfl, h⟩
    rw [if_neg he, if_neg he]
    by_cases hal : a &&& size.unaligned ≠ 0
    · rw [if_pos hal, if_pos hal]
      trivial
    · rw [if_neg hal, if_neg hal]
      -- the penalty is charged, the value comes from the same array
      exact ⟨(h.charge _ _).peek_eq size _, h.charge _ _⟩

/-- A store to the array, whatever was charged for it. -/
theorem poke (k : BitVec 20) : InStep { s with toBase := s.toBase.poke size k v }
    { c with toBase := c.toBase.poke size k v } where
  base := by
    obtain ⟨t, ht⟩ := h.base
    exact ⟨t, by rw [ht, Base.poke_retime]⟩
  exception := h.exception

/-- The second charge of a store, to `timer0` only. -/
theorem setTimer0 (n : Word) : InStep s { c with timer0 := n } where
  base := by
    obtain ⟨t, ht⟩ := h.base
    refine ⟨{ t with timer0 := n }, ?_⟩
    show { c.toBase with timer0 := n } = _
    rw [ht]
    rfl
  exception := h.exception

theorem memWrite (ha : Plain a) : Together (s.memWrite size a v) (c.memWrite size a v) := by
  rw [State.memWrite, CacheState.memWrite, State.setRegister_of_plain ha]
  by_cases hx : a = EXIT_TRAP
  · rw [if_pos hx, if_pos hx]
    trivial
  rw [if_neg hx, if_neg hx]
  obtain ⟨t, ht⟩ := h.base
  have hset : c.toBase.setRegister a v = (s.toBase.setRegister a v).map fun b => b.retime t := by
    rw [ht, Base.setRegister_retime ha.2]
  rw [hset]
  cases s.toBase.setRegister a v with
  | some b => exact ⟨⟨t, rfl⟩, h.exception⟩
  | none =>
    dsimp only [Option.map_none]
    by_cases he : EXIT_TRAP ≤ a
    · rw [if_pos he, if_pos he]
      exact h
    rw [if_neg he, if_neg he]
    by_cases hal : a &&& size.unaligned ≠ 0
    · rw [if_pos hal, if_pos hal]
      trivial
    · rw [if_neg hal, if_neg hal]
      exact ((h.charge _ _).setTimer0 _).poke _

end InStep

/-! ## Instructions -/

/-- What a row does is not seen to depend on the time: it is not the `SYSTEM` row, and
its access is not to the GPIO port, the timers or the causes. -/
def Action.Untimed : Action → Prop
  | .load _ _ address => Plain address
  | .store _ address _ => Plain address
  | .system => False
  | _ => True

/-- Interrupts are masked, and the next instruction is untimed. -/
structure Base.Untimed (b : Base) : Prop where
  masked : b.status = 0 ∨ b.mask = 0
  action : ∀ w, b.fetch b.pc = .ok w → (action w b.pc (b.operands w)).Untimed

/-- The state after a fetch that hits the array. -/
def CacheState.fetched (c : CacheState) (a : Word) : CacheState :=
  { c with caches := c.caches.setI (c.caches.icache.cacheRead a).2 }.charge
    (c.caches.icache.cacheRead a).1

theorem CacheState.memFetch_eq (c : CacheState) (a : Word) :
    c.memFetch a = (c.fetch a).map fun w => (w, c.fetched a) := by
  have hfetch : (c.fetched a).fetch a = c.fetch a := rfl
  show ((c.fetched a).fetch a >>= fun w => .ok (w, c.fetched a)) = _
  rw [hfetch]
  cases c.fetch a <;> rfl

namespace InStep

variable {s : State} {c : CacheState} (h : InStep s c)
include h

theorem perform {w : Word} {act : Action} (hact : act.Untimed) :
    Together (s.perform w act) (c.perform w act) := by
  cases act with
  | write v => exact h.setReg _ v
  | link target =>
    show InStep { s.setReg (index (rd w)) s.pcNext with pcNext := target }
      { c.setReg (index (rd w)) c.pcNext with pcNext := target }
    rw [h.pcNext_eq]
    exact (h.setReg _ _).setPcNext target
  | branch taken target =>
    cases taken with
    | true => exact h.setPcNext target
    | false => exact h
  | load type size a =>
    have hread : TogetherWith (s.memRead size a) (c.memRead size a) := h.memRead hact
    unfold State.perform CacheState.perform
    dsimp only
    revert hread
    cases s.memRead size a with
    | error e =>
      cases c.memRead size a with
      | error e' => exact id
      | ok q => exact False.elim
    | ok p =>
      cases c.memRead size a with
      | error e' => exact False.elim
      | ok q =>
        rintro ⟨hv, hst⟩
        show InStep (p.2.setReg _ (type.cast p.1)) (q.2.setReg _ (type.cast q.1))
        rw [hv]
        exact hst.setReg _ _
  | store size a v => exact h.memWrite hact
  | system => exact hact.elim
  | fail => trivial
  | undefined => trivial

theorem execute {w : Word} (hw : (action w s.pc (s.operands w)).Untimed) :
    Together (s.execute w) (c.execute w) := by
  unfold State.execute CacheState.execute
  rw [h.pc_eq, h.operands_eq]
  exact (h.setReg 0 0).perform hw

theorem takeInterrupt (hmask : s.status = 0 ∨ s.mask = 0) :
    s.takeInterrupt = s ∧ c.takeInterrupt = c := by
  have hs : ¬ s.pending := by
    unfold State.pending
    rcases hmask with hm | hm <;> simp [hm, h.exception]
  have hc : ¬ c.pending := by
    obtain ⟨t, ht⟩ := h.base
    have hstatus : c.status = s.status := by rw [ht]; rfl
    have hm : c.mask = s.mask := by rw [ht]; rfl
    unfold CacheState.pending
    rw [hstatus, hm]
    rcases hmask with hm | hm <;> simp [hm]
  exact ⟨if_neg hs, if_neg hc⟩

/-- One cycle of both. -/
theorem cycle (hu : s.toBase.Untimed) : Together s.cycle c.cycle := by
  obtain ⟨hs, hc⟩ := h.takeInterrupt hu.masked
  unfold State.cycle CacheState.cycle
  rw [hs, hc]
  dsimp only
  rw [CacheState.memFetch_eq, h.pc_eq, h.fetch_eq]
  cases hw : s.fetch s.pc with
  | error e =>
    have hf : s.memFetch s.pc = .error e := hw
    rw [hf]
    trivial
  | ok w =>
    have hf : s.memFetch s.pc = .ok w := hw
    rw [hf]
    -- the other simulator has looked the address up in its cache before
    show Together (s.execute w >>= fun s' => .ok s'.advance)
      ((c.fetched s.pc).execute w >>= fun c' => .ok c'.advance)
    exact ((h.charge _ _).execute (hu.action w hw)).bind fun _ _ _ h' => h'.advance

theorem drivePin : InStep s.drivePin c := ⟨h.base, h.exception⟩

end InStep

/-- As long as what the program does is untimed, the runs stay in step. -/
theorem together_run {s : State} {c : CacheState} (h : InStep s c) :
    ∀ k, (∀ j < k, ∀ t, run s j = .ok t → t.toBase.Untimed) →
      Together (run s k) (runCache c k)
  | 0, _ => h
  | k + 1, hq => by
    refine (together_run h k fun j hj => hq j (by omega)).bind fun t c' ht hstep => ?_
    exact hstep.drivePin.cycle (hq k (by omega) t ht)

end HfRisc.Sim
