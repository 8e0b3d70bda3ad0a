import HfRisc.Results.InterruptLocality

/-!
# One visit of the dispatcher

Where no source toggles while the dispatcher (`interrupt.c` 165-268) runs, it calls the handlers of
exactly the sources that were pending when it was entered, each once, ports before timers and each
kind in ascending order, and leaves none of them pending (`dispatch_serves`). This is shown for a
world that stands still for ever (`serves_of_still`), and what happens behind the visit does not
matter to it (`local_irqHandler`).
-/

namespace HfRisc.Results

open HfRisc.Soft HfRisc.Lib

variable {env : World} {m : Machine} {p : Peripherals} {hs : List Handler} {w : ℕ}

/-! ## A world that stands still -/

/-- The machine has these peripherals and calls, and nothing toggles from now on. -/
structure At (env : World) (m : Machine) (p : Peripherals) (hs : List Handler) : Prop where
  soc : m.soc = p
  calls : m.calls = hs
  still : ∀ t ≥ m.time, env.change t = Change.none

theorem toggle_none (p : Peripherals) : p.toggle Change.none = p := by
  obtain ⟨⟨pins, inv, mask⟩, ⟨pins', inv', mask'⟩, ginv, gmask, t, tinv, tmask, uart, spi⟩ := p
  simp [Peripherals.toggle, Change.none]

namespace At

variable (h : At env m p hs)
include h

theorem tick : At env (m.tick env) p hs where
  soc := by
    show m.soc.toggle (env.change m.time) = p
    rw [h.still _ le_rfl, toggle_none, h.soc]
  calls := h.calls
  still t ht := h.still t (Nat.le_of_succ_le ht)

theorem elapse : At env (m.elapse env) p hs := by
  have hticks : ∀ n m, At env m p hs → At env ((Machine.tick env)^[n] m) p hs := by
    intro n
    induction n with
    | zero => exact fun _ h => h
    | succ n ih => exact fun m h => ih _ h.tick
  exact hticks _ m h

theorem read (f : Peripherals → BitVec w) : (m.read env f).1 = (f p).setWidth 32 := by
  show (f (m.elapse env).soc).setWidth 32 = _
  rw [h.elapse.soc]

theorem write (f : Peripherals → Peripherals) : At env (m.write env f) (f p) hs where
  soc := congrArg f h.elapse.soc
  calls := h.elapse.calls
  still := h.elapse.still

theorem call (k : Handler) : At env (m.call env k) p (hs ++ [k]) where
  soc := h.elapse.soc
  calls := congrArg (· ++ [k]) h.calls
  still := h.elapse.still

end At

/-! ## The services -/

/-- The changed pins are acknowledged. -/
def servedPort (q : GpioPort) : GpioPort := { q with inv := q.inv ^^^ q.changed }

theorem changed_served (q : GpioPort) : (servedPort q).changed = 0 := by
  show (q.pins ^^^ (q.inv ^^^ ((q.pins ^^^ q.inv) &&& q.mask))) &&& q.mask = 0
  apply BitVec.eq_of_getLsbD_eq
  intro i hi
  simp only [BitVec.getLsbD_and, BitVec.getLsbD_xor]
  cases q.pins.getLsbD i <;> cases q.inv.getLsbD i <;> cases q.mask.getLsbD i <;> simp

/-- The service of port `i`. -/
def servedGpio (p : Peripherals) (i : ℕ) : Peripherals :=
  if i = 0 then { p with porta := servedPort p.porta }
  else if i = 1 then { p with portb := servedPort p.portb }
  else p

theorem At.acknowledgePort (h : At env m p hs) (get : Peripherals → GpioPort)
    (set : GpioPort → Peripherals → Peripherals) :
    At env (m.acknowledgePort env get set) (set (servedPort (get p)) p) hs := by
  have h₁ := h.elapse
  have h₂ := h₁.elapse
  have h₃ := h₂.elapse
  have h₄ := h₃.elapse
  have hvalue : (((get p).inv.setWidth 32 : Word) ^^^
      (((get p).pins.setWidth 32 ^^^ (get p).inv.setWidth 32) &&&
        (get p).mask.setWidth 32)).setWidth 16 = (get p).inv ^^^ (get p).changed := by
    simp only [BitVec.setWidth_xor, BitVec.setWidth_and,
      BitVec.setWidth_setWidth_of_le _ (show 16 ≤ 32 by decide), BitVec.setWidth_eq]
    rfl
  unfold Machine.acknowledgePort
  dsimp only [Machine.read]
  rw [h₁.soc, h₂.soc, h₃.soc, h₄.soc, hvalue]
  exact h₄.write _

theorem At.acknowledgeNone (h : At env m p hs) : At env (m.acknowledgeNone env) p hs :=
  h.elapse.elapse.elapse.elapse.elapse

theorem At.serveGpio (h : At env m p hs) {j : ℕ} (hj : j < 4) :
    ∃ m', m.serveGpio env j = some m' ∧ At env m' (servedGpio p j) (hs ++ [.gpio j]) := by
  have ha := (h.acknowledgePort Peripherals.porta fun q p => { p with porta := q }).call (.gpio j)
  have hb := (h.acknowledgePort Peripherals.portb fun q p => { p with portb := q }).call (.gpio j)
  unfold Machine.serveGpio servedGpio
  by_cases h0 : j = 0
  · rw [if_pos h0, if_pos h0]
    exact ⟨_, rfl, ha⟩
  rw [if_neg h0, if_neg h0]
  by_cases h1 : j = 1
  · rw [if_pos h1, if_pos h1]
    exact ⟨_, rfl, hb⟩
  rw [if_neg h1, if_neg h1, if_pos hj]
  exact ⟨_, rfl, h.acknowledgeNone.call _⟩

/-- The service of timer source `i`. -/
def servedTimer (p : Peripherals) (i : ℕ) : Peripherals :=
  { p with timercauseInv := p.timercauseInv ^^^ 1#4 <<< i }

theorem At.serveTimer (h : At env m p hs) {j : ℕ} (hj : j < 4) :
    ∃ m', m.serveTimer env j = some m' ∧ At env m' (servedTimer p j) (hs ++ [.timer j]) := by
  have hj16 : j < 16 := by omega
  have hvalue : ((p.timercauseInv.setWidth 32 : Word) ^^^ 1 <<< j).setWidth 4 =
      p.timercauseInv ^^^ 1#4 <<< j := by
    apply BitVec.eq_of_getLsbD_eq
    intro i hi
    refine (getLsbD_toggle _ hi).trans ?_
    rw [BitVec.getLsbD_xor, getLsbD_one_shiftLeft hi]
  have hserved := ((h.elapse.write fun q =>
    { q with timercauseInv := p.timercauseInv ^^^ 1#4 <<< j }).call (.timer j))
  unfold Machine.serveTimer
  rw [if_pos hj16]
  dsimp only [Machine.read]
  rw [h.elapse.soc, hvalue]
  exact ⟨_, rfl, hserved⟩

/-- The services of a list of sources, one after another. -/
theorem foldlM_at {body : ℕ → Machine → Option Machine} {served : Peripherals → ℕ → Peripherals}
    {name : ℕ → Handler} {js : List ℕ}
    (hbody : ∀ j ∈ js, ∀ m p hs, At env m p hs →
      ∃ m', body j m = some m' ∧ At env m' (served p j) (hs ++ [name j]))
    (h : At env m p hs) :
    ∃ m', js.foldlM (fun m j => body j m) m = some m' ∧
      At env m' (js.foldl served p) (hs ++ js.map name) := by
  induction js generalizing m p hs with
  | nil => exact ⟨m, rfl, by rwa [List.map_nil, List.append_nil]⟩
  | cons j js ih =>
    obtain ⟨m₁, h₁, hat₁⟩ := hbody j List.mem_cons_self m p hs h
    obtain ⟨m₂, h₂, hat₂⟩ := ih (fun k hk => hbody k (List.mem_cons_of_mem _ hk)) hat₁
    refine ⟨m₂, ?_, ?_⟩
    · rw [List.foldlM_cons, h₁]
      exact h₂
    · rw [List.append_assoc] at hat₂
      exact hat₂

/-- A masked comparison of registers, read one by one. -/
theorem setWidth_irq (x y z : BitVec 4) :
    ((x.setWidth 32 ^^^ y.setWidth 32) &&& z.setWidth 32 : Word) =
      ((x ^^^ y) &&& z).setWidth 32 := by
  rw [BitVec.setWidth_and, BitVec.setWidth_xor]

theorem lt_of_mem_setBits_four {x : BitVec 4} {j : ℕ} (hj : j ∈ setBits x) : j < 4 :=
  BitVec.lt_of_getLsbD (mem_setBits.mp hj)

theorem At.gpioSources (h : At env m p hs) :
    ∃ m', m.gpioSources env = some m' ∧
      At env m' ((setBits p.gpioIrq).foldl servedGpio p)
        (hs ++ (setBits p.gpioIrq).map .gpio) := by
  unfold Machine.gpioSources
  dsimp only [Machine.read]
  rw [h.elapse.soc, h.elapse.elapse.soc, h.elapse.elapse.elapse.soc, setWidth_irq,
    bitLoop_eq _ (by decide), setBits_setWidth (by decide)]
  exact foldlM_at (fun j hj m p hs hat => hat.serveGpio (lt_of_mem_setBits_four hj))
    h.elapse.elapse.elapse

theorem At.timerSources (h : At env m p hs) :
    ∃ m', m.timerSources env = some m' ∧
      At env m' ((setBits p.timerIrq).foldl servedTimer p)
        (hs ++ (setBits p.timerIrq).map .timer) := by
  unfold Machine.timerSources
  dsimp only [Machine.read]
  rw [h.elapse.soc, h.elapse.elapse.soc, h.elapse.elapse.elapse.soc, setWidth_irq,
    bitLoop_eq _ (by decide), setBits_setWidth (by decide)]
  exact foldlM_at (fun j hj m p hs hat => hat.serveTimer (lt_of_mem_setBits_four hj))
    h.elapse.elapse.elapse

/-! ## What is left pending -/

/-- The ports that are pending are served. -/
def servicedGpio (p : Peripherals) : Peripherals :=
  { p with
    porta := if p.gpioIrq.getLsbD 0 then servedPort p.porta else p.porta
    portb := if p.gpioIrq.getLsbD 1 then servedPort p.portb else p.portb }

/-- The timers that are pending are served. -/
def servicedTimers (p : Peripherals) : Peripherals :=
  { p with timercauseInv := p.timercauseInv ^^^ p.timerIrq }

theorem foldl_servedTimer (p : Peripherals) :
    (setBits p.timerIrq).foldl servedTimer p = servicedTimers p := by
  have hfold : ∀ (js : List ℕ) (p : Peripherals), js.foldl servedTimer p =
      { p with timercauseInv := js.foldl (fun x i => x ^^^ 1#4 <<< i) p.timercauseInv } := by
    intro js
    induction js with
    | nil => exact fun _ => rfl
    | cons j js ih =>
      intro p
      rw [List.foldl_cons, ih]
      rfl
  rw [hfold, foldl_xor_setBits]
  rfl

theorem timerIrq_serviced (p : Peripherals) : (servicedTimers p).timerIrq = 0 := by
  show (p.timercause ^^^ (p.timercauseInv ^^^ ((p.timercause ^^^ p.timercauseInv) &&&
    p.timermask))) &&& p.timermask = 0
  apply BitVec.eq_of_getLsbD_eq
  intro i hi
  simp only [BitVec.getLsbD_and, BitVec.getLsbD_xor]
  cases p.timercause.getLsbD i <;> cases p.timercauseInv.getLsbD i <;>
    cases p.timermask.getLsbD i <;> simp

section Gpio

variable (hinv : p.gpiocauseInv = 0)
include hinv

/-- Ports C and D are never pending. -/
theorem gpioIrq_eq :
    p.gpioIrq = 0b00#2 ++ BitVec.ofBool (p.portb.int && p.gpiomask.getLsbD 1) ++
      BitVec.ofBool (p.porta.int && p.gpiomask.getLsbD 0) := by
  have hmask : ∀ (a b : Bool) (k : BitVec 4), (0b00#2 ++ BitVec.ofBool b ++ BitVec.ofBool a) &&& k =
      0b00#2 ++ BitVec.ofBool (b && k.getLsbD 1) ++ BitVec.ofBool (a && k.getLsbD 0) := by
    decide
  rw [Peripherals.gpioIrq, Peripherals.gpiocause, hinv, BitVec.ofNat_eq_ofNat, BitVec.xor_zero]
  exact hmask _ _ _

theorem gpioIrq_bits :
    p.gpioIrq.getLsbD 0 = (p.porta.int && p.gpiomask.getLsbD 0) ∧
      p.gpioIrq.getLsbD 1 = (p.portb.int && p.gpiomask.getLsbD 1) := by
  rw [gpioIrq_eq hinv]
  generalize (p.portb.int && p.gpiomask.getLsbD 1) = b
  generalize (p.porta.int && p.gpiomask.getLsbD 0) = a
  cases a <;> cases b <;> decide

theorem foldl_servedGpio :
    (setBits p.gpioIrq).foldl servedGpio p = servicedGpio p := by
  rw [servicedGpio, gpioIrq_eq hinv]
  cases p.portb.int && p.gpiomask.getLsbD 1 <;> cases p.porta.int && p.gpiomask.getLsbD 0 <;> rfl

theorem gpioIrq_serviced : (servicedGpio p).gpioIrq = 0 := by
  have hserved : ∀ q : GpioPort, (servedPort q).int = false := by
    intro q
    rw [GpioPort.int, changed_served]
    rfl
  -- a port that was pending is served, the others were not
  have hport : ∀ (q : GpioPort) (mask : Bool),
      ((if (q.int && mask) = true then servedPort q else q).int && mask) = false := by
    intro q mask
    split_ifs with hq
    · rw [hserved]
      rfl
    · exact Bool.not_eq_true _ ▸ hq
  obtain ⟨h0, h1⟩ := gpioIrq_bits hinv
  have hA : ((servicedGpio p).porta.int && p.gpiomask.getLsbD 0) = false := by
    rw [servicedGpio, h0]
    exact hport p.porta _
  have hB : ((servicedGpio p).portb.int && p.gpiomask.getLsbD 1) = false := by
    rw [servicedGpio, h1]
    exact hport p.portb _
  rw [gpioIrq_eq (p := servicedGpio p) hinv]
  show 0b00#2 ++ BitVec.ofBool ((servicedGpio p).portb.int && p.gpiomask.getLsbD 1) ++
    BitVec.ofBool ((servicedGpio p).porta.int && p.gpiomask.getLsbD 0) = 0
  rw [hA, hB]
  rfl

end Gpio

theorem servicedGpio_of_zero (h : p.gpioIrq = 0) : servicedGpio p = p := by
  rw [servicedGpio, h]
  rfl

theorem servicedTimers_of_zero (h : p.timerIrq = 0) : servicedTimers p = p := by
  rw [servicedTimers, h, BitVec.ofNat_eq_ofNat, BitVec.xor_zero]

/-! ## The rounds -/

/-- The bits of `S0CAUSE`. -/
theorem s0cause_and (p : Peripherals) :
    (p.s0cause.setWidth 32 : Word) &&& 1 = 0 ∧
      (p.s0cause.setWidth 32 : Word) &&& 2 = (if p.gpioIrq ≠ 0 then 2 else 0) ∧
      (p.s0cause.setWidth 32 : Word) &&& 4 = (if p.timerIrq ≠ 0 then 4 else 0) ∧
      ((p.s0cause.setWidth 32 : Word) = 0 → p.gpioIrq = 0 ∧ p.timerIrq = 0) := by
  have hbits : ∀ spi uart timer gpio : Bool,
      let cause := (BitVec.ofBool spi ++ BitVec.ofBool uart ++ BitVec.ofBool timer ++
        BitVec.ofBool gpio ++ 0b0#1).setWidth 32
      cause &&& 1#32 = 0 ∧ cause &&& 2#32 = (if gpio then 2 else 0) ∧
        cause &&& 4#32 = (if timer then 4 else 0) ∧ (cause = 0 → gpio = false ∧ timer = false) := by
    decide
  obtain ⟨h0, h1, h2, h3⟩ := hbits p.intSpi p.intUart (p.timerIrq != 0) (p.gpioIrq != 0)
  refine ⟨h0, ?_, ?_, fun h => ?_⟩
  · simpa [Peripherals.s0cause] using h1
  · simpa [Peripherals.s0cause] using h2
  · simpa using h3 h

/-- The other bits. -/
theorem s0cause_and_high (p : Peripherals) (n : ℕ) :
    (p.s0cause.setWidth 32 : Word) &&& (8 <<< n) = 0 ∨
      (p.s0cause.setWidth 32 : Word) &&& (8 <<< n) = 1 <<< 3 ∨
      (p.s0cause.setWidth 32 : Word) &&& (8 <<< n) = 1 <<< 4 := by
  have hlow : ∀ x : BitVec 5, (x.setWidth 32 &&& 8#32 = 0 ∨ x.setWidth 32 &&& 8#32 = 1 <<< 3) ∧
      (x.setWidth 32 &&& 16#32 = 0 ∨ x.setWidth 32 &&& 16#32 = 1 <<< 4) := by
    decide
  match n with
  | 0 => exact (hlow p.s0cause).1.imp_right .inl
  | 1 => exact (hlow p.s0cause).2.imp_right .inr
  | n + 2 =>
    left
    have h8 : (8#32 <<< (n + 2)) = 1#32 <<< (n + 5) := by
      have hsum : 3 + (n + 2) = n + 5 := by omega
      rw [show 8#32 = 1#32 <<< 3 from rfl, ← BitVec.shiftLeft_add, hsum]
    apply BitVec.eq_of_getLsbD_eq
    intro i hi
    show ((p.s0cause.setWidth 32 : Word) &&& (8#32 <<< (n + 2))).getLsbD i = _
    rw [h8, BitVec.getLsbD_and, getLsbD_one_shiftLeft hi, BitVec.getLsbD_setWidth]
    by_cases hin : i = n + 5
    · rw [BitVec.getLsbD_of_ge p.s0cause i (by omega)]
      simp
    · simp [hin]

namespace At

variable (h : At env m p hs)
include h

theorem segment_base : ∃ m', m.segment env 1 = some m' ∧ At env m' p hs := by
  unfold Machine.segment
  dsimp only [Machine.read]
  rw [h.elapse.soc, (s0cause_and p).1, if_pos rfl]
  exact ⟨_, rfl, h.elapse⟩

theorem segment_gpio (hinv : p.gpiocauseInv = 0) :
    ∃ m', m.segment env 2 = some m' ∧
      At env m' (servicedGpio p) (hs ++ (setBits p.gpioIrq).map .gpio) := by
  unfold Machine.segment
  dsimp only [Machine.read]
  rw [h.elapse.soc, (s0cause_and p).2.1]
  by_cases hirq : p.gpioIrq = 0
  · rw [if_neg (not_not.mpr hirq), if_pos rfl, servicedGpio_of_zero hirq, hirq]
    refine ⟨_, rfl, ?_⟩
    rw [setBits_zero, List.map_nil, List.append_nil]
    exact h.elapse
  · rw [if_pos hirq, if_neg (by decide), if_neg (by decide), if_pos (by decide)]
    obtain ⟨m', hm', hat⟩ := h.elapse.gpioSources
    rw [foldl_servedGpio hinv] at hat
    exact ⟨m', hm', hat⟩

theorem segment_timer :
    ∃ m', m.segment env 4 = some m' ∧
      At env m' (servicedTimers p) (hs ++ (setBits p.timerIrq).map .timer) := by
  unfold Machine.segment
  dsimp only [Machine.read]
  rw [h.elapse.soc, (s0cause_and p).2.2.1]
  by_cases hirq : p.timerIrq = 0
  · rw [if_neg (not_not.mpr hirq), if_pos rfl, servicedTimers_of_zero hirq, hirq]
    refine ⟨_, rfl, ?_⟩
    rw [setBits_zero, List.map_nil, List.append_nil]
    exact h.elapse
  · rw [if_pos hirq, if_neg (by decide), if_neg (by decide), if_neg (by decide),
      if_pos (by decide)]
    obtain ⟨m', hm', hat⟩ := h.elapse.timerSources
    rw [foldl_servedTimer] at hat
    exact ⟨m', hm', hat⟩

/-- UARTs and SPIs are not served. -/
theorem segment_high (n : ℕ) : ∃ m', m.segment env (8 <<< n) = some m' ∧ At env m' p hs := by
  unfold Machine.segment
  dsimp only [Machine.read]
  rw [h.elapse.soc]
  refine ⟨m.elapse env, ?_, h.elapse⟩
  rcases s0cause_and_high p n with hz | h3 | h4
  · rw [if_pos hz]
  · rw [h3, if_neg (by decide), if_neg (by decide), if_neg (by decide), if_neg (by decide),
      if_pos rfl]
  · rw [h4, if_neg (by decide), if_neg (by decide), if_neg (by decide), if_neg (by decide),
      if_neg (by decide), if_pos rfl]

/-- The rounds behind the timers. -/
theorem irq0Loop_high {fuel n : ℕ} (hfuel : 0 < fuel) (hn : fuel + n = 29) :
    ∃ m', m.irq0Loop env fuel (8 <<< n) = some m' ∧ At env m' p hs := by
  induction fuel generalizing m n with
  | zero => exact absurd hfuel (Nat.lt_irrefl 0)
  | succ fuel ih =>
    obtain ⟨m₁, h₁, hat⟩ := h.segment_high n
    rw [Machine.irq0Loop_succ h₁]
    split_ifs with hagain
    · have hnext : (8#32 <<< n) <<< 1 = 8#32 <<< (n + 1) := (BitVec.shiftLeft_add _ _ _).symm
      have hpos : 0 < fuel := by
        refine Nat.pos_of_ne_zero fun hzero => hagain.2 ?_
        obtain rfl : n = 28 := by omega
        decide
      show ∃ m', (m₁.elapse env).irq0Loop env fuel ((8#32 <<< n) <<< 1) = some m' ∧ _
      rw [hnext]
      exact ih hat.elapse hpos (by omega)
    · exact ⟨_, rfl, hat.elapse⟩

/-- One visit: what was pending is served, once. -/
theorem irq0Handler (hinv : p.gpiocauseInv = 0) :
    ∃ m', m.irq0Handler env = some m' ∧ At env m' (servicedTimers (servicedGpio p))
      (hs ++ (setBits p.gpioIrq).map .gpio ++ (setBits p.timerIrq).map .timer) := by
  obtain ⟨m₁, h₁, hat₁⟩ := h.segment_base
  rw [Machine.irq0Handler, Machine.irq0Loop_succ h₁]
  split_ifs with hagain
  · obtain ⟨m₂, h₂, hat₂⟩ := hat₁.elapse.segment_gpio hinv
    show ∃ m', (m₁.elapse env).irq0Loop env 31 2 = some m' ∧ _
    rw [Machine.irq0Loop_succ h₂]
    split_ifs with hagain₂
    · obtain ⟨m₃, h₃, hat₃⟩ := hat₂.elapse.segment_timer
      show ∃ m', (m₂.elapse env).irq0Loop env 30 4 = some m' ∧ _
      rw [Machine.irq0Loop_succ h₃]
      split_ifs with hagain₃
      · exact hat₃.elapse.irq0Loop_high (n := 0) (by decide) rfl
      · exact ⟨_, rfl, hat₃.elapse⟩
    · -- the ports were the only reason
      have hcause : (m₂.read env Peripherals.s0cause).1 = 0 := by
        by_contra hne
        exact hagain₂ ⟨hne, by decide⟩
      rw [hat₂.read] at hcause
      have htimer : (servicedGpio p).timerIrq = 0 :=
        ((s0cause_and (servicedGpio p)).2.2.2 hcause).2
      refine ⟨_, rfl, ?_⟩
      rw [servicedTimers_of_zero htimer, show p.timerIrq = 0 from htimer, setBits_zero,
        List.map_nil, List.append_nil]
      exact hat₂.elapse
  · have hcause : (m₁.read env Peripherals.s0cause).1 = 0 := by
      by_contra hne
      exact hagain ⟨hne, by decide⟩
    rw [hat₁.read] at hcause
    obtain ⟨hgpio, htimer⟩ := (s0cause_and p).2.2.2 hcause
    refine ⟨_, rfl, ?_⟩
    rw [servicedGpio_of_zero hgpio, servicedTimers_of_zero htimer, hgpio, htimer,
      setBits_zero, List.map_nil, List.map_nil, List.append_nil,
      List.append_nil]
    exact hat₁.elapse

end At

/-! ## The lines -/

/-- What is called for line `i`. -/
def lineCalls (p : Peripherals) (i : ℕ) : List Handler :=
  if i = 0 then (setBits p.gpioIrq).map .gpio ++ (setBits p.timerIrq).map .timer else [.irq i]

/-- The peripherals after the lines `js`. -/
def servedLines (p : Peripherals) (js : List ℕ) : Peripherals :=
  if 0 ∈ js then servicedTimers (servicedGpio p) else p

theorem At.serveIrq (h : At env m p hs) (hinv : p.gpiocauseInv = 0) {j : ℕ} (hj : j < 8) :
    ∃ m', m.serveIrq env j = some m' ∧ At env m' (servedLines p [j]) (hs ++ lineCalls p j) := by
  rw [Machine.serveIrq, servedLines, lineCalls]
  by_cases h0 : j = 0
  · obtain ⟨m', hm', hat⟩ := h.irq0Handler hinv
    rw [List.append_assoc] at hat
    subst h0
    exact ⟨m', hm', hat⟩
  · rw [if_neg h0, if_pos hj, if_neg h0, if_neg fun hmem => h0 (List.mem_singleton.mp hmem).symm]
    exact ⟨_, rfl, h.call _⟩

theorem foldlM_serveIrq {js : List ℕ} (hjs : ∀ j ∈ js, j < 8) (hnodup : js.Nodup)
    (h : At env m p hs) (hinv : p.gpiocauseInv = 0) :
    ∃ m', js.foldlM (fun m j => m.serveIrq env j) m = some m' ∧
      At env m' (servedLines p js) (hs ++ js.flatMap (lineCalls p)) := by
  induction js generalizing m p hs with
  | nil => exact ⟨m, rfl, by rwa [List.flatMap_nil, List.append_nil]⟩
  | cons j js ih =>
    obtain ⟨hnot, hrest⟩ := List.nodup_cons.mp hnodup
    obtain ⟨m₁, h₁, hat₁⟩ := h.serveIrq hinv (hjs j List.mem_cons_self)
    have hinv₁ : (servedLines p [j]).gpiocauseInv = 0 := by
      rw [servedLines]
      split_ifs
      · exact hinv
      · exact hinv
    obtain ⟨m₂, h₂, hat₂⟩ := ih (fun k hk => hjs k (List.mem_cons_of_mem _ hk)) hrest hat₁ hinv₁
    -- only line 0 changes the peripherals, and it does not come again
    have hlines : servedLines (servedLines p [j]) js = servedLines p (j :: js) := by
      by_cases h0 : j = 0
      · subst h0
        simp only [servedLines, hnot, List.mem_cons, true_or, if_true, if_false]
      · simp only [servedLines, List.mem_cons, List.not_mem_nil, or_false, Ne.symm h0, if_false,
          false_or]
    have hcalls : js.flatMap (lineCalls (servedLines p [j])) = js.flatMap (lineCalls p) := by
      by_cases h0 : j = 0
      · subst h0
        refine List.flatMap_congr fun k hk => ?_
        have hk0 : k ≠ 0 := fun hzero => hnot (hzero ▸ hk)
        rw [lineCalls, lineCalls, if_neg hk0, if_neg hk0]
      · rw [servedLines, if_neg fun hmem => h0 (List.mem_singleton.mp hmem).symm]
    rw [hlines, hcalls, List.append_assoc] at hat₂
    refine ⟨m₂, ?_, hat₂⟩
    rw [List.foldlM_cons, h₁]
    exact h₂

/-- A visit in a world that stands still from its beginning on. -/
theorem serves_of_still (hstill : ∀ t ≥ m.time, env.change t = Change.none)
    (hinv : m.soc.gpiocauseInv = 0) (cause : BitVec 8) :
    ∃ m', m.irqHandler env (cause.setWidth 32) = some m' ∧
      m'.calls = m.calls ++ (setBits cause).flatMap (lineCalls m.soc) ∧
      (cause.getLsbD 0 = true → m'.soc.gpioIrq = 0 ∧ m'.soc.timerIrq = 0 ∧
        m'.soc.irqO = (m.soc.intSpi || m.soc.intUart)) := by
  have hlt : ∀ j ∈ setBits cause, j < 8 := fun j hj => BitVec.lt_of_getLsbD (mem_setBits.mp hj)
  obtain ⟨m', hm', hat⟩ := foldlM_serveIrq hlt (nodup_setBits cause)
    (⟨rfl, rfl, hstill⟩ : At env m m.soc m.calls) hinv
  refine ⟨m', ?_, hat.calls, fun h0 => ?_⟩
  · rw [Machine.irqHandler, bitLoop_eq _ (by decide), setBits_setWidth (by decide)]
    exact hm'
  · have hsoc : m'.soc = servicedTimers (servicedGpio m.soc) := by
      rw [hat.soc, servedLines, if_pos (mem_setBits.mpr h0)]
    have hgpio : (servicedTimers (servicedGpio m.soc)).gpioIrq = 0 :=
      (gpioIrq_serviced hinv : (servicedGpio m.soc).gpioIrq = 0)
    have htimer := timerIrq_serviced (servicedGpio m.soc)
    rw [hsoc]
    refine ⟨hgpio, htimer, ?_⟩
    have hline : ∀ spi uart : Bool,
        (BitVec.ofBool spi ++ BitVec.ofBool uart ++ BitVec.ofBool ((0 : BitVec 4) != 0) ++
          BitVec.ofBool ((0 : BitVec 4) != 0) ++ 0b0#1 != (0 : BitVec 5)) = (spi || uart) := by
      decide
    rw [Peripherals.irqO, Peripherals.s0cause, hgpio, htimer]
    exact hline _ _

/-- A visit always ends. Where nothing toggles until then, and the program has not inverted the
causes of the ports: the dispatcher calls the handlers of exactly the pending sources and lines,
each once and in order, and leaves neither a port nor a timer pending; the line of the peripherals
then stays up for UARTs and SPIs only. -/
theorem dispatch_serves (hinv : m.soc.gpiocauseInv = 0) (cause : BitVec 8) :
    ∃ m', m.irqHandler env (cause.setWidth 32) = some m' ∧
      ((∀ t, m.time ≤ t → t < m'.time → env.change t = Change.none) →
        m'.calls = m.calls ++ (setBits cause).flatMap (lineCalls m.soc) ∧
        (cause.getLsbD 0 = true → m'.soc.gpioIrq = 0 ∧ m'.soc.timerIrq = 0 ∧
          m'.soc.irqO = (m.soc.intSpi || m.soc.intUart))) := by
  obtain ⟨m', hm', -, hlocal⟩ := local_irqHandler cause env m
  refine ⟨m', hm', fun hstill => ?_⟩
  -- the visit is the same in the world that also stands still behind it
  let still : World := { env with change := fun _ => Change.none }
  have hsame := hlocal still ⟨rfl, fun t hlo hhi => (hstill t hlo hhi).symm⟩
  have hstands : ∀ t ≥ m.time, still.change t = Change.none := fun _ _ => rfl
  obtain ⟨m'', hm'', hserved⟩ := serves_of_still hstands hinv cause
  obtain rfl : m' = m'' := Option.some.inj (hsame.symm.trans hm'')
  exact hserved

/-- Two timers and a pin of port A are pending, on lines 0 and 3. -/
def threePending : Machine where
  soc :=
    { porta := ⟨0x0104, 0x0004, 0xffff⟩
      portb := ⟨0, 0, 0⟩
      gpiocauseInv := 0
      gpiomask := 0b0011
      timercause := 0b1010
      timercauseInv := 0b0011
      timermask := 0b1011
      intUart := false
      intSpi := false }
  time := 0
  calls := []

theorem dispatch_serves_three :
    ∃ m', threePending.irqHandler ⟨fun _ => Change.none, fun _ => 3⟩ ((9 : BitVec 8).setWidth 32) =
        some m' ∧
      m'.calls = threePending.calls ++
        (setBits (9 : BitVec 8)).flatMap (lineCalls threePending.soc) ∧
      ((9 : BitVec 8).getLsbD 0 = true → m'.soc.gpioIrq = 0 ∧ m'.soc.timerIrq = 0 ∧
        m'.soc.irqO = (threePending.soc.intSpi || threePending.soc.intUart)) := by
  obtain ⟨m', hm', hserved⟩ :=
    @dispatch_serves ⟨fun _ => Change.none, fun _ => 3⟩ threePending rfl 9
  exact ⟨m', hm', hserved fun _ _ _ => rfl⟩

example : (setBits (9 : BitVec 8)).flatMap (lineCalls threePending.soc) =
    [.gpio 0, .timer 0, .timer 3, .irq 3] := by
  decide

end HfRisc.Results
