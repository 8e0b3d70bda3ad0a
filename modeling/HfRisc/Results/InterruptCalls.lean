import HfRisc.Lib.Toggle
import HfRisc.Soft.Interrupt

/-!
# Timer handlers are called for timer events only

A timer source and the dispatcher run side by side: the source toggles whenever it does, and the
dispatcher acknowledges what it has found pending some time before. `line` is the source with what
happened to it so far, a `ToggleLine`; everything but the service of the source itself only lets it
signal.
-/

namespace HfRisc.Results

open HfRisc.Soft HfRisc.Lib

variable {env : World} {m m' : Machine} {i : ℕ}

/-! ## A timer source and what happened to it -/

/-- How often timer source `i` toggled before time `t`. -/
def signals (env : World) (i t : ℕ) : ℕ :=
  (List.range t).countP fun j => (env.change j).timer.getLsbD i

/-- Timer source `i`, with its events and the calls of its handler. -/
def line (env : World) (m : Machine) (i : ℕ) : ToggleLine where
  cause := m.soc.timercause.getLsbD i
  inv := m.soc.timercauseInv.getLsbD i
  signals := signals env i m.time
  served := m.calls.count (.timer i)

theorem signals_succ (env : World) (i t : ℕ) :
    signals env i (t + 1) =
      signals env i t + if (env.change t).timer.getLsbD i then 1 else 0 := by
  rw [signals, List.range_succ, List.countP_append, List.countP_singleton]
  rfl

/-- From `m` to `m'` the source did nothing but signal. -/
def Advances (env : World) (i : ℕ) (m m' : Machine) : Prop :=
  ∀ P : ToggleLine → Prop, (∀ l, P l → P l.signal) → P (line env m i) → P (line env m' i)

theorem Advances.refl (env : World) (i : ℕ) (m : Machine) : Advances env i m m :=
  fun _ _ h => h

theorem Advances.trans {m₁ m₂ m₃ : Machine} (h : Advances env i m₁ m₂)
    (h' : Advances env i m₂ m₃) : Advances env i m₁ m₃ :=
  fun P hP hl => h' P hP (h P hP hl)

/-- The same source at the same time. -/
theorem Advances.of_eq (h : line env m' i = line env m i) : Advances env i m m' :=
  fun _ _ hl => h ▸ hl

theorem advances_tick (env : World) (i : ℕ) (m : Machine) : Advances env i m (m.tick env) := by
  intro P hP hl
  have hcause : (m.tick env).soc.timercause.getLsbD i =
      (m.soc.timercause.getLsbD i ^^ (env.change m.time).timer.getLsbD i) :=
    BitVec.getLsbD_xor
  have hsignals : signals env i (m.tick env).time = _ := signals_succ env i m.time
  cases hc : (env.change m.time).timer.getLsbD i with
  | false =>
    rw [hc, Bool.xor_false] at hcause
    rw [hc] at hsignals
    have hline : line env (m.tick env) i = line env m i := by
      rw [line, hcause, hsignals]
      rfl
    exact hline ▸ hl
  | true =>
    rw [hc, Bool.xor_true] at hcause
    rw [hc] at hsignals
    have hline : line env (m.tick env) i = (line env m i).signal := by
      rw [line, hcause, hsignals]
      rfl
    exact hline ▸ hP _ hl

theorem advances_elapse (env : World) (i : ℕ) (m : Machine) : Advances env i m (m.elapse env) := by
  have hticks : ∀ n (m : Machine), Advances env i m ((Machine.tick env)^[n] m) := by
    intro n
    induction n with
    | zero => exact Advances.refl env i
    | succ n ih => exact fun m => (advances_tick env i m).trans (ih _)
  exact hticks _ m

/-- A write that leaves the timer registers alone. -/
theorem advances_write {f : Peripherals → Peripherals}
    (hcause : ∀ p, (f p).timercause = p.timercause)
    (hinv : ∀ p, (f p).timercauseInv = p.timercauseInv) (m : Machine) :
    Advances env i m (m.write env f) := by
  refine (advances_elapse env i m).trans (Advances.of_eq ?_)
  rw [line, line, Machine.write]
  simp only [hcause, hinv]

/-- What has been called does not matter to the time that passes. -/
theorem elapse_calls (m : Machine) (hs : List Handler) :
    ({ m with calls := hs } : Machine).elapse env = { m.elapse env with calls := hs } := by
  have hticks : ∀ n (m : Machine), (Machine.tick env)^[n] { m with calls := hs } =
      { (Machine.tick env)^[n] m with calls := hs } := by
    intro n
    induction n with
    | zero => exact fun _ => rfl
    | succ n ih => exact fun m => ih (m.tick env)
  exact hticks _ m

/-- A handler can be recorded before it runs. -/
theorem call_eq (m : Machine) (h : Handler) :
    m.call env h = ({ m with calls := m.calls ++ [h] } : Machine).elapse env :=
  (elapse_calls m _).symm

/-- The call of another handler. -/
theorem advances_call {h : Handler} (hh : h ≠ .timer i) (m : Machine) :
    Advances env i m (m.call env h) := by
  have hcount : (m.calls ++ [h]).count (.timer i) = m.calls.count (.timer i) := by
    rw [List.count_append, List.count_singleton, if_neg (by simpa using hh), Nat.add_zero]
  rw [call_eq]
  refine (Advances.of_eq ?_).trans (advances_elapse env i _)
  rw [line, line]
  simp only [hcount]

/-! ## The GPIO sources -/

theorem advances_acknowledgeNone (m : Machine) : Advances env i m (m.acknowledgeNone env) :=
  ((((advances_elapse env i m).trans (advances_elapse env i _)).trans
    (advances_elapse env i _)).trans (advances_elapse env i _)).trans (advances_elapse env i _)

theorem advances_acknowledgePort (get : Peripherals → GpioPort)
    (set : GpioPort → Peripherals → Peripherals)
    (hcause : ∀ q p, (set q p).timercause = p.timercause)
    (hinv : ∀ q p, (set q p).timercauseInv = p.timercauseInv) (m : Machine) :
    Advances env i m (m.acknowledgePort env get set) :=
  ((((advances_elapse env i m).trans (advances_elapse env i _)).trans
    (advances_elapse env i _)).trans (advances_elapse env i _)).trans
      (advances_write (fun _ => hcause _ _) (fun _ => hinv _ _) _)

variable (env) in
/-- The service of a port never fails and leaves the timers alone. -/
theorem serveGpio_advances {j : ℕ} (hj : j < 4) (m : Machine) :
    ∃ m', m.serveGpio env j = some m' ∧ ∀ i, Advances env i m m' := by
  have hcall : ∀ (m : Machine) (i : ℕ), Advances env i m (m.call env (.gpio j)) := fun m i =>
    advances_call (fun h => by cases h) m
  have ha : ∀ i, Advances env i m
      (m.acknowledgePort env Peripherals.porta fun q p => { p with porta := q }) := fun i =>
    advances_acknowledgePort Peripherals.porta (fun q p => { p with porta := q })
      (fun _ _ => rfl) (fun _ _ => rfl) m
  have hb : ∀ i, Advances env i m
      (m.acknowledgePort env Peripherals.portb fun q p => { p with portb := q }) := fun i =>
    advances_acknowledgePort Peripherals.portb (fun q p => { p with portb := q })
      (fun _ _ => rfl) (fun _ _ => rfl) m
  unfold Machine.serveGpio
  by_cases h0 : j = 0
  · rw [if_pos h0]
    exact ⟨_, rfl, fun i => (ha i).trans (hcall _ i)⟩
  rw [if_neg h0]
  by_cases h1 : j = 1
  · rw [if_pos h1]
    exact ⟨_, rfl, fun i => (hb i).trans (hcall _ i)⟩
  rw [if_neg h1, if_pos hj]
  exact ⟨_, rfl, fun i => (advances_acknowledgeNone m).trans (hcall _ i)⟩

/-- A word read from a register of `w` bits has no others. -/
theorem lt_of_mem_setBits {w : ℕ} {x y z : BitVec w} {j : ℕ}
    (h : j ∈ setBits ((x.setWidth 32 ^^^ y.setWidth 32) &&& z.setWidth 32 : Word)) : j < w := by
  rw [mem_setBits, BitVec.getLsbD_and, Bool.and_eq_true] at h
  have hz := h.2
  rw [BitVec.getLsbD_setWidth, Bool.and_eq_true] at hz
  exact BitVec.lt_of_getLsbD hz.2

/-- What every service of a list does, all of them do. -/
theorem foldlM_advances {body : ℕ → Machine → Option Machine} {js : List ℕ}
    (hbody : ∀ j ∈ js, ∀ m, ∃ m', body j m = some m' ∧ ∀ i, Advances env i m m') (m : Machine) :
    ∃ m', js.foldlM (fun m j => body j m) m = some m' ∧ ∀ i, Advances env i m m' := by
  induction js generalizing m with
  | nil => exact ⟨m, rfl, fun i => Advances.refl env i m⟩
  | cons j js ih =>
    obtain ⟨m₁, h₁, ha₁⟩ := hbody j List.mem_cons_self m
    obtain ⟨m₂, h₂, ha₂⟩ := ih (fun k hk => hbody k (List.mem_cons_of_mem _ hk)) m₁
    refine ⟨m₂, ?_, fun i => (ha₁ i).trans (ha₂ i)⟩
    rw [List.foldlM_cons, h₁]
    exact h₂

variable (env) in
theorem gpioSources_advances (m : Machine) :
    ∃ m', m.gpioSources env = some m' ∧ ∀ i, Advances env i m m' := by
  rw [Machine.gpioSources]
  dsimp only [Machine.read]
  rw [bitLoop_eq _ (by decide)]
  obtain ⟨m', hm', ha⟩ := foldlM_advances
    (fun j hj => serveGpio_advances env (lt_of_mem_setBits hj))
    (((m.elapse env).elapse env).elapse env)
  exact ⟨m', hm', fun i => (((advances_elapse env i m).trans (advances_elapse env i _)).trans
    (advances_elapse env i _)).trans (ha i)⟩

/-! ## The timers -/

/-- Every source is balanced. -/
def AllBalanced (env : World) (m : Machine) : Prop := ∀ i, (line env m i).Balanced

theorem AllBalanced.advances (h : AllBalanced env m) (ha : ∀ i, Advances env i m m') :
    AllBalanced env m' := fun i =>
  ha i ToggleLine.Balanced (fun _ hl => hl.signal) (h i)

/-- Reading a register of four bits and writing it back with one bit toggled. -/
theorem getLsbD_toggle (x : BitVec 4) {i j : ℕ} (hi : i < 4) :
    ((x.setWidth 32 ^^^ (1#32 <<< j)).setWidth 4).getLsbD i = (x.getLsbD i ^^ decide (i = j)) := by
  have h32 : i < 32 := by omega
  rw [BitVec.getLsbD_setWidth, BitVec.getLsbD_xor, BitVec.getLsbD_setWidth,
    getLsbD_one_shiftLeft h32, decide_eq_true hi, decide_eq_true h32, Bool.true_and, Bool.true_and]

theorem timercauseInv_elapse (m : Machine) :
    (m.elapse env).soc.timercauseInv = m.soc.timercauseInv := by
  have hticks : ∀ n (m : Machine),
      ((Machine.tick env)^[n] m).soc.timercauseInv = m.soc.timercauseInv := by
    intro n
    induction n with
    | zero => exact fun _ => rfl
    | succ n ih => exact fun m => ih (m.tick env)
  exact hticks _ m

/-- The service of a timer source acknowledges it and lets the others be. -/
theorem serveTimer_spec {j : ℕ} (hj : j < 4) (m : Machine) :
    ∃ m', m.serveTimer env j = some m' ∧ (∀ i ≠ j, Advances env i m m') ∧
      ((line env m j).Balanced → (line env m j).Owed → (line env m' j).Balanced) := by
  have hj16 : j < 16 := by omega
  -- the machine at the write, with the acknowledgement and the call
  let m₂ := (m.elapse env).elapse env
  let served : Machine :=
    { m₂ with
      soc := { m₂.soc with
        timercauseInv := ((m₂.soc.timercauseInv.setWidth 32 : Word) ^^^ 1 <<< j).setWidth 4 }
      calls := m₂.calls ++ [.timer j] }
  have helapse : ∀ i, Advances env i m m₂ := fun i =>
    (advances_elapse env i m).trans (advances_elapse env i _)
  have hinv : (m.elapse env).soc.timercauseInv = m₂.soc.timercauseInv :=
    (timercauseInv_elapse _).symm
  have hbits : ∀ i < 4, served.soc.timercauseInv.getLsbD i =
      (m₂.soc.timercauseInv.getLsbD i ^^ decide (i = j)) := fun i hi =>
    getLsbD_toggle m₂.soc.timercauseInv hi
  have hself : line env served j = (line env m₂ j).serve := by
    have hcount : served.calls.count (.timer j) = m₂.calls.count (.timer j) + 1 := by
      show (m₂.calls ++ [Handler.timer j]).count _ = _
      rw [List.count_append, List.count_singleton_self]
    have hbit := hbits j hj
    rw [decide_eq_true rfl, Bool.xor_true] at hbit
    rw [line, hcount, hbit]
    rfl
  have hother : ∀ i ≠ j, line env served i = line env m₂ i := by
    intro i hij
    have hcount : served.calls.count (.timer i) = m₂.calls.count (.timer i) := by
      show (m₂.calls ++ [Handler.timer j]).count _ = _
      rw [List.count_append, List.count_singleton, if_neg, Nat.add_zero]
      simpa using Ne.symm hij
    have hbit : served.soc.timercauseInv.getLsbD i = m₂.soc.timercauseInv.getLsbD i := by
      by_cases hi : i < 4
      · rw [hbits i hi, decide_eq_false hij, Bool.xor_false]
      · rw [BitVec.getLsbD_of_ge _ _ (Nat.le_of_not_lt hi),
          BitVec.getLsbD_of_ge _ _ (Nat.le_of_not_lt hi)]
    rw [line, hcount, hbit]
    rfl
  refine ⟨served.elapse env, ?_, fun i hij => ?_, fun hbal howed => ?_⟩
  · unfold Machine.serveTimer
    rw [if_pos hj16]
    dsimp only [Machine.read]
    rw [call_eq, hinv]
    rfl
  · exact ((helapse i).trans (Advances.of_eq (hother i hij))).trans (advances_elapse env i _)
  · obtain ⟨hbal₂, howed₂⟩ := helapse j (fun l => l.Balanced ∧ l.Owed)
      (fun _ h => ⟨h.1.signal, h.2.signal⟩) ⟨hbal, howed⟩
    refine advances_elapse env j served _ (fun _ h => h.signal) ?_
    rw [hself]
    exact hbal₂.serve howed₂

/-- Every source that was found pending is acknowledged once. -/
theorem foldlM_serveTimer {js : List ℕ} (hjs : ∀ j ∈ js, j < 4) (hnodup : js.Nodup)
    (hbal : AllBalanced env m) (howed : ∀ j ∈ js, (line env m j).Owed) :
    ∃ m', js.foldlM (fun m j => m.serveTimer env j) m = some m' ∧ AllBalanced env m' := by
  induction js generalizing m with
  | nil => exact ⟨m, rfl, hbal⟩
  | cons j js ih =>
    obtain ⟨hnot, hrest⟩ := List.nodup_cons.mp hnodup
    obtain ⟨m₁, h₁, hother, hself⟩ := serveTimer_spec (hjs j List.mem_cons_self) m
    have hbal₁ : AllBalanced env m₁ := by
      intro i
      by_cases hij : i = j
      · subst hij
        exact hself (hbal i) (howed i List.mem_cons_self)
      · exact hother i hij _ (fun _ h => h.signal) (hbal i)
    have howed₁ : ∀ k ∈ js, (line env m₁ k).Owed := by
      intro k hk
      have hkj : k ≠ j := fun h => hnot (h ▸ hk)
      exact hother k hkj _ (fun _ h => h.signal) (howed k (List.mem_cons_of_mem _ hk))
    obtain ⟨m₂, h₂, hbal₂⟩ := ih (fun k hk => hjs k (List.mem_cons_of_mem _ hk)) hrest hbal₁ howed₁
    refine ⟨m₂, ?_, hbal₂⟩
    rw [List.foldlM_cons, h₁]
    exact h₂

theorem timerSources_balanced (hbal : AllBalanced env m) :
    ∃ m', m.timerSources env = some m' ∧ AllBalanced env m' := by
  unfold Machine.timerSources
  dsimp only [Machine.read]
  rw [bitLoop_eq _ (by decide)]
  have hlater : ∀ i, Advances env i (m.elapse env) (((m.elapse env).elapse env).elapse env) :=
    fun i => (advances_elapse env i _).trans (advances_elapse env i _)
  have hbal₁ : AllBalanced env (m.elapse env) := hbal.advances fun i => advances_elapse env i m
  refine foldlM_serveTimer (fun j hj => lt_of_mem_setBits hj) (nodup_setBits _)
    (hbal₁.advances hlater) fun j hj => ?_
  -- the source was pending at the first read
  have hpend : (line env (m.elapse env) j).pending = true := by
    rw [timercauseInv_elapse, mem_setBits, BitVec.getLsbD_and, BitVec.getLsbD_xor,
      Bool.and_eq_true] at hj
    have hxor := hj.1
    rw [BitVec.getLsbD_setWidth, BitVec.getLsbD_setWidth, ← Bool.and_xor_distrib_left,
      Bool.and_eq_true] at hxor
    exact hxor.2
  exact hlater j _ (fun _ h => h.signal) ((hbal₁ j).owed hpend)

/-! ## The dispatcher -/

theorem segment_balanced (hbal : AllBalanced env m) (k : Word) :
    ∃ m', m.segment env k = some m' ∧ AllBalanced env m' := by
  have hread : AllBalanced env (m.elapse env) := hbal.advances fun i => advances_elapse env i m
  have hunknown : AllBalanced env (((m.elapse env).elapse env).call env .unknown) :=
    hread.advances fun i => (advances_elapse env i _).trans (advances_call (fun h => by cases h) _)
  have hgpio : ∃ m', (m.elapse env).gpioSources env = some m' ∧ AllBalanced env m' := by
    obtain ⟨m', hm', ha⟩ := gpioSources_advances env (m.elapse env)
    exact ⟨m', hm', hread.advances ha⟩
  have htimer := timerSources_balanced hread
  unfold Machine.segment
  dsimp only [Machine.read]
  split_ifs
  · exact ⟨_, rfl, hread⟩
  · exact ⟨_, rfl, hread⟩
  · exact hgpio
  · exact htimer
  · exact ⟨_, rfl, hread⟩
  · exact ⟨_, rfl, hread⟩
  · exact ⟨_, rfl, hread⟩
  · exact ⟨_, rfl, hunknown⟩

/-- The loop ends when `k` is shifted out, whatever is pending. -/
theorem irq0Loop_balanced {fuel : ℕ} (hbal : AllBalanced env m) {k : Word}
    (hk : k <<< fuel = 0) (hfuel : 0 < fuel) :
    ∃ m', m.irq0Loop env fuel k = some m' ∧ AllBalanced env m' := by
  induction fuel generalizing m k with
  | zero => exact absurd hfuel (Nat.lt_irrefl 0)
  | succ fuel ih =>
    obtain ⟨m₁, h₁, hbal₁⟩ := segment_balanced hbal k
    have hread : AllBalanced env (m₁.elapse env) :=
      hbal₁.advances fun i => advances_elapse env i m₁
    rw [Nat.add_comm, BitVec.shiftLeft_add] at hk
    rw [Machine.irq0Loop_succ h₁]
    split_ifs with hagain
    · refine ih hread hk (Nat.pos_of_ne_zero fun hzero => hagain.2 ?_)
      rw [hzero, BitVec.shiftLeft_zero] at hk
      exact hk
    · exact ⟨_, rfl, hread⟩

theorem irq0Handler_balanced (hbal : AllBalanced env m) :
    ∃ m', m.irq0Handler env = some m' ∧ AllBalanced env m' :=
  irq0Loop_balanced hbal (by decide) (by decide)

theorem irqHandler_balanced (hbal : AllBalanced env m) (cause : BitVec 8) :
    ∃ m', m.irqHandler env (cause.setWidth 32) = some m' ∧ AllBalanced env m' := by
  rw [Machine.irqHandler, bitLoop_eq _ (by decide)]
  have hlt : ∀ j ∈ setBits (cause.setWidth 32 : Word), j < 8 := by
    intro j hj
    rw [mem_setBits, BitVec.getLsbD_setWidth, Bool.and_eq_true] at hj
    exact BitVec.lt_of_getLsbD hj.2
  revert hlt
  generalize setBits (cause.setWidth 32 : Word) = js
  intro hlt
  induction js generalizing m with
  | nil => exact ⟨m, rfl, hbal⟩
  | cons j js ih =>
    have hfirst : ∃ m₁, m.serveIrq env j = some m₁ ∧ AllBalanced env m₁ := by
      rw [Machine.serveIrq]
      split_ifs with h0 h8
      · exact irq0Handler_balanced hbal
      · exact ⟨_, rfl, hbal.advances fun i => advances_call (fun h => by cases h) m⟩
      · exact absurd (hlt j List.mem_cons_self) h8
    obtain ⟨m₁, h₁, hbal₁⟩ := hfirst
    obtain ⟨m₂, h₂, hbal₂⟩ := ih hbal₁ fun k hk => hlt k (List.mem_cons_of_mem _ hk)
    refine ⟨m₂, ?_, hbal₂⟩
    rw [List.foldlM_cons, h₁]
    exact h₂

/-! ## Whole runs -/

/-- What the processor does. -/
inductive Activity
  /-- the program runs for a while -/
  | program
  /-- it writes the masks -/
  | masks (gpio timer : BitVec 4) (porta portb : BitVec 16)
  /-- `irq_handler` is entered -/
  | interrupt (cause : BitVec 8)

def Activity.perform (env : World) (m : Machine) : Activity → Option Machine
  | .program => some (m.elapse env)
  | .masks gpio timer porta portb =>
    some (m.write env fun p =>
      { p with
        gpiomask := gpio
        timermask := timer
        porta := { p.porta with mask := porta }
        portb := { p.portb with mask := portb } })
  | .interrupt cause => m.irqHandler env (cause.setWidth 32)

/-- The processor does one thing after another. -/
def activities (env : World) (m : Machine) (as : List Activity) : Option Machine :=
  as.foldlM (fun m a => a.perform env m) m

/-- The peripherals after `rst_i`, with any levels at the pins. -/
def Machine.reset (porta portb : BitVec 16) : Machine where
  soc :=
    { porta := ⟨porta, 0, 0⟩
      portb := ⟨portb, 0, 0⟩
      gpiocauseInv := 0
      gpiomask := 0
      timercause := 0
      timercauseInv := 0
      timermask := 0
      intUart := false
      intSpi := false }
  time := 0
  calls := []

theorem reset_balanced (porta portb : BitVec 16) : AllBalanced env (Machine.reset porta portb) := by
  intro i
  refine ⟨?_, Nat.le_refl 0⟩
  show ((0 : BitVec 4).getLsbD i != (0 : BitVec 4).getLsbD i) = true ↔ Odd (0 + 0)
  simp

theorem activities_balanced (hbal : AllBalanced env m) (as : List Activity) :
    ∃ m', activities env m as = some m' ∧ AllBalanced env m' := by
  induction as generalizing m with
  | nil => exact ⟨m, rfl, hbal⟩
  | cons a as ih =>
    have hfirst : ∃ m₁, a.perform env m = some m₁ ∧ AllBalanced env m₁ := by
      cases a with
      | program => exact ⟨_, rfl, hbal.advances fun i => advances_elapse env i m⟩
      | masks gpio timer porta portb =>
        exact ⟨_, rfl, hbal.advances fun i => advances_write (fun _ => rfl) (fun _ => rfl) m⟩
      | interrupt cause => exact irqHandler_balanced hbal cause
    obtain ⟨m₁, h₁, hbal₁⟩ := hfirst
    obtain ⟨m₂, h₂, hbal₂⟩ := ih hbal₁
    refine ⟨m₂, ?_, hbal₂⟩
    rw [activities, List.foldlM_cons, h₁]
    exact h₂

/-- In every run from reset, for every timing of the sources, the accesses and the handlers: the
dispatcher never loops for ever or leaves a vector table, the handler of a timer source has never
been called more often than the source has toggled, and the source is pending exactly where the
toggles and the calls together are odd, so that nothing is served twice and events are lost in pairs
only. -/
theorem timer_calls (env : World) (porta portb : BitVec 16) (as : List Activity) :
    ∃ m, activities env (Machine.reset porta portb) as = some m ∧
      ∀ i, m.calls.count (.timer i) ≤ signals env i m.time ∧
        (m.soc.timercause.getLsbD i ≠ m.soc.timercauseInv.getLsbD i ↔
          Odd (signals env i m.time + m.calls.count (.timer i))) := by
  obtain ⟨m, hm, hbal⟩ := activities_balanced (reset_balanced porta portb) as
  exact ⟨m, hm, fun i => ⟨(hbal i).served_le, bne_iff_ne.symm.trans (hbal i).pending_iff⟩⟩

end HfRisc.Results
