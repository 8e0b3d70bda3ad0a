import HfRisc.Results.InterruptCalls

/-!
# What a visit of the dispatcher sees

`irq_handler` (`interrupt.c`) reads the registers of the peripherals one after another, so
what it does depends on what the sources do while it runs and on nothing later. An
operation is `Local` when it never fails, takes time, and does the same in any other world
that goes on alike until it ends. Time passes so (`local_elapse`), operations follow one
another so (`Local.bind`), and the dispatcher is put together from these
(`local_irqHandler`).
-/

namespace HfRisc.Results

open HfRisc.Soft HfRisc.Lib

/-- Two worlds with the same delays, in which the same changes from `a` until `b`. -/
structure SameUntil (env env' : World) (a b : ℕ) : Prop where
  delay : env'.delay = env.delay
  change : ∀ t, a ≤ t → t < b → env'.change t = env.change t

/-- An operation never fails, takes time, and does not look at what changes behind its end. -/
def Local (f : World → Machine → Option Machine) : Prop :=
  ∀ env m, ∃ m', f env m = some m' ∧ m.time ≤ m'.time ∧
    ∀ env', SameUntil env env' m.time m'.time → f env' m = some m'

variable {env env' : World} {f g : World → Machine → Option Machine}

theorem SameUntil.mono {a b a' b' : ℕ} (h : SameUntil env env' a b) (ha : a ≤ a') (hb : b' ≤ b) :
    SameUntil env env' a' b' where
  delay := h.delay
  change t hlo hhi := h.change t (ha.trans hlo) (hhi.trans_le hb)

/-! ## Time -/

theorem ticks_time (env : World) (n : ℕ) (m : Machine) :
    ((Machine.tick env)^[n] m).time = m.time + n := by
  induction n generalizing m with
  | zero => rfl
  | succ n ih =>
    rw [Function.iterate_succ_apply, ih]
    exact Nat.succ_add_eq_add_succ m.time n

/-- Clocks in which the same changes do the same. -/
theorem ticks_congr {n : ℕ} {m : Machine} (h : SameUntil env env' m.time (m.time + n)) :
    (Machine.tick env')^[n] m = (Machine.tick env)^[n] m := by
  induction n generalizing m with
  | zero => rfl
  | succ n ih =>
    have hfirst : m.tick env' = m.tick env := by
      rw [Machine.tick, Machine.tick, h.change m.time le_rfl (by omega)]
    rw [Function.iterate_succ_apply, Function.iterate_succ_apply, hfirst]
    exact ih (h.mono (Nat.le_succ m.time) (Nat.succ_add_eq_add_succ m.time n).le)

theorem local_elapse : Local fun env m => some (m.elapse env) := by
  intro env m
  have htime : (m.elapse env).time = m.time + env.delay m.time := ticks_time env _ m
  refine ⟨_, rfl, by rw [htime]; exact Nat.le_add_right _ _, fun env' h => ?_⟩
  rw [htime] at h
  show some ((Machine.tick env')^[env'.delay m.time] m) = _
  rw [h.delay, ticks_congr h]
  rfl

/-- What takes no time is local. -/
theorem local_done (u : Machine → Machine) (hu : ∀ m, (u m).time = m.time) :
    Local fun _ m => some (u m) :=
  fun _ m => ⟨u m, rfl, (hu m).ge, fun _ _ => rfl⟩

/-! ## Operations one after another -/

theorem Local.of_eq (h : Local f) (heq : ∀ env m, g env m = f env m) : Local g := by
  have hfun : g = f := funext fun env => funext fun m => heq env m
  exact hfun ▸ h

/-- The second operation may depend on what the first one has found. -/
theorem Local.bind {k : Machine → World → Machine → Option Machine} (hf : Local f)
    (hk : ∀ m, Local (k m)) : Local fun env m => (f env m).bind fun m₁ => k m₁ env m₁ := by
  intro env m
  obtain ⟨m₁, h₁, hle₁, hsame₁⟩ := hf env m
  obtain ⟨m₂, h₂, hle₂, hsame₂⟩ := hk m₁ env m₁
  refine ⟨m₂, ?_, hle₁.trans hle₂, fun env' h => ?_⟩
  · show (f env m).bind _ = _
    rw [h₁]
    exact h₂
  · show (f env' m).bind _ = _
    rw [hsame₁ env' (h.mono le_rfl hle₂)]
    exact hsame₂ env' (h.mono hle₁ le_rfl)

/-- An operation on the value of a register. -/
theorem Local.read {w : ℕ} (r : Peripherals → BitVec w)
    {k : Word → World → Machine → Option Machine} (hk : ∀ v, Local (k v)) :
    Local fun env m => k (m.read env r).1 env (m.read env r).2 :=
  local_elapse.bind (k := fun m => k ((r m.soc).setWidth 32)) fun _ => hk _

theorem local_foldlM {body : World → ℕ → Machine → Option Machine} (js : List ℕ)
    (hbody : ∀ j ∈ js, Local fun env m => body env j m) :
    Local fun env m => js.foldlM (fun m j => body env j m) m := by
  induction js with
  | nil => exact local_done id fun _ => rfl
  | cons j js ih =>
    exact (hbody j List.mem_cons_self).bind fun _ =>
      ih fun k hk => hbody k (List.mem_cons_of_mem _ hk)

theorem local_write (u : Peripherals → Peripherals) : Local fun env m => some (m.write env u) :=
  local_elapse.bind fun _ => local_done (fun m => { m with soc := u m.soc }) fun _ => rfl

theorem local_call (k : Handler) : Local fun env m => some (m.call env k) := by
  refine ((local_done (fun m => { m with calls := m.calls ++ [k] }) fun _ => rfl).bind
    fun _ => local_elapse).of_eq fun env m => ?_
  rw [call_eq]
  rfl

/-! ## The sources -/

theorem local_acknowledgePort (get : Peripherals → GpioPort)
    (set : GpioPort → Peripherals → Peripherals) :
    Local fun env m => some (m.acknowledgePort env get set) := by
  refine Local.read (k := fun pin env m =>
    let i := m.read env fun p => (get p).inv
    let k := i.2.read env fun p => (get p).mask
    let i' := k.2.read env fun p => (get p).inv
    some (i'.2.write env fun p =>
      set { get p with inv := (i'.1 ^^^ ((pin ^^^ i.1) &&& k.1)).setWidth 16 } p))
    (fun p => (get p).pins) fun pin => ?_
  refine Local.read (k := fun inv env m =>
    let k := m.read env fun p => (get p).mask
    let i' := k.2.read env fun p => (get p).inv
    some (i'.2.write env fun p =>
      set { get p with inv := (i'.1 ^^^ ((pin ^^^ inv) &&& k.1)).setWidth 16 } p))
    (fun p => (get p).inv) fun inv => ?_
  refine Local.read (k := fun mask env m =>
    let i' := m.read env fun p => (get p).inv
    some (i'.2.write env fun p =>
      set { get p with inv := (i'.1 ^^^ ((pin ^^^ inv) &&& mask)).setWidth 16 } p))
    (fun p => (get p).mask) fun mask => ?_
  exact Local.read (k := fun inv' env m =>
    some (m.write env fun p =>
      set { get p with inv := (inv' ^^^ (pin ^^^ inv) &&& mask).setWidth 16 } p))
    (fun p => (get p).inv) fun _ => local_write _

theorem local_acknowledgeNone : Local fun env m => some (m.acknowledgeNone env) :=
  local_elapse.bind fun _ => local_elapse.bind fun _ => local_elapse.bind fun _ =>
    local_elapse.bind fun _ => local_elapse

theorem local_serveGpio {j : ℕ} (hj : j < 4) : Local fun env m => m.serveGpio env j := by
  unfold Machine.serveGpio
  by_cases h0 : j = 0
  · simp only [if_pos h0]
    exact (local_acknowledgePort Peripherals.porta fun q p => { p with porta := q }).bind
      fun _ => local_call _
  by_cases h1 : j = 1
  · simp only [if_neg h0, if_pos h1]
    exact (local_acknowledgePort Peripherals.portb fun q p => { p with portb := q }).bind
      fun _ => local_call _
  simp only [if_neg h0, if_neg h1, if_pos hj]
  exact local_acknowledgeNone.bind fun _ => local_call _

theorem local_serveTimer {j : ℕ} (hj : j < 4) : Local fun env m => m.serveTimer env j := by
  unfold Machine.serveTimer
  simp only [if_pos (show j < 16 by omega)]
  exact Local.read (k := fun inv env m => some ((m.write env fun p =>
      { p with timercauseInv := (inv ^^^ (1 <<< j)).setWidth 4 }).call env (.timer j)))
    Peripherals.timercauseInv fun _ => (local_write _).bind fun _ => local_call _

/-- The sources that three registers show, one after another. -/
theorem local_sources {w : ℕ} (cause inv mask : Peripherals → BitVec w)
    {body : World → ℕ → Machine → Option Machine}
    (hbody : ∀ j < w, Local fun env m => body env j m) :
    Local fun env m =>
      bitLoop (body env) 32 (((m.read env cause).1 ^^^ ((m.read env cause).2.read env inv).1) &&&
        (((m.read env cause).2.read env inv).2.read env mask).1) 0
        (((m.read env cause).2.read env inv).2.read env mask).2 := by
  refine (local_elapse.bind fun m₁ => local_elapse.bind fun m₂ => local_elapse.bind fun m₃ =>
    local_foldlM (setBits (((cause m₁.soc).setWidth 32 ^^^ (inv m₂.soc).setWidth 32) &&&
      (mask m₃.soc).setWidth 32 : Word)) fun j hj => hbody j (lt_of_mem_setBits hj)).of_eq
    fun env m => ?_
  rw [bitLoop_eq _ (by decide)]
  rfl

/-! ## The dispatcher -/

theorem local_segment (k : Word) : Local fun env m => m.segment env k := by
  have hnothing : Local fun _ m => some m := local_done id fun _ => rfl
  have hgpio : Local fun env m => m.gpioSources env :=
    local_sources Peripherals.gpiocause Peripherals.gpiocauseInv Peripherals.gpiomask
      fun j hj => local_serveGpio hj
  have htimer : Local fun env m => m.timerSources env :=
    local_sources Peripherals.timercause Peripherals.timercauseInv Peripherals.timermask
      fun j hj => local_serveTimer hj
  have hunknown : Local fun env m => some ((m.elapse env).call env .unknown) :=
    local_elapse.bind fun _ => local_call _
  refine Local.read (k := fun cause env m =>
    if cause &&& k = 0 then some m
    else if cause &&& k = 1 <<< 0 then some m
    else if cause &&& k = 1 <<< 1 then m.gpioSources env
    else if cause &&& k = 1 <<< 2 then m.timerSources env
    else if cause &&& k = 1 <<< 3 then some m
    else if cause &&& k = 1 <<< 4 then some m
    else if cause &&& k = 1 <<< 5 then some m
    else some ((m.elapse env).call env .unknown)) Peripherals.s0cause fun cause => ?_
  split_ifs
  · exact hnothing
  · exact hnothing
  · exact hgpio
  · exact htimer
  · exact hnothing
  · exact hnothing
  · exact hnothing
  · exact hunknown

/-- The loop ends when `k` is shifted out. -/
theorem local_irq0Loop {fuel : ℕ} {k : Word} (hk : k <<< fuel = 0) (hfuel : 0 < fuel) :
    Local fun env m => m.irq0Loop env fuel k := by
  induction fuel generalizing k with
  | zero => exact absurd hfuel (Nat.lt_irrefl 0)
  | succ fuel ih =>
    rw [Nat.add_comm, BitVec.shiftLeft_add] at hk
    refine (local_segment k).bind fun _ => Local.read (k := fun cause env m =>
      if cause ≠ 0 ∧ k <<< 1 ≠ 0 then m.irq0Loop env fuel (k <<< 1) else some m)
      Peripherals.s0cause fun cause => ?_
    by_cases hagain : cause ≠ 0 ∧ k <<< 1 ≠ 0
    · simp only [if_pos hagain]
      refine ih hk (Nat.pos_of_ne_zero fun hzero => hagain.2 ?_)
      rwa [hzero, BitVec.shiftLeft_zero] at hk
    · simp only [if_neg hagain]
      exact local_done id fun _ => rfl

theorem local_serveIrq {j : ℕ} (hj : j < 8) : Local fun env m => m.serveIrq env j := by
  unfold Machine.serveIrq
  by_cases h0 : j = 0
  · simp only [if_pos h0]
    exact local_irq0Loop (by decide) (by decide)
  · simp only [if_neg h0, if_pos hj]
    exact local_call _

/-- The dispatcher never fails, and depends only on what the sources do until it returns. -/
theorem local_irqHandler (cause : BitVec 8) :
    Local fun env m => m.irqHandler env (cause.setWidth 32) := by
  refine (local_foldlM (setBits cause) fun j hj =>
    local_serveIrq (BitVec.lt_of_getLsbD (mem_setBits.mp hj))).of_eq fun env m => ?_
  rw [Machine.irqHandler, bitLoop_eq _ (by decide), setBits_setWidth (by decide)]

end HfRisc.Results
