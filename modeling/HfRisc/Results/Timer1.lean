import HfRisc.Results.SimZero
import HfRisc.Rtl.Timers

/-!
# `TIMER1` in the simulator and in the SoC

Both reset `timer1` at the compare value and toggle the interrupt cause. The simulator
compares in every cycle, so `timer1` leaves the compare value one clock after it has
reached it. The SoC compares at the pulses of the prescaler, so `timer1` keeps the
compare value for a whole period of the prescaler, and the distance of two edges is
`(ctc + 1) * 4 ^ pre`. It is never the distance in the simulator.

A write with bit 31 set unlocks the counter, which then neither counts nor loses the value
written next, but for a compare match: that one starts the counter from zero whether it is
locked or not, and at the second write it wins over the value.
-/

namespace HfRisc.Results

open HfRisc.Sim

/-! ## One turn of the simulator -/

/-- The instruction of this turn stores to `TIMER1`, `TIMER1_PRE` or `TIMER1_CTC`. -/
def writesTimer1 (s : State) : Bool :=
  match (ready s).memFetch (ready s).pc with
  | .ok w =>
    match action w (ready s).pc ((ready s).operands w) with
    | .store _ address _ => decide (isTimer1 address)
    | _ => false
  | .error _ => false

/-- The cause of the compare match changes. -/
def Toggles (s t : Base) : Prop := t.timercause &&& 0x4 ≠ s.timercause &&& 0x4

instance (s t : Base) : Decidable (Toggles s t) := inferInstanceAs (Decidable (_ ≠ _))

section Turn

variable {s t : State} {w : Word}

theorem perform_sameTimer {a : Action} (h : s.perform w a = .ok t)
    (ha : ∀ size address v, a = .store size address v → ¬ isTimer1 address) :
    s.SameTimer t.toBase := by
  cases a with
  | write v =>
    cases h
    exact ⟨rfl, rfl, rfl, rfl, rfl⟩
  | link target =>
    cases h
    exact ⟨rfl, rfl, rfl, rfl, rfl⟩
  | branch taken target =>
    cases h
    cases taken <;> exact ⟨rfl, rfl, rfl, rfl, rfl⟩
  | load type size address =>
    cases hr : s.memRead size address with
    | error e =>
      simp only [State.perform, hr, bind, Except.bind] at h
      cases h
    | ok p =>
      simp only [State.perform, hr, bind, Except.bind, Except.ok.injEq] at h
      obtain ⟨h0, h1, hp, hc, hcause⟩ := State.memRead_sameTimer hr
      subst h
      exact ⟨h0, h1, hp, hc, hcause⟩
  | store size address v => exact State.memWrite_sameTimer (ha size address v rfl) h
  | system =>
    replace h : s.system w = .ok t := h
    rw [State.system] at h
    repeat' split at h
    all_goals cases h
    all_goals first | exact ⟨rfl, rfl, rfl, rfl, rfl⟩ | exact Base.getchar_sameTimer
  | fail => cases h
  | undefined => cases h

theorem ready_sameTimer (s : State) : s.SameTimer (ready s).toBase := by
  rw [ready, State.takeInterrupt]
  split <;> exact ⟨rfl, rfl, rfl, rfl, rfl⟩

/-- A turn that leaves the registers of `TIMER1` alone advances the timers it found. -/
theorem turn_timer (h : s.turn = .ok t) (hw : writesTimer1 s = false) :
    ∃ m gpio, t.toBase = Base.advance m gpio ∧ s.SameTimer m := by
  obtain ⟨w, u, hfetch, hexec, rfl⟩ := turn_cases h
  obtain ⟨h0, h1, hp, hc, hcause⟩ := ready_sameTimer s
  obtain ⟨h0', h1', hp', hc', hcause'⟩ := perform_sameTimer hexec fun size address v ha => by
    simp only [writesTimer1, hfetch, ha, decide_eq_false_iff_not] at hw
    exact hw
  exact ⟨u.toBase, _, rfl, h0'.trans h0, h1'.trans h1, hp'.trans hp, hc'.trans hc,
    hcause'.trans hcause⟩

/-- A cause bit that `setBit` does not set. -/
theorem setBit_and_four {p : Prop} [Decidable p] {x bit keep : Word} (hbit : bit &&& 0x4 = 0)
    (hkeep : keep &&& 0x4 = 0x4) : Base.setBit p x bit keep &&& 0x4 = x &&& 0x4 := by
  rw [Base.setBit]
  split
  · rw [BitVec.and_or_distrib_right, hbit]
    exact BitVec.or_zero
  · rw [BitVec.and_assoc, hkeep]

theorem timercauseNext_and_four (m : Base) :
    m.timercauseNext &&& 0x4 =
      if m.ctcMatch then (m.timercause &&& 0x4) ^^^ 0x4 else m.timercause &&& 0x4 := by
  rw [Base.timercauseNext]
  rw [setBit_and_four (by decide) (by decide)]
  have hbits : ∀ {p q : Prop} [Decidable p] [Decidable q],
      Base.setBit q (Base.setBit p m.timercause 0x01 0xfe) 0x02 0xfd &&& 0x4 =
        m.timercause &&& 0x4 := by
    intros
    rw [setBit_and_four (by decide) (by decide), setBit_and_four (by decide) (by decide)]
  have hflip : ∀ c : Word, (c ^^^ 0x4) &&& 0x4 = (c &&& 0x4) ^^^ 0x4 := fun c => by
    ext i hi
    simp only [BitVec.getElem_and, BitVec.getElem_xor, Bool.and_xor_distrib_right, Bool.and_self]
  split
  · rw [hflip, hbits]
  · exact hbits

/-- The cause toggles when `timer1` is found at the compare value. -/
theorem turn_toggles_iff (h : s.turn = .ok t) (hw : writesTimer1 s = false) :
    Toggles s.toBase t.toBase ↔ s.timer1 = s.timer1Ctc := by
  obtain ⟨m, gpio, ht, hm⟩ := turn_timer h hw
  have hcause : t.timercause = m.timercauseNext := by rw [ht]; rfl
  rw [Toggles, hcause, timercauseNext_and_four, hm.cause, Base.ctcMatch, hm.timer1, hm.ctc]
  by_cases hmatch : s.timer1 = s.timer1Ctc
  · rw [if_pos (beq_iff_eq.mpr hmatch)]
    refine iff_of_true (fun heq => ?_) hmatch
    have hzero := congrArg (· ^^^ (s.timercause &&& 0x4)) heq
    simp only [BitVec.xor_self, BitVec.xor_comm (s.timercause &&& 0x4), BitVec.xor_assoc,
      BitVec.xor_zero] at hzero
    exact absurd hzero (by decide)
  · rw [if_neg (fun hb => hmatch (beq_iff_eq.mp hb))]
    exact iff_of_false (fun hne => hne rfl) hmatch

end Turn

/-! ## The prescaler of the simulator -/

/-- The clocks between two counts of `timer1` in the simulator. -/
def simPeriod (pre : Word) : ℕ := (Base.prescale pre).toNat + 1

/-- For the settings 1 to 7 it is that of the SoC, which sees three bits of the word
written to `TIMER1_PRE`; the simulator sees sixteen and counts every clock otherwise. -/
theorem simPeriod_cases (v : Word) :
    simPeriod (v &&& 0xffff) = Rtl.Timers.prescale (v.extractLsb' 0 3) ∨
      simPeriod (v &&& 0xffff) = 1 := by
  have hlow : v.extractLsb' 0 3 = (v &&& 0xffff).extractLsb' 0 3 := by
    ext i hi
    interval_cases i <;> simp
  rw [hlow]
  generalize v &&& 0xffff = pre
  rw [simPeriod, Base.prescale]
  repeat' split
  all_goals first | exact .inr rfl | skip
  all_goals
    rename_i h
    left
    rw [h]
    decide

theorem exists_simPeriod_eq (pre : Word) : ∃ k ≤ 32, simPeriod pre = 2 ^ k := by
  rw [simPeriod, Base.prescale]
  repeat' split
  exacts [⟨2, by decide, rfl⟩, ⟨4, by decide, rfl⟩, ⟨6, by decide, rfl⟩, ⟨8, by decide, rfl⟩,
    ⟨10, by decide, rfl⟩, ⟨12, by decide, rfl⟩, ⟨14, by decide, rfl⟩, ⟨0, by decide, rfl⟩]

/-- The mask of the prescaler finds the multiples of its period. -/
theorem and_prescale_iff {x pre : Word} :
    x &&& Base.prescale pre = 0 ↔ simPeriod pre ∣ x.toNat := by
  obtain ⟨k, -, hk⟩ := exists_simPeriod_eq pre
  have hmask : (Base.prescale pre).toNat = 2 ^ k - 1 := by
    rw [← hk, simPeriod, Nat.add_sub_cancel]
  rw [← BitVec.toNat_inj, BitVec.toNat_and, hmask, Nat.and_two_pow_sub_one_eq_mod, hk]
  exact (Nat.dvd_iff_mod_eq_zero).symm

/-! ## Runs of the simulator -/

/-- A stretch of a run of the simulator. The cause of the compare match toggles in
turns `0` and `n`, in none between them, and from the first on no instruction writes
`TIMER1`, `TIMER1_PRE` or `TIMER1_CTC`, which hold the words `pre` and `ctc`. -/
structure SimGap (u : ℕ → State) (pre ctc : Word) (n : ℕ) : Prop where
  turns : ∀ j ≤ n, (u j).turn = .ok (u (j + 1))
  quiet : ∀ j ≤ n, writesTimer1 (u j) = false
  pre : (u 0).timer1Pre = pre &&& 0xffff
  ctc : (u 0).timer1Ctc = ctc &&& 0xffff
  pos : 0 < n
  first : Toggles (u 0).toBase (u 1).toBase
  next : Toggles (u n).toBase (u (n + 1)).toBase
  between : ∀ j, 0 < j → j < n → ¬ Toggles (u j).toBase (u (j + 1)).toBase

/-- What stays along such a stretch. -/
structure SameSettings (s t : Base) (j : ℕ) : Prop where
  pre : t.timer1Pre = s.timer1Pre
  ctc : t.timer1Ctc = s.timer1Ctc
  timer0 : t.timer0 = s.timer0 + BitVec.ofNat 32 j

theorem toNat_and_ffff (x : Word) : (x &&& 0xffff).toNat = x.toNat % 65536 := by
  rw [BitVec.toNat_and]
  exact Nat.and_two_pow_sub_one_eq_mod x.toNat 16

/-- `timer1` after a turn. -/
theorem turn_timer1 {s t : State} (h : s.turn = .ok t) (hw : writesTimer1 s = false) :
    t.timer1.toNat =
      ((if s.timer1 = s.timer1Ctc then 0 else s.timer1.toNat) +
        if simPeriod s.timer1Pre ∣ (s.timer0 + 1).toNat then 1 else 0) % 65536 := by
  obtain ⟨m, gpio, ht, hm⟩ := turn_timer h hw
  have h1 : t.timer1 = m.timer1Next := by rw [ht]; rfl
  rw [h1, Base.timer1Next, Base.ctcMatch, hm.timer0, hm.timer1, hm.pre, hm.ctc]
  rw [toNat_and_ffff]
  have hmod : ∀ x : Word, (x + 1).toNat % 65536 = (x.toNat + 1) % 65536 := fun x => by
    rw [BitVec.toNat_add]
    exact Nat.mod_mod_of_dvd _ (by decide)
  by_cases hmatch : s.timer1 = s.timer1Ctc <;>
    by_cases htick : s.timer0 + 1 &&& Base.prescale s.timer1Pre = 0
  · rw [if_pos htick, if_pos (beq_iff_eq.mpr hmatch), if_pos hmatch,
      if_pos (and_prescale_iff.mp htick)]
    rfl
  · rw [if_neg htick, if_pos (beq_iff_eq.mpr hmatch), if_pos hmatch,
      if_neg (fun hd => htick (and_prescale_iff.mpr hd))]
    rfl
  · rw [if_pos htick, if_neg (fun hb => hmatch (beq_iff_eq.mp hb)), if_neg hmatch,
      if_pos (and_prescale_iff.mp htick), hmod]
  · rw [if_neg htick, if_neg (fun hb => hmatch (beq_iff_eq.mp hb)), if_neg hmatch,
      if_neg (fun hd => htick (and_prescale_iff.mpr hd)), Nat.add_zero]

namespace SimGap

variable {u : ℕ → State} {pre ctc : Word} {n : ℕ}

theorem settings (h : SimGap u pre ctc n) :
    ∀ j ≤ n, SameSettings (u 0).toBase (u j).toBase j := by
  intro j hj
  induction j with
  | zero => exact ⟨rfl, rfl, (BitVec.add_zero _).symm⟩
  | succ j ih =>
    have hprev := ih (Nat.le_of_succ_le hj)
    obtain ⟨m, gpio, ht, hm⟩ := turn_timer (h.turns j (Nat.le_of_succ_le hj))
      (h.quiet j (Nat.le_of_succ_le hj))
    rw [ht]
    refine ⟨hm.pre.trans hprev.pre, hm.ctc.trans hprev.ctc, ?_⟩
    show m.timer0 + 1 = _
    rw [hm.timer0, hprev.timer0]
    bv_omega

/-- Between two matches, `timer1` counts the ticks, and every cycle compares it. -/
theorem level (h : SimGap u pre ctc n) :
    Lib.LevelGap (simPeriod (pre &&& 0xffff)) (u 0).timer0.toNat 65536
      (ctc &&& 0xffff).toNat n := by
  have hset := h.settings
  have htoggle : ∀ j ≤ n, Toggles (u j).toBase (u (j + 1)).toBase ↔
      (u j).timer1 = ctc &&& 0xffff := fun j hj => by
    rw [turn_toggles_iff (h.turns j hj) (h.quiet j hj), (hset j hj).ctc, h.ctc]
  obtain ⟨k, hk, hperiod⟩ := exists_simPeriod_eq (pre &&& 0xffff)
  have htick : ∀ j ≤ n, simPeriod (u j).timer1Pre ∣ ((u j).timer0 + 1).toNat ↔
      simPeriod (pre &&& 0xffff) ∣ (u 0).timer0.toNat + j + 1 := fun j hj => by
    have htime : ((u j).timer0 + 1).toNat = ((u 0).timer0.toNat + j + 1) % 2 ^ 32 := by
      rw [(hset j hj).timer0]
      bv_omega
    rw [(hset j hj).pre, h.pre, htime, Nat.dvd_mod_iff]
    rw [hperiod]
    exact Nat.pow_dvd_pow 2 hk
  -- the match of turn `0` resets the counter, whatever it holds
  let v : ℕ → ℕ := fun j => if j = 0 then 0 else (u j).timer1.toNat
  have hcount : ∀ i ≤ n, v i =
      Lib.ticks (simPeriod (pre &&& 0xffff)) (u 0).timer0.toNat i % 65536 := by
    refine Lib.counter_eq_ticks rfl fun i hi => ?_
    have hstep := turn_timer1 (h.turns i hi.le) (h.quiet i hi.le)
    simp only [htick i hi.le] at hstep
    show (u (i + 1)).timer1.toNat = _
    rw [hstep]
    rcases Nat.eq_zero_or_pos i with rfl | hpos
    · rw [if_pos ((turn_toggles_iff (h.turns 0 hi.le) (h.quiet 0 hi.le)).mp h.first)]
      rfl
    · rw [if_neg fun heq => h.between i hpos hi
          ((turn_toggles_iff (h.turns i hi.le) (h.quiet i hi.le)).mpr heq),
        show v i = (u i).timer1.toNat from if_neg hpos.ne']
  have hv : ∀ j, 0 < j → v j = (u j).timer1.toNat := fun j hj => if_neg hj.ne'
  refine ⟨h.pos, ?_, fun j hj hjn heq => ?_⟩
  · rw [← hcount n le_rfl, hv n h.pos, (htoggle n le_rfl).mp h.next]
  · rw [← hcount j hjn.le, hv j hj] at heq
    exact h.between j hj hjn ((htoggle j hjn.le).mpr (BitVec.eq_of_toNat_eq heq))

end SimGap

/-! ## Runs of the SoC -/

/-- A stretch of a run of the timers of the SoC. The cause of the compare match toggles
in cycles `2` and `2 + n`, in none between them, and from two cycles before the first on
(the prescaler has two registers) the bus writes none of `TIMER1`, `TIMER1_PRE` and
`TIMER1_CTC`, which hold the words `pre` and `ctc`. -/
structure SocGap (u : ℕ → Rtl.Timers) (y : ℕ → Rtl.PeriphBus) (pre ctc : Word) (n : ℕ) :
    Prop where
  steps : ∀ j, u (j + 1) = (u j).step (y j)
  quiet : ∀ j ≤ 2 + n, (y j).writesTimer1 = false
  pre : (u 0).timer1Pre = pre.extractLsb' 0 3
  ctc : (u 0).timer1Ctc = ctc.extractLsb' 0 16
  pos : 0 < n
  first : (u 2).Toggles (y 2)
  next : (u (2 + n)).Toggles (y (2 + n))
  between : ∀ j, 0 < j → j < n → ¬ (u (2 + j)).Toggles (y (2 + j))

theorem SocGap.edge {u : ℕ → Rtl.Timers} {y : ℕ → Rtl.PeriphBus} {pre ctc : Word} {n : ℕ}
    (h : SocGap u y pre ctc n) :
    Lib.EdgeGap (Rtl.Timers.prescale (pre.extractLsb' 0 3)) ((u 2).timer0 - 1).toNat 65536
      (ctc.extractLsb' 0 16).toNat (n - 1) := by
  have hpos := h.pos
  have hset₁ := Rtl.Timers.step_settings (s := u 0) (h.quiet 0 (Nat.zero_le _))
  have hset₂ := Rtl.Timers.step_settings (s := u 1) (h.quiet 1 (by omega))
  rw [← h.steps] at hset₁ hset₂
  have hpre : (u 2).timer1Pre = pre.extractLsb' 0 3 := by rw [hset₂.pre, hset₁.pre, h.pre]
  have hctc : (u 2).timer1Ctc = ctc.extractLsb' 0 16 := by rw [hset₂.ctc, hset₁.ctc, h.ctc]
  have hsettled : (u 2).Settled := by
    rw [h.steps 1, h.steps 0]
    exact Rtl.Timers.settled_two (h.quiet 0 (Nat.zero_le _)) (h.quiet 1 (by omega))
  have hgap := Rtl.Timers.edgeGap (u := fun j => u (2 + j)) (y := fun j => y (2 + j))
    (n := n - 1) (fun j => h.steps (2 + j)) hsettled (fun j hj => h.quiet (2 + j) (by omega))
    (Rtl.Timers.toggles_iff.mp h.first)
    (by rw [show n - 1 + 1 = n by omega]; exact Rtl.Timers.toggles_iff.mp h.next)
    fun j hj => Bool.eq_false_of_not_eq_true fun hm =>
      h.between (j + 1) (Nat.succ_pos j) (by omega) (Rtl.Timers.toggles_iff.mpr hm)
  simp only [Nat.add_zero] at hgap
  rwa [hpre, hctc] at hgap

/-! ## The distances -/

/-- For every prescaler setting and every compare value written to both, and in every
stretch between two successive edges, the SoC takes `(ctc + 1) * 4 ^ pre` cycles and the
simulator a different number: never more than `ctc` periods of its prescaler when `ctc` is
positive. -/
theorem timer1_gap_ne {u : ℕ → State} {v : ℕ → Rtl.Timers} {y : ℕ → Rtl.PeriphBus}
    {pre ctc : Word} {n m : ℕ} (hsim : SimGap u pre ctc n) (hsoc : SocGap v y pre ctc m) :
    m = ((ctc.extractLsb' 0 16).toNat + 1) * 4 ^ (pre.extractLsb' 0 3).toNat ∧
      (ctc.extractLsb' 0 16 ≠ 0 →
        n ≤ (ctc.extractLsb' 0 16).toNat * simPeriod (pre &&& 0xffff)) ∧
      n ≠ m := by
  have hpos := hsoc.pos
  have hctc : (ctc &&& 0xffff).toNat = (ctc.extractLsb' 0 16).toNat := by
    rw [toNat_and_ffff, BitVec.extractLsb'_toNat, Nat.shiftRight_zero]
  have hlt : (ctc.extractLsb' 0 16).toNat < 65536 := (ctc.extractLsb' 0 16).isLt
  have hlevel := hsim.level
  rw [hctc] at hlevel
  have hedge := hsoc.edge
  have hm := hedge.eq (Rtl.Timers.prescale_pos _) hlt
  refine ⟨by rw [← Rtl.Timers.prescale, ← hm]; omega, fun h0 => ?_, ?_⟩
  · have hc0 : 0 < (ctc.extractLsb' 0 16).toNat :=
      Nat.pos_of_ne_zero fun hz => h0 (BitVec.eq_of_toNat_eq hz)
    have hn := hlevel.add_mod (Nat.succ_pos _) hc0 hlt
    omega
  · have hne := hlevel.ne_edge hedge (simPeriod_cases pre) (Rtl.Timers.prescale_pos _)
      (Rtl.Timers.prescale_lt _) hlt
    rwa [show m - 1 + 1 = m by omega] at hne

/-! ## Prescaler 1, compare value 1 -/

/-- `addi x6, x0, 1`, `lui x5, 0xe1024`, `sw x6, TIMER1_CTC`, `sw x6, TIMER1_PRE`,
`sw x0, TIMER1`, `jal x0, 0`. -/
def setTimer1 : List Word :=
  [0x00100313, 0xe10242b7, 0x4262a023, 0x4062a823, 0x4002a023, 0x0000006f]

/-- The state after `k` turns. -/
def stateAt (s : State) (k : ℕ) : State :=
  match run s k with
  | .ok t => t
  | .error _ => s

/-- `TIMER1_PRE` and `TIMER1_CTC` are set to one, then the bus is idle. -/
def setTimer1Bus : ℕ → Rtl.PeriphBus
  | 0 => ⟨true, true, 0xe1024410, 1⟩
  | 1 => ⟨true, true, 0xe1024420, 1⟩
  | _ => ⟨false, false, 0, 0⟩

/-- The timers of the SoC in cycle `k`. -/
def timersAt (k : ℕ) : Rtl.Timers :=
  Rtl.Timers.machine.run Rtl.Timers.reset (Lib.Mealy.inputs setTimer1Bus k)

/-- A run that has not stopped is a run of turns. -/
theorem turn_stateAt {s : State} {k N : ℕ} (hN : (run s N).isOk = true) (hk : k < N) :
    (stateAt s k).turn = .ok (stateAt s (k + 1)) := by
  induction N with
  | zero => exact absurd hk (Nat.not_lt_zero k)
  | succ N ih =>
    have hrun : run s (N + 1) = run s N >>= State.turn := rfl
    cases hprev : run s N with
    | error e =>
      rw [hrun, hprev] at hN
      cases hN
    | ok t =>
      rcases Nat.lt_succ_iff_lt_or_eq.mp hk with hlt | rfl
      · exact ih (by rw [hprev]; rfl) hlt
      · rw [hprev] at hrun
        replace hrun : run s (k + 1) = t.turn := hrun
        rw [hrun] at hN
        rw [stateAt, hprev, stateAt, hrun]
        cases hturn : t.turn with
        | error e =>
          rw [hturn] at hN
          cases hN
        | ok t' => rfl

/-- The edges of turns 8 and 12 of the program. -/
theorem setTimer1_simGap : SimGap (fun j => stateAt (loaded setTimer1) (8 + j)) 1 1 4 where
  turns j hj := turn_stateAt (N := 13) (by decide +kernel) (by omega)
  quiet := by decide +kernel
  pre := by decide +kernel
  ctc := by decide +kernel
  pos := by decide
  first := by decide +kernel
  next := by decide +kernel
  between := by
    intro j hj hj4
    interval_cases j <;> decide +kernel

/-- The edges of cycles 9 and 17 of the SoC. -/
theorem setTimer1_socGap :
    SocGap (fun j => timersAt (7 + j)) (fun j => setTimer1Bus (7 + j)) 1 1 8 where
  steps j := Lib.Mealy.run_inputs_succ _ _ _ _
  quiet := by decide +kernel
  pre := by decide +kernel
  ctc := by decide +kernel
  pos := by decide
  first := by decide +kernel
  next := by decide +kernel
  between := by
    intro j hj hj8
    interval_cases j <;> decide +kernel

theorem timer1_gap_ne_set :
    8 = ((1 : Word).extractLsb' 0 16).toNat.succ * 4 ^ ((1 : Word).extractLsb' 0 3).toNat ∧
      ((1 : Word).extractLsb' 0 16 ≠ 0 →
        4 ≤ ((1 : Word).extractLsb' 0 16).toNat * simPeriod ((1 : Word) &&& 0xffff)) ∧
      4 ≠ 8 :=
  timer1_gap_ne setTimer1_simGap setTimer1_socGap

/-- The distances do not agree: four turns in the simulator, eight cycles in the SoC. -/
theorem timer1_gap_differs :
    ¬ ∀ (u : ℕ → State) (v : ℕ → Rtl.Timers) (y : ℕ → Rtl.PeriphBus) (pre ctc : Word)
      (n m : ℕ), SimGap u pre ctc n → SocGap v y pre ctc m → n = m := by
  intro h
  have heq := h _ _ _ _ _ _ _ setTimer1_simGap setTimer1_socGap
  exact absurd heq (by decide)

end HfRisc.Results

/-! ## Setting `TIMER1` -/

namespace HfRisc.Rtl

/-- The write goes to `TIMER1` itself. -/
def PeriphBus.setsTimer1 (b : PeriphBus) : Bool :=
  b.timersWrite && b.device == 0b010001 && b.funct == 0b0000

namespace Timers

variable {s : Timers} {b : PeriphBus}

theorem write_other (hb : b.setsTimer1 = false) :
    (s.write b).timer1Set = s.timer1Set ∧ (s.write b).timer1 = s.timer1 := by
  unfold write
  split
  · rename_i hw
    repeat' split
    all_goals first | exact ⟨rfl, rfl⟩ | skip
    rename_i hd
    simp only [PeriphBus.setsTimer1, hw, hd, BEq.rfl, Bool.true_and, beq_eq_false_iff_ne] at hb
    rw [writeTimer1, if_neg hb]
    repeat' split
    all_goals exact ⟨rfl, rfl⟩
  · exact ⟨rfl, rfl⟩

theorem write_timer1 (hb : b.setsTimer1 = true) :
    (s.write b).timer1Set = (!s.timer1Set && b.data.getLsbD 31) ∧
      (s.write b).timer1 = if s.timer1Set then b.data.extractLsb' 0 16 else s.timer1 := by
  simp only [PeriphBus.setsTimer1, Bool.and_eq_true, beq_iff_eq] at hb
  obtain ⟨⟨hw, hd⟩, hf⟩ := hb
  rw [write, if_pos hw, if_neg (by rw [hd]; decide), if_neg (by rw [hd]; decide), if_pos hd,
    writeTimer1, if_pos hf]
  exact ⟨rfl, rfl⟩

theorem step_timer1Set : (s.step b).timer1Set = (s.write b).timer1Set := rfl

/-- The counter after a clock edge, in terms of what the bus leaves in it. -/
theorem step_timer1_eq : (s.step b).timer1 =
    if s.ctcMatch then 0
    else if s.tmr1Pulse = true ∧ s.timer1Set = false then s.timer1 + 1
    else (s.write b).timer1 := by
  simp only [step, ctcMatch, Bool.and_eq_true, beq_iff_eq]
  by_cases hp : s.tmr1Pulse = true
  · by_cases hc : s.timer1 = s.timer1Ctc
    · simp [hp, hc]
    · simp [hp, hc]
  · simp [hp]

/-- The value that the counter has next when nothing is written. -/
def counted (s : Timers) : BitVec 16 :=
  if s.ctcMatch then 0
  else if s.tmr1Pulse = true ∧ s.timer1Set = false then s.timer1 + 1
  else s.timer1

end Timers

end HfRisc.Rtl

namespace HfRisc.Results

open HfRisc.Rtl

/-- `TIMER1` is written with bit 31 set in cycle 0 and with a value `v` in cycle `n`, and not
between; the other registers may be written at any time. -/
structure SetSequence (u : ℕ → Timers) (y : ℕ → PeriphBus) (n : ℕ) (v : BitVec 16) : Prop where
  steps : ∀ j, u (j + 1) = (u j).step (y j)
  pos : 0 < n
  first : (y 0).setsTimer1 = true ∧ (y 0).data.getLsbD 31 = true
  between : ∀ j, 0 < j → j < n → (y j).setsTimer1 = false
  second : (y n).setsTimer1 = true ∧ (y n).data.getLsbD 31 = false ∧
    (y n).data.extractLsb' 0 16 = v

/-- `TIMER1` is `v` in the cycle behind the second write, and while it is unlocked between the
two writes nothing but a compare match changes it: it does not count. -/
structure SetTo (u : ℕ → Timers) (n : ℕ) (v : BitVec 16) : Prop where
  value : (u (n + 1)).timer1 = v
  frozen : ∀ j, 0 < j → j < n → (u j).timer1Set = true → (u j).ctcMatch = false →
    (u (j + 1)).timer1 = (u j).timer1

variable {u : ℕ → Timers} {y : ℕ → PeriphBus} {n : ℕ} {v : BitVec 16}

namespace SetSequence

variable (h : SetSequence u y n v)
include h

/-- The lock between the two writes. -/
theorem timer1Set_eq : ∀ j, 0 < j → j ≤ n → (u j).timer1Set = !(u 0).timer1Set := by
  intro j hj hjn
  induction j, hj using Nat.le_induction with
  | base =>
    rw [h.steps 0, Timers.step_timer1Set, (Timers.write_timer1 h.first.1).1, h.first.2,
      Bool.and_true]
  | succ j hj ih =>
    rw [h.steps j, Timers.step_timer1Set, (Timers.write_other (h.between j hj (by omega))).1]
    exact ih (by omega)

/-- Between the writes the counter only counts. -/
theorem timer1_between {j : ℕ} (hj : 0 < j) (hjn : j < n) :
    (u (j + 1)).timer1 = (u j).counted := by
  rw [h.steps, Timers.step_timer1_eq, (Timers.write_other (h.between j hj hjn)).2]
  rfl

theorem timer1_second : (u (n + 1)).timer1 =
    if (u 0).timer1Set = false then (if (u n).ctcMatch then 0 else v) else (u n).counted := by
  have hset := h.timer1Set_eq n h.pos (Nat.le_refl n)
  rw [h.steps, Timers.step_timer1_eq, (Timers.write_timer1 h.second.1).2, h.second.2.2, hset]
  cases hlock : (u 0).timer1Set with
  | false => simp
  | true => simp [Timers.counted, hset, hlock]

end SetSequence

/-- For every prescaler, compare value and counter, and every timing of the two writes against
the ticks: the sequence sets `TIMER1` if and only if the counter was locked before it and the
tick of the second write does not find it at the compare value, unless the value is zero. If
the counter was unlocked before, the first write locks it and the second is ignored, and the
counter is right only if it counts to the value by itself. -/
theorem timer1_set_iff (h : SetSequence u y n v) :
    SetTo u n v ↔
      if (u 0).timer1Set = false then (u n).ctcMatch = true → v = 0 else (u n).counted = v := by
  have hvalue := h.timer1_second
  cases hlock : (u 0).timer1Set with
  | true =>
    rw [hlock, if_neg (by decide)] at hvalue
    rw [if_neg (by decide), ← hvalue]
    refine ⟨fun hset => hset.value, fun heq => ⟨heq, fun j hj hjn hset => ?_⟩⟩
    rw [h.timer1Set_eq j hj (Nat.le_of_lt hjn), hlock] at hset
    cases hset
  | false =>
    rw [hlock, if_pos rfl] at hvalue
    rw [if_pos rfl]
    constructor
    · intro hset hm
      rw [← hset.value, hvalue, if_pos hm]
    · intro hlast
      refine ⟨?_, fun j hj hjn hset hm => ?_⟩
      · rw [hvalue]
        by_cases hm : (u n).ctcMatch = true
        · rw [if_pos hm, hlast hm]
        · rw [if_neg hm]
      · -- Unlocked, it neither matches nor counts.
        rw [h.timer1_between hj hjn, Timers.counted, hset, hm]
        simp

/-- `TIMER1_CTC` is set to 3; `TIMER1` is unlocked in cycle `a` and set to 7 in cycle `b`. -/
def setSeven (a b k : ℕ) : PeriphBus :=
  if k = 0 then ⟨true, true, 0xe1024420, 3⟩
  else if k = a then ⟨true, true, 0xe1024400, 0x80000000⟩
  else if k = b then ⟨true, true, 0xe1024400, 7⟩
  else ⟨false, false, 0, 0⟩

/-- The timers in cycle `k` of it. -/
def setSevenAt (a b k : ℕ) : Timers :=
  Timers.machine.run Timers.reset (Lib.Mealy.inputs (setSeven a b) k)

theorem setSeven_sequence {a b n : ℕ} (hpos : 0 < n)
    (hfirst : (setSeven a b a).setsTimer1 = true ∧ (setSeven a b a).data.getLsbD 31 = true)
    (hbetween : ∀ j < n, 0 < j → (setSeven a b (a + j)).setsTimer1 = false)
    (hsecond : (setSeven a b (a + n)).setsTimer1 = true ∧
      (setSeven a b (a + n)).data.getLsbD 31 = false ∧
      (setSeven a b (a + n)).data.extractLsb' 0 16 = 7) :
    SetSequence (fun j => setSevenAt a b (a + j)) (fun j => setSeven a b (a + j)) n 7 where
  steps _ := Lib.Mealy.run_inputs_succ _ _ _ _
  pos := hpos
  first := hfirst
  between j hj hjn := hbetween j hjn hj
  second := hsecond

/-- Unlocked when it has come to the compare value, and set two cycles later: the match in
between starts it from zero, and it is 7 behind the second write. -/
theorem timer1_set_iff_seven : (setSevenAt 4 6 5).ctcMatch = true ∧ (setSevenAt 4 6 5).timer1 ≠ 0 ∧
    SetTo (fun j => setSevenAt 4 6 (4 + j)) 2 7 :=
  ⟨by decide +kernel, by decide +kernel,
    (timer1_set_iff (setSeven_sequence (by decide) (by decide) (by decide) (by decide))).mpr
      (by decide +kernel)⟩

/-- Unlocked when it has come to the compare value, it is zero behind the second write. -/
theorem timer1_set_lost : ¬ ∀ (u : ℕ → Timers) (y : ℕ → PeriphBus) (n : ℕ) (v : BitVec 16),
    SetSequence u y n v → SetTo u n v := by
  intro h
  have hset := h _ _ _ _ (setSeven_sequence (a := 4) (b := 5) (n := 1) (by decide) (by decide)
    (by decide) (by decide))
  exact absurd hset.value (by decide +kernel)

end HfRisc.Results
