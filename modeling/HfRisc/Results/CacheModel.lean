import HfRisc.Results.SimStep
import HfRisc.Sim.CacheSpec
import HfRisc.Sim.Lockstep

/-!
# The cache model: hits, misses, write-backs and timing

The counters of `cache.c` follow the history of the accesses: a hit is an access to
the block that the last allocating access to its set brought in. The penalties
follow it except at one place: a write miss does not look at the dirty bit, so a
written block that it replaces goes without its write-back.

Started with the same registers, program counters and memory, the two simulators
have the same registers, program counters and memory after every number of cycles,
whatever the caches are, as long as no instruction looks at the time and no
interrupt is taken.
-/

namespace HfRisc.Results

open HfRisc.Sim HfRisc.Lib

variable {cfg : Config} {calls : List Call} {call : Call}

/-- One more call. -/
theorem after_append : cfg.after (calls ++ [call]) = ((cfg.after calls).access call).2 := by
  rw [Config.after, Mealy.run_append]
  rfl

/-! ## Hits and misses -/

/-- The next call counts as a hit exactly when its block is resident. -/
theorem counters_after :
    ((cfg.after (calls ++ [call])).hits, (cfg.after (calls ++ [call])).misses) =
      if Cache.looksUp cfg.policy call then
        if cfg.Resident (cfg.history calls) call.address then
          ((cfg.after calls).hits + 1, (cfg.after calls).misses)
        else ((cfg.after calls).hits, (cfg.after calls).misses + 1)
      else ((cfg.after calls).hits, (cfg.after calls).misses) := by
  have hr := Config.Represents.calls cfg calls
  rw [after_append, Cache.counters_access, hr.shape.policy]
  simp only [hr.hit]
  rfl

/-- Every call that is looked up is counted once. -/
theorem total_after (cfg : Config) (calls : List Call) :
    (cfg.after calls).hits + (cfg.after calls).misses =
      BitVec.ofNat 64 (calls.countP (Cache.looksUp cfg.policy)) := by
  induction calls using List.reverseRecOn with
  | nil => rfl
  | append_singleton calls call ih =>
    have hstep := @counters_after cfg calls call
    rw [List.countP_append, List.countP_singleton, BitVec.ofNat_add, ← ih]
    split_ifs at hstep ⊢ <;> obtain ⟨hh, hm⟩ := Prod.ext_iff.mp hstep <;>
      simp only at hh hm <;> rw [hh, hm]
    · rw [BitVec.add_assoc, BitVec.add_comm 1, ← BitVec.add_assoc]
      rfl
    · rw [BitVec.add_assoc]
      rfl
    · exact (BitVec.add_zero _).symm

/-- After every list of calls, the next one is counted as a hit exactly when the last
allocating access to its set was to its block, and as a miss otherwise; only the
writes that write through without allocation are not counted. -/
theorem cache_counts (cfg : Config) (calls : List Call) (call : Call) :
    ((cfg.after (calls ++ [call])).hits, (cfg.after (calls ++ [call])).misses) =
      (if cfg.policy = .wt ∧ call.write = true then
        ((cfg.after calls).hits, (cfg.after calls).misses)
      else if cfg.Resident (cfg.history calls) call.address then
        ((cfg.after calls).hits + 1, (cfg.after calls).misses)
      else ((cfg.after calls).hits, (cfg.after calls).misses + 1)) ∧
    (cfg.after calls).hits + (cfg.after calls).misses = BitVec.ofNat 64
      (if cfg.policy = .wt then calls.countP (fun a => !a.write) else calls.length) := by
  constructor
  · rw [counters_after]
    by_cases hwt : cfg.policy = .wt ∧ call.write = true
    · rw [if_pos hwt, if_neg (by simp [Cache.looksUp, hwt.1, hwt.2])]
    · have hlook : Cache.looksUp cfg.policy call = true := by
        rw [Cache.looksUp, Bool.or_eq_true, bne_iff_ne, Bool.not_eq_true', ← Bool.not_eq_true]
        exact not_and_or.mp hwt
      rw [if_neg hwt, if_pos hlook]
  · rw [total_after]
    split_ifs with hwt
    · rw [hwt]
      rfl
    · have hall : calls.countP (Cache.looksUp cfg.policy) = calls.length :=
        List.countP_eq_length.mpr fun a _ => by simp [Cache.looksUp, hwt]
      rw [hall]

/-- A cache of one line of one word, with unit times. -/
def oneLine (policy : Policy) : Config where
  policy := policy
  sets := 1
  blockSize := 1
  missSetup := 1
  missBurst := 1
  sets_pow2 := rfl
  blockSize_pow2 := rfl

/-- A write that is not cached is no hit, though its block is resident. -/
theorem cache_uncounted_write :
    (oneLine .wt).Resident ((oneLine .wt).history [⟨0, false⟩]) 0 ∧
      ((oneLine .wt).after [⟨0, false⟩, ⟨0, true⟩]).hits =
        ((oneLine .wt).after [⟨0, false⟩]).hits := by
  decide

/-! ## Write-backs -/

/-- The penalty of a miss that replaces a block already in memory. -/
def replaceTime (cfg : Config) (call : Call) : Word :=
  if call.write then cfg.cache.wordTime + cfg.cache.setupTime + cfg.cache.burstTime
  else cfg.cache.blockTime

/-- The penalty of the next call. -/
def penalty (cfg : Config) (calls : List Call) (call : Call) : Word :=
  ((cfg.after calls).access call).1

/-- In a write-back cache a read miss pays for the block it replaces, and a write miss
does not. -/
theorem penalty_of_miss (hwb : cfg.policy = .wb)
    (hmiss : ¬ cfg.Resident (cfg.history calls) call.address) :
    penalty cfg calls call =
      if call.write = false ∧ (cfg.after calls).isDirty call.address = true then
        cfg.cache.blockTime + replaceTime cfg call
      else replaceTime cfg call := by
  have hr := Config.Represents.calls cfg calls
  have hhit : ¬ (cfg.after calls).isHit call.address = true := fun h => hmiss ((hr.hit _).mp h)
  obtain ⟨hpol, hblock, hsetup, hburst, -, -, -, -⟩ := hr.shape
  have hpol' : (cfg.after calls).policy = .wb := hpol.trans hwb
  rw [penalty, Cache.access]
  cases hw : call.write with
  | true =>
    rw [if_pos rfl, Cache.cacheWrite, if_neg (by rw [hpol']; decide),
      if_neg (by rw [hpol']; decide), if_neg hhit, if_neg (by simp), replaceTime, hw, if_pos rfl,
      Cache.wordTime, Cache.wordTime, hblock, hsetup, hburst]
  | false =>
    simp only [Bool.false_eq_true, if_false, true_and, Cache.cacheRead, hpol', if_true, hhit,
      replaceTime, hw, Cache.blockTime, hsetup, hburst]
    split_ifs
    · rw [BitVec.add_assoc]
    · rw [BitVec.add_assoc]
      exact BitVec.zero_add _

/-- A replaced block is charged its write-back exactly when it has been written since it
was loaded, except that a write miss charges none. -/
theorem cache_write_back (hwb : cfg.policy = .wb)
    (hmiss : ¬ cfg.Resident (cfg.history calls) call.address) :
    ((cfg.WrittenLine (cfg.history calls) call.address →
        penalty cfg calls call = cfg.cache.blockTime + replaceTime cfg call) ∧
      (¬ cfg.WrittenLine (cfg.history calls) call.address →
        penalty cfg calls call = replaceTime cfg call)) ↔
    (call.write = true → cfg.WrittenLine (cfg.history calls) call.address →
      cfg.missSetup + cfg.missBurst = 0) := by
  have hr := Config.Represents.calls cfg calls
  have hblock : cfg.cache.blockTime = cfg.missSetup + cfg.missBurst := rfl
  rw [penalty_of_miss hwb hmiss, ← hr.dirty hwb, ← hblock]
  cases hw : call.write with
  | true =>
    rw [if_neg (by simp)]
    constructor
    · intro h _ hd
      have heq := h.1 hd
      simpa using heq
    · intro h
      refine ⟨fun hd => ?_, fun _ => rfl⟩
      rw [h rfl hd]
      exact (BitVec.zero_add _).symm
  | false =>
    refine ⟨fun _ => nofun, fun _ => ⟨fun hd => ?_, fun hd => ?_⟩⟩
    · rw [if_pos ⟨rfl, hd⟩]
    · rw [if_neg (fun h => hd h.2)]

/-- A block that is read and then written. -/
def loadThenStore : List Call := [⟨0, false⟩, ⟨0, true⟩]

theorem writtenLine_loadThenStore (a : Word) :
    (oneLine .wb).WrittenLine ((oneLine .wb).history loadThenStore) a := by
  refine ⟨[⟨0, false⟩], ⟨0, true⟩, [], rfl, rfl, ?_, rfl, fun _ h => by simp at h⟩
  exact (Nat.mod_one _).symm

/-- A read of another block pays for it. -/
theorem cache_write_back_read :
    penalty (oneLine .wb) loadThenStore ⟨4, false⟩ =
      (oneLine .wb).cache.blockTime + replaceTime (oneLine .wb) ⟨4, false⟩ :=
  ((cache_write_back rfl (by decide)).mpr fun h => absurd h (by decide)).1
    (writtenLine_loadThenStore 4)

/-- A write to another block does not. -/
theorem cache_write_back_lost :
    ¬ (oneLine .wb).Resident ((oneLine .wb).history loadThenStore) 4 ∧
      (oneLine .wb).WrittenLine ((oneLine .wb).history loadThenStore) 4 ∧
      penalty (oneLine .wb) loadThenStore ⟨4, true⟩ ≠
        (oneLine .wb).cache.blockTime + replaceTime (oneLine .wb) ⟨4, true⟩ :=
  ⟨by decide, writtenLine_loadThenStore 4, by decide⟩

end HfRisc.Results

/-! ## The caches only change the timing -/

namespace HfRisc.Results

open HfRisc.Sim

/-- The same registers, program counters and memory, or both runs have stopped. -/
def SameMachine : Except Stop State → Except Stop CacheState → Prop
  | .ok s, .ok c => c.r = s.r ∧ c.pc = s.pc ∧ c.pcNext = s.pcNext ∧ c.mem = s.mem
  | .error _, .error _ => True
  | _, _ => False

theorem sameMachine_of_together {x : Except Stop State} {y : Except Stop CacheState}
    (h : Together x y) : SameMachine x y := by
  cases x with
  | error e =>
    cases y with
    | error e' => trivial
    | ok c => exact h.elim
  | ok s =>
    cases y with
    | error e' => exact h.elim
    | ok c => exact ⟨InStep.r_eq h, InStep.pc_eq h, InStep.pcNext_eq h, InStep.mem_eq h⟩

/-- For every configuration of the caches and every start: after `k` cycles of a program
that executes no `SYSTEM` instruction and accesses no GPIO, timer or cause register,
with interrupts masked, the two simulators have the same registers and memory. -/
theorem cache_lockstep (cfg : Config) (unified : Bool) (r : BitVec 5 → Word) (pc pcNext : Word)
    (mem : BitVec 20 → BitVec 8) (stdin : List (BitVec 8)) (log : Bool) (k : ℕ)
    (hq : ∀ j < k, ∀ s, run (.start (.start r pc pcNext mem stdin log)) j = .ok s →
      s.toBase.Untimed) :
    SameMachine (run (.start (.start r pc pcNext mem stdin log)) k)
      (runCache (.start cfg unified (.start r pc pcNext mem stdin log)) k) :=
  sameMachine_of_together
    (together_run ⟨⟨(Base.start r pc pcNext mem stdin log).times, rfl⟩, rfl⟩ k hq)

/-! ## A program -/

/-- `lw x1, 0(x0)`, then `sw x1, 256(x0)`. -/
def copyWord : Base :=
  .start (fun _ => 0) 0x40000000 0x40000004
    (fun k => imageByte [0x00002083, 0x10102023] k.toNat) [] false

/-- An instruction is untimed when its access is. -/
theorem untimed_of_fetch {b : Base} {w : Word} {act : Action}
    (hmask : b.status = 0 ∨ b.mask = 0) (hw : b.fetch b.pc = .ok w)
    (hact : action w b.pc (b.operands w) = act) (hu : act.Untimed) : b.Untimed where
  masked := hmask
  action w' hw' := by
    rw [hw] at hw'
    cases hw'
    rw [hact]
    exact hu

/-- A word is copied alike with split caches of one line and without caches. -/
theorem cache_lockstep_copy :
    SameMachine (run (.start copyWord) 2) (runCache (.start (oneLine .wb) false copyWord) 2) := by
  refine cache_lockstep (oneLine .wb) false _ _ _ _ _ _ 2 fun j hj s hs => ?_
  obtain rfl | rfl : j = 0 ∨ j = 1 := by omega
  · cases hs
    have hact : action 0x00002083 (State.start copyWord).pc
        ((State.start copyWord).operands 0x00002083) = .load .int32 .word 0 := by decide +kernel
    exact untimed_of_fetch (.inl rfl) (by decide +kernel) hact ⟨by decide, by decide⟩
  · have hfacts : (run (.start copyWord) 1).map (fun t => (t.status, t.fetch t.pc,
        action 0x10102023 t.pc (t.operands 0x10102023))) =
        .ok (0, .ok 0x10102023, .store .word 0x100 0x00002083) := by decide +kernel
    have hs' : run (.start copyWord) 1 = .ok s := hs
    rw [hs'] at hfacts
    simp only [Except.map, Except.ok.injEq, Prod.mk.injEq] at hfacts
    exact untimed_of_fetch (.inl hfacts.1) hfacts.2.1 hfacts.2.2 ⟨by decide, by decide⟩

end HfRisc.Results
