import HfRisc.Results.CacheClock
import HfRisc.Sim.Lockstep

/-!
# The summary at the end of a run

`cache_finish` divides by the hits and misses of a cache. Every fetch is one of them, and so
is every data access that is looked up, so what a split data cache is divided by is zero when
the program makes no such access before it ends.
-/

namespace HfRisc.Sim

/-! ## The data accesses of a cycle -/

/-- An access of a load or a store, which goes through a cache below `EXIT_TRAP`. -/
def callsTo (address : Word) (write : Bool) : List Call :=
  if address < EXIT_TRAP then [⟨address, write⟩] else []

/-- The calls of an instruction on the data cache. -/
def Action.calls : Action → List Call
  | .load _ _ address => callsTo address false
  | .store _ address _ => callsTo address true
  | _ => []

/-- The calls of the next cycle on the data cache. -/
def CacheState.dataCalls (s : CacheState) : List Call :=
  match s.takeInterrupt.memFetch s.takeInterrupt.pc with
  | .ok (w, u) => (action w u.pc (u.operands w)).calls
  | .error _ => []

/-- The calls of the first `k` cycles on the data cache. -/
def dataTrace (s : CacheState) (k : ℕ) : List Call :=
  (List.range k).flatMap fun j =>
    match runCache s j with
    | .ok t => t.dataCalls
    | .error _ => []

namespace Caches

/-- A fetch. -/
def fetch (c : Caches) (address : Word) : Caches := c.setI (c.icache.cacheRead address).2

/-- A data access. -/
def access (c : Caches) (call : Call) : Caches := c.setD (c.dcache.access call).2

theorem summary_eq_none_iff {c : Caches} :
    c.summary = none ↔ ∃ d ∈ c.reported, d.hits + d.misses = 0 := by
  have hnone : ∀ d : Cache, d.cacheFinish = none ↔ d.hits + d.misses = 0 := by
    intro d
    unfold Cache.cacheFinish
    split
    · rename_i hzero
      exact ⟨fun _ => hzero, fun _ => rfl⟩
    · rename_i hzero
      exact ⟨fun h => (Option.some_ne_none _ h).elim, fun h => absurd h hzero⟩
  cases c with
  | unified c =>
    rw [summary, reported, List.mapM_cons, List.mapM_nil]
    cases hc : c.cacheFinish with
    | none => simpa using (hnone c).mp hc
    | some r => simpa [hc] using (hnone c).not.mp (by simp [hc])
  | split i d =>
    rw [summary, reported, List.mapM_cons, List.mapM_cons, List.mapM_nil]
    have hi := hnone i
    have hd := hnone d
    cases hic : i.cacheFinish <;> cases hdc : d.cacheFinish <;> simp_all

end Caches

section Cycle

variable {s t : CacheState} {w a : Word} {caches : Caches}

theorem callsTo_of_le {write : Bool} (h : EXIT_TRAP ≤ a) : callsTo a write = [] :=
  if_neg (BitVec.not_lt.mpr h)

theorem callsTo_of_lt {write : Bool} (h : a < EXIT_TRAP) : callsTo a write = [⟨a, write⟩] :=
  if_pos h

theorem memRead_caches {size : Size} {p : Word × CacheState} (h : s.memRead size a = .ok p) :
    p.2.caches = (callsTo a false).foldl Caches.access s.caches := by
  rw [CacheState.memRead] at h
  split at h
  · rename_i huart
    cases h
    rw [huart]
    rfl
  split at h
  · rename_i v hv
    have hge : EXIT_TRAP ≤ a := BitVec.not_lt.mp fun hlt => by
      rw [s.toBase.register_of_lt hlt] at hv
      cases hv
    cases h
    rw [callsTo_of_le hge]
    rfl
  split at h
  · rename_i hge
    cases h
    rw [callsTo_of_le hge]
    rfl
  · rename_i hlt
    dsimp only at h
    split at h
    · cases h
    · cases h
      rw [callsTo_of_lt (BitVec.not_le.mp hlt)]
      rfl

theorem memWrite_caches {size : Size} {v : Word} (h : s.memWrite size a v = .ok t) :
    t.caches = (callsTo a true).foldl Caches.access s.caches := by
  rw [CacheState.memWrite] at h
  split at h
  · cases h
  split at h
  · rename_i b hb
    have hge : EXIT_TRAP ≤ a := BitVec.not_lt.mp fun hlt => by
      rw [s.toBase.setRegister_of_lt hlt] at hb
      cases hb
    cases h
    rw [callsTo_of_le hge]
    rfl
  split at h
  · rename_i hge
    cases h
    rw [callsTo_of_le hge]
    rfl
  · rename_i hlt
    dsimp only at h
    split at h
    · cases h
    · cases h
      rw [callsTo_of_lt (BitVec.not_le.mp hlt)]
      rfl

theorem system_caches (h : s.system w = .ok t) : t.caches = s.caches := by
  rw [CacheState.system] at h
  split at h
  · rw [← Except.ok.inj h]
  split at h
  · split at h
    · rw [← Except.ok.inj h]
    · cases h
  · cases h

theorem perform_caches {act : Action} (h : s.perform w act = .ok t) :
    t.caches = act.calls.foldl Caches.access s.caches := by
  cases act with
  | write v =>
    cases h
    rfl
  | link target =>
    cases h
    rfl
  | branch taken target =>
    cases h
    cases taken <;> rfl
  | load type size address =>
    cases hr : s.memRead size address with
    | error e =>
      simp only [CacheState.perform, hr, bind, Except.bind] at h
      cases h
    | ok p =>
      simp only [CacheState.perform, hr, bind, Except.bind, Except.ok.injEq] at h
      rw [← h]
      exact memRead_caches hr
  | store size address v => exact memWrite_caches h
  | system => exact system_caches h
  | fail => cases h
  | undefined => cases h

theorem takeInterrupt_caches : s.takeInterrupt.caches = s.caches := by
  rw [CacheState.takeInterrupt]
  split <;> rfl

theorem memFetch_caches {p : Word × CacheState} (h : s.memFetch a = .ok p) :
    p.2.caches = s.caches.fetch a := by
  rw [CacheState.memFetch_eq] at h
  cases hw : s.fetch a with
  | error e =>
    rw [hw] at h
    cases h
  | ok v =>
    rw [hw] at h
    cases h
    rfl

/-- A cycle fetches one instruction and makes its data accesses. -/
theorem cycle_caches (h : s.cycle = .ok t) :
    t.caches = s.dataCalls.foldl Caches.access (s.caches.fetch s.takeInterrupt.pc) := by
  replace h : (s.takeInterrupt.memFetch s.takeInterrupt.pc >>= fun p =>
    p.2.execute p.1 >>= fun u => .ok u.advance) = .ok t := h
  rw [CacheState.dataCalls]
  cases hf : s.takeInterrupt.memFetch s.takeInterrupt.pc with
  | error e =>
    rw [hf] at h
    cases h
  | ok p =>
    rw [hf] at h
    replace h : (p.2.execute p.1 >>= fun u => .ok u.advance) = .ok t := h
    cases hx : p.2.execute p.1 with
    | error e =>
      rw [hx] at h
      cases h
    | ok u =>
      rw [hx] at h
      cases h
      have hfetch := memFetch_caches hf
      rw [takeInterrupt_caches] at hfetch
      rw [← hfetch]
      show u.caches = _
      exact perform_caches (s := p.2.setReg 0 0) hx

/-- At the end the last instruction has been fetched. -/
theorem finishing_caches (h : s.finishing = some caches) :
    caches = s.caches.fetch s.takeInterrupt.pc := by
  unfold CacheState.finishing at h
  dsimp only at h
  cases hf : s.takeInterrupt.memFetch s.takeInterrupt.pc with
  | error e =>
    rw [hf] at h
    cases h
  | ok p =>
    rw [hf] at h
    dsimp only at h
    split at h
    · split at h
      · rw [← Option.some.inj h, memFetch_caches hf, takeInterrupt_caches]
      · cases h
    · cases h

theorem memRead_error {size : Size} {e : Stop} (h : s.memRead size a = .error e) :
    ∃ pc, e = .unaligned false size pc a := by
  rw [CacheState.memRead] at h
  split at h
  · cases h
  split at h
  · cases h
  split at h
  · cases h
  dsimp only at h
  split at h
  · exact ⟨_, (Except.error.inj h).symm⟩
  · cases h

theorem system_error {n : BitVec 64} {code : Word} :
    s.system w ≠ .error (.endOfSimulation n code) := by
  rw [CacheState.system]
  intro h
  split at h
  · cases h
  split at h
  · split at h <;> cases h
  · cases h

theorem memWrite_error {size : Size} {v code : Word} {n : BitVec 64}
    (h : s.memWrite size a v = .error (.endOfSimulation n code)) : a = EXIT_TRAP := by
  rw [CacheState.memWrite] at h
  split at h
  · assumption
  split at h
  · cases h
  split at h
  · cases h
  dsimp only at h
  split at h <;> cases h

theorem memFetch_error {e : Stop} (h : s.memFetch a = .error e) : e = .undefined := by
  rw [CacheState.memFetch_eq, Base.fetch] at h
  split at h
  · cases h
  · exact (Except.error.inj h).symm

/-- Only a store to `EXIT_TRAP` ends the simulation. -/
theorem perform_ends_iff {act : Action} :
    (∃ n, s.perform w act = .error (.endOfSimulation n 0)) ↔
      ∃ size v, act = .store size EXIT_TRAP v := by
  constructor
  · rintro ⟨n, h⟩
    cases act with
    | write v => cases h
    | link target => cases h
    | branch taken target => cases h
    | load type size address =>
      cases hr : s.memRead size address with
      | error e =>
        obtain ⟨pc, rfl⟩ := memRead_error hr
        simp only [CacheState.perform, hr, bind, Except.bind] at h
        cases h
      | ok p =>
        simp only [CacheState.perform, hr, bind, Except.bind] at h
        cases h
    | store size address v =>
      obtain rfl := memWrite_error h
      exact ⟨size, v, rfl⟩
    | system => exact (system_error h).elim
    | fail => cases h
    | undefined => cases h
  · rintro ⟨size, v, rfl⟩
    refine ⟨s.cycles, ?_⟩
    rw [CacheState.perform, CacheState.memWrite, if_pos rfl]

/-- A cycle ends the simulation exactly when it comes to `EXIT_TRAP`. -/
theorem exists_finishing_iff :
    (∃ c, s.finishing = some c) ↔ ∃ n, s.cycle = .error (.endOfSimulation n 0) := by
  have hcycle : s.cycle = (s.takeInterrupt.memFetch s.takeInterrupt.pc >>= fun p =>
    p.2.execute p.1 >>= fun u => .ok u.advance) := rfl
  rw [hcycle]
  unfold CacheState.finishing
  dsimp only
  cases hf : s.takeInterrupt.memFetch s.takeInterrupt.pc with
  | error e =>
    obtain rfl := memFetch_error hf
    constructor
    · rintro ⟨c, h⟩
      cases h
    · rintro ⟨n, h⟩
      cases h
  | ok p =>
    obtain ⟨inst, u⟩ := p
    -- what follows the instruction does not end the simulation
    have hends : (∃ n, (u.execute inst >>= fun t => .ok t.advance) =
        (.error (.endOfSimulation n 0) : Except Stop CacheState)) ↔
        ∃ n, u.execute inst = .error (.endOfSimulation n 0) := by
      cases u.execute inst with
      | error e => exact Iff.rfl
      | ok t =>
        constructor
        · rintro ⟨n, h⟩
          cases h
        · rintro ⟨n, h⟩
          cases h
    refine Iff.trans ?_ (hends.trans perform_ends_iff).symm
    dsimp only
    -- of the actions only a store comes to the trap
    cases action inst u.pc (u.operands inst) with
    | store size address v =>
      dsimp only
      constructor
      · rintro ⟨c, h⟩
        split at h
        · rename_i haddress
          exact ⟨size, v, by rw [haddress]⟩
        · cases h
      · rintro ⟨size', v', h⟩
        obtain ⟨-, rfl, -⟩ := Action.store.inj h
        exact ⟨_, if_pos rfl⟩
    | _ =>
      constructor
      · rintro ⟨c, h⟩
        cases h
      · rintro ⟨size', v', h⟩
        cases h

end Cycle

end HfRisc.Sim

namespace HfRisc.Results

open HfRisc.Sim

variable {cfg : Config} {unified : Bool} {c caches : Caches} {fetches data k : ℕ}
  {mem : BitVec 20 → BitVec 8} {stdin : List (BitVec 8)} {log : Bool} {t : CacheState}
  {ds : List (BitVec 64)}

/-- The accesses that a cache of this configuration counts. -/
def lookups (cfg : Config) (calls : List Call) : ℕ := calls.countP (Cache.looksUp cfg.policy)

/-- The caches of a configuration after so many fetches and counted data accesses. -/
inductive Counted (cfg : Config) : Bool → ℕ → ℕ → Caches → Prop
  | unified {calls : List Call} {fetches data : ℕ} (h : lookups cfg calls = fetches + data) :
    Counted cfg true fetches data (.unified (cfg.after calls))
  | split {icalls dcalls : List Call} :
    Counted cfg false (lookups cfg icalls) (lookups cfg dcalls)
      (.split (cfg.after icalls) (cfg.after dcalls))

theorem lookups_append (calls calls' : List Call) :
    lookups cfg (calls ++ calls') = lookups cfg calls + lookups cfg calls' :=
  List.countP_append

/-- Every fetch is looked up. -/
theorem lookups_fetch (a : Word) : lookups cfg [⟨a, false⟩] = 1 := by
  simp [lookups, Cache.looksUp]

theorem counted_start : Counted cfg unified 0 0 (cfg.caches unified) := by
  cases unified with
  | true => exact @Counted.unified cfg [] 0 0 rfl
  | false => exact @Counted.split cfg [] []

namespace Counted

theorem fetch (h : Counted cfg unified fetches data c) (a : Word) :
    Counted cfg unified (fetches + 1) data (c.fetch a) := by
  cases h with
  | @unified calls _ _ h =>
    have hcalls : lookups cfg (calls ++ [⟨a, false⟩]) = fetches + 1 + data := by
      rw [lookups_append, lookups_fetch, h]
      omega
    have hafter : cfg.after (calls ++ [⟨a, false⟩]) =
        ((cfg.after calls).access ⟨a, false⟩).2 := after_append
    have hcounted := Counted.unified hcalls
    rw [hafter] at hcounted
    exact hcounted
  | @split icalls dcalls =>
    have hafter : cfg.after (icalls ++ [⟨a, false⟩]) =
        ((cfg.after icalls).access ⟨a, false⟩).2 := after_append
    have hcounted := @Counted.split cfg (icalls ++ [⟨a, false⟩]) dcalls
    rw [hafter, lookups_append, lookups_fetch] at hcounted
    exact hcounted

theorem access (h : Counted cfg unified fetches data c) (call : Call) :
    Counted cfg unified fetches (data + lookups cfg [call]) (c.access call) := by
  cases h with
  | @unified calls _ _ h =>
    have hcalls : lookups cfg (calls ++ [call]) = fetches + (data + lookups cfg [call]) := by
      rw [lookups_append, h]
      omega
    have hcounted := Counted.unified hcalls
    rw [after_append] at hcounted
    exact hcounted
  | @split icalls dcalls =>
    have hcounted := @Counted.split cfg icalls (dcalls ++ [call])
    rw [after_append, lookups_append] at hcounted
    exact hcounted

theorem accesses (h : Counted cfg unified fetches data c) (calls : List Call) :
    Counted cfg unified fetches (data + lookups cfg calls) (calls.foldl Caches.access c) := by
  induction calls generalizing data c with
  | nil => exact h
  | cons call calls ih =>
    have hcalls : lookups cfg (call :: calls) = lookups cfg [call] + lookups cfg calls :=
      lookups_append [call] calls
    rw [hcalls, ← Nat.add_assoc]
    exact ih (h.access call)

/-- What `cache_finish` divides by. -/
theorem total_ne_zero_iff (calls : List Call) :
    (cfg.after calls).hits + (cfg.after calls).misses ≠ 0 ↔ ¬ 2 ^ 64 ∣ lookups cfg calls := by
  rw [total_after, ne_eq, ← BitVec.toNat_inj, BitVec.toNat_ofNat, Nat.dvd_iff_mod_eq_zero]
  exact Iff.rfl

theorem divisors (h : Counted cfg unified fetches data c) :
    (∀ d ∈ c.reported, d.hits + d.misses ≠ 0) ↔
      if unified then ¬ 2 ^ 64 ∣ fetches + data
      else ¬ 2 ^ 64 ∣ fetches ∧ ¬ 2 ^ 64 ∣ data := by
  cases h with
  | @unified calls _ _ h =>
    rw [if_pos rfl, ← h, ← total_ne_zero_iff]
    exact List.forall_mem_singleton
  | @split icalls dcalls =>
    rw [if_neg Bool.false_ne_true, ← total_ne_zero_iff, ← total_ne_zero_iff]
    exact List.forall_mem_cons.trans (and_congr Iff.rfl List.forall_mem_singleton)

end Counted

theorem dataTrace_succ {s : CacheState} (h : runCache s k = .ok t) :
    dataTrace s (k + 1) = dataTrace s k ++ t.dataCalls := by
  rw [dataTrace, dataTrace, List.range_succ, List.flatMap_append, List.flatMap_singleton, h]

/-- The caches of a run have seen a fetch a cycle and its data accesses. -/
theorem counted_run (hrun : runCache (startCache cfg unified mem stdin log) k = .ok t) :
    Counted cfg unified k (lookups cfg (dataTrace (startCache cfg unified mem stdin log) k))
      t.caches := by
  induction k generalizing t with
  | zero =>
    cases hrun
    exact counted_start
  | succ k ih =>
    cases hk : runCache (startCache cfg unified mem stdin log) k with
    | error e =>
      rw [runCache, hk] at hrun
      cases hrun
    | ok s =>
      have hcycle : s.cycle = .ok t := by
        rw [runCache, hk] at hrun
        exact hrun
      rw [dataTrace_succ hk, lookups_append, cycle_caches hcycle]
      exact ((ih hk).fetch _).accesses _

/-- For every program, configuration and run that comes to a store to `EXIT_TRAP`: no cache
that is reported has counted nothing if and only if, modulo `2 ^ 64`, the fetches (with that of
the store) and the data accesses that are looked up are not zero together in a unified cache,
and neither of them is in split caches. -/
theorem cache_finish_divisors (hrun : runCache (startCache cfg unified mem stdin log) k = .ok t)
    (hend : t.finishing = some caches) :
    (∀ d ∈ caches.reported, d.hits + d.misses ≠ 0) ↔
      if unified then
        ¬ 2 ^ 64 ∣ k + 1 + lookups cfg (dataTrace (startCache cfg unified mem stdin log) k)
      else
        ¬ 2 ^ 64 ∣ k + 1 ∧
          ¬ 2 ^ 64 ∣ lookups cfg (dataTrace (startCache cfg unified mem stdin log) k) := by
  have hcounted := (counted_run hrun).fetch t.takeInterrupt.pc
  rw [← finishing_caches hend] at hcounted
  exact hcounted.divisors

/-! ## A program without data accesses -/

/-- A program that only ends: `lui x5, 0xe0000; sw x0, 0(x5)`. -/
def ending (unified : Bool) : CacheState :=
  startCache (oneLine .wb) unified
    (fun k => imageByte [0xe00002b7, 0x0002a023] k.toNat) [] false

/-- The divisors of the summary after `k` cycles. -/
def divisors (t : CacheState) : Option (List (BitVec 64)) :=
  t.finishing.map fun c => c.reported.map fun d => d.hits + d.misses

theorem exists_ending (h : (runCache (ending unified) 1).map divisors = .ok (some ds)) :
    ∃ t caches, runCache (ending unified) 1 = .ok t ∧ t.finishing = some caches ∧
      caches.reported.map (fun d => d.hits + d.misses) = ds := by
  obtain ⟨t, hrun, hdivisors⟩ := exists_of_map h
  obtain ⟨caches, hend, hmap⟩ := Option.map_eq_some_iff.mp hdivisors
  exact ⟨t, caches, hrun, hend, hmap⟩

/-- A unified cache has counted the fetches. -/
theorem cache_finish_divisors_unified :
    ∃ t caches n, runCache (ending true) 1 = .ok t ∧ t.cycle = .error (.endOfSimulation n 0) ∧
      t.finishing = some caches ∧ ∀ d ∈ caches.reported, d.hits + d.misses ≠ 0 := by
  obtain ⟨t, caches, hrun, hend, -⟩ := @exists_ending true [2] (by decide +kernel)
  obtain ⟨n, hn⟩ := exists_finishing_iff.mp ⟨caches, hend⟩
  refine ⟨t, caches, n, hrun, hn, hend, (cache_finish_divisors hrun hend).mpr ?_⟩
  decide +kernel

/-- With split caches nothing has gone through the data cache. -/
theorem cache_finish_by_zero :
    ¬ ∀ (cfg : Config) (unified : Bool) (mem : BitVec 20 → BitVec 8) (stdin : List (BitVec 8))
      (log : Bool) (k : ℕ) (t : CacheState) (caches : Caches),
      runCache (startCache cfg unified mem stdin log) k = .ok t → t.finishing = some caches →
      ∀ d ∈ caches.reported, d.hits + d.misses ≠ 0 := by
  intro h
  obtain ⟨t, caches, hrun, hend, hds⟩ := @exists_ending false [2, 0] (by decide +kernel)
  have hzero : (0 : BitVec 64) ∈ caches.reported.map fun d => d.hits + d.misses := by
    rw [hds]
    decide
  obtain ⟨d, hd, hsum⟩ := List.mem_map.mp hzero
  exact h _ _ _ _ _ _ _ _ hrun hend d hd hsum

end HfRisc.Results
