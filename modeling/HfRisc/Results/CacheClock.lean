import HfRisc.Results.CacheModel
import HfRisc.Results.SimStep
import HfRisc.Sim.CacheCycle
import HfRisc.Sim.Frame
import Mathlib.Tactic.Ring

/-!
# The clock of the simulator with caches

`timer0` and the cycle count are advanced together everywhere but in `mem_write`,
which adds the penalty of a store to the cycle count once and to `timer0` twice. So
`timer0` runs ahead by the penalties of the stores.
-/

namespace HfRisc.Results

open HfRisc.Sim

/-- How far `timer0` is ahead of the cycle count. -/
def skew (b : Base) : Word := b.timer0 - b.cycles.setWidth 32

section Step

variable {s t : CacheState} {w : Word}

theorem skew_congr {b b' : Base} (h : b'.timer0 = b.timer0 ∧ b'.cycles = b.cycles) :
    skew b' = skew b := by
  rw [skew, skew, h.1, h.2]

/-- A penalty that both counters get. -/
theorem skew_charge (n : Word) : skew (s.charge n).toBase = skew s.toBase := by
  show s.timer0 + n - (s.cycles + n.setWidth 64).setWidth 32 = s.timer0 - s.cycles.setWidth 32
  rw [BitVec.setWidth_add _ _ (by decide), BitVec.setWidth_setWidth_of_le _ (by decide),
    BitVec.setWidth_eq]
  ring

/-- The end of a cycle counts both. -/
theorem skew_advance : skew s.advance.toBase = skew s.toBase := by
  show s.timer0 + 1 - (s.cycles + 1).setWidth 32 = s.timer0 - s.cycles.setWidth 32
  rw [BitVec.setWidth_add _ _ (by decide), show (1 : BitVec 64).setWidth 32 = 1 from rfl]
  ring

theorem skew_takeInterrupt : skew s.takeInterrupt.toBase = skew s.toBase := by
  rw [CacheState.takeInterrupt]
  split <;> rfl

theorem skew_memFetch {a : Word} {p : Word × CacheState} (h : s.memFetch a = .ok p) :
    skew p.2.toBase = skew s.toBase := by
  have h' : (({ s with caches := s.caches.setI (s.caches.icache.cacheRead a).2 }.charge
      (s.caches.icache.cacheRead a).1).fetch a >>= fun value => .ok (value,
        ({ s with caches := s.caches.setI (s.caches.icache.cacheRead a).2 }.charge
          (s.caches.icache.cacheRead a).1))) = .ok p := h
  cases hf : ({ s with caches := s.caches.setI (s.caches.icache.cacheRead a).2 }.charge
      (s.caches.icache.cacheRead a).1).fetch a with
  | error e =>
    rw [hf] at h'
    cases h'
  | ok value =>
    rw [hf] at h'
    cases h'
    exact skew_charge _

theorem skew_memRead {size : Size} {a : Word} {p : Word × CacheState}
    (h : s.memRead size a = .ok p) : skew p.2.toBase = skew s.toBase := by
  rw [CacheState.memRead] at h
  split at h
  · cases h
    exact skew_congr Base.getchar_clock
  split at h
  · cases h
    rfl
  split at h
  · cases h
    rfl
  dsimp only at h
  split at h
  · cases h
  · cases h
    exact skew_charge _

/-- What a store through the cache is charged. -/
def storeCharge (s : CacheState) (a : Word) : Word :=
  if a < EXIT_TRAP then (s.caches.dcache.cacheWrite a).1 else 0

/-- The penalty of a store goes into `timer0` once more. -/
theorem skew_memWrite {size : Size} {a v : Word} (h : s.memWrite size a v = .ok t) :
    skew t.toBase = skew s.toBase + storeCharge s a := by
  rw [CacheState.memWrite] at h
  rw [storeCharge]
  split at h
  · cases h
  split at h
  · rename_i b hb
    have hge : ¬ a < EXIT_TRAP := fun hlt => by
      rw [s.toBase.setRegister_of_lt hlt] at hb
      cases hb
    cases h
    rw [if_neg hge, skew_congr (Base.setRegister_clock b hb)]
    exact (BitVec.add_zero _).symm
  split at h
  · rename_i hge
    cases h
    rw [if_neg (BitVec.not_lt.mpr hge)]
    exact (BitVec.add_zero _).symm
  · rename_i hlt
    dsimp only at h
    split at h
    · cases h
    · cases h
      have hpoke : ∀ (b : Base) (k : BitVec 20), skew (b.poke size k v) = skew b := fun b k => by
        cases size <;> rfl
      rw [if_pos (BitVec.not_le.mp hlt), hpoke]
      generalize (s.caches.dcache.cacheWrite a).1 = n
      show s.timer0 + n + n - (s.cycles + n.setWidth 64).setWidth 32 =
        s.timer0 - s.cycles.setWidth 32 + n
      rw [BitVec.setWidth_add _ _ (by decide), BitVec.setWidth_setWidth_of_le _ (by decide),
        BitVec.setWidth_eq]
      ring

/-- What the store of an instruction is charged; other instructions are no stores. -/
def actionCharge (s : CacheState) : Action → Word
  | .store _ address _ => storeCharge s address
  | _ => 0

theorem skew_perform {a : Action} (h : s.perform w a = .ok t) :
    skew t.toBase = skew s.toBase + actionCharge s a := by
  cases a with
  | write v =>
    cases h
    exact (BitVec.add_zero _).symm
  | link target =>
    cases h
    exact (BitVec.add_zero _).symm
  | branch taken target =>
    cases h
    cases taken <;> exact (BitVec.add_zero _).symm
  | load type size address =>
    cases hr : s.memRead size address with
    | error e =>
      simp only [CacheState.perform, hr, bind, Except.bind] at h
      cases h
    | ok p =>
      simp only [CacheState.perform, hr, bind, Except.bind, Except.ok.injEq] at h
      have hskew : skew t.toBase = skew p.2.toBase := by
        rw [← h]
        rfl
      rw [hskew, skew_memRead hr]
      exact (BitVec.add_zero _).symm
  | store size address v => exact skew_memWrite h
  | system =>
    have hsame : t = s := by
      replace h : s.system w = .ok t := h
      rw [CacheState.system] at h
      split at h
      · exact (Except.ok.inj h).symm
      split at h
      · split at h
        · exact (Except.ok.inj h).symm
        · cases h
      · cases h
    rw [hsame]
    exact (BitVec.add_zero _).symm
  | fail => cases h
  | undefined => cases h

end Step

/-! ## Runs -/

/-- What the store of the next cycle is charged, zero where it executes none. -/
def cycleCharge (s : CacheState) : Word :=
  match s.takeInterrupt.memFetch s.takeInterrupt.pc with
  | .ok (w, u) => actionCharge (u.setReg 0 0) (action w u.pc (u.operands w))
  | .error _ => 0

/-- A cycle adds the penalty of its store to the difference of the counters. -/
theorem skew_cycle {s t : CacheState} (h : s.cycle = .ok t) :
    skew t.toBase = skew s.toBase + cycleCharge s := by
  replace h : (s.takeInterrupt.memFetch s.takeInterrupt.pc >>= fun p =>
    p.2.execute p.1 >>= fun u => .ok u.advance) = .ok t := h
  rw [cycleCharge]
  cases hf : s.takeInterrupt.memFetch s.takeInterrupt.pc with
  | error e =>
    rw [hf] at h
    cases h
  | ok p =>
    rw [hf] at h
    replace h : (p.2.execute p.1 >>= fun u => .ok u.advance) = .ok t := h
    cases hx : p.2.execute p.1 with
    | error e =>
      rw [hx] at h
      cases h
    | ok u =>
      rw [hx] at h
      cases h
      rw [skew_advance, skew_perform hx]
      show skew p.2.toBase + _ = _
      rw [skew_memFetch hf, skew_takeInterrupt]

/-- In every run, `timer0` equals the cycle count modulo `2 ^ 32` in every state up to
cycle `k` exactly when no store before was charged a penalty. -/
theorem cache_timer0 {cfg : Config} {unified : Bool} {mem : BitVec 20 → BitVec 8}
    {stdin : List (BitVec 8)} {log : Bool} {k : ℕ} {t : CacheState}
    (hrun : runCache (startCache cfg unified mem stdin log) k = .ok t) :
    (∀ j ≤ k, ∀ u, runCache (startCache cfg unified mem stdin log) j = .ok u →
      u.timer0 = u.cycles.setWidth 32) ↔
    (∀ j < k, ∀ u, runCache (startCache cfg unified mem stdin log) j = .ok u →
      cycleCharge u = 0) := by
  have hskew : ∀ b : Base, b.timer0 = b.cycles.setWidth 32 ↔ skew b = 0 := fun b => by
    rw [skew]
    exact sub_eq_zero.symm
  simp only [hskew]
  induction k generalizing t with
  | zero =>
    refine ⟨fun _ j hj => absurd hj (Nat.not_lt_zero j), fun _ j hj u hu => ?_⟩
    obtain rfl := Nat.le_zero.mp hj
    cases hu
    show (0 : Word) - (0 : BitVec 64).setWidth 32 = 0
    decide
  | succ k ih =>
    cases hk : runCache (startCache cfg unified mem stdin log) k with
    | error e =>
      rw [runCache, hk] at hrun
      cases hrun
    | ok s =>
      have hcycle : s.cycle = .ok t := by
        rw [runCache, hk] at hrun
        exact hrun
      have hstep := skew_cycle hcycle
      constructor
      · intro h j hj u hu
        rcases Nat.lt_succ_iff_lt_or_eq.mp hj with hj | rfl
        · exact (ih hk).mp (fun i hi => h i (Nat.le_succ_of_le hi)) j hj u hu
        · rw [hk] at hu
          cases hu
          rw [h (j + 1) le_rfl t hrun, h j (Nat.le_succ j) s hk] at hstep
          simpa using hstep.symm
      · intro h j hj u hu
        rcases Nat.le_succ_iff.mp hj with hj | rfl
        · exact (ih hk).mpr (fun i hi => h i (Nat.lt_succ_of_lt hi)) j hj u hu
        · rw [hrun] at hu
          cases hu
          have hprev := (ih hk).mpr (fun i hi => h i (Nat.lt_succ_of_lt hi)) k le_rfl s hk
          rw [hstep, hprev, h k (Nat.lt_succ_self k) s hk]
          rfl

/-! ## A store -/

/-- The start of a program with one line of cache and write through. -/
def loadedCache (ws : List Word) : CacheState :=
  startCache (oneLine .wt) true (fun k => imageByte ws k.toNat) [] false

/-- What a cycle that does not stop tells about its state. -/
theorem exists_of_map {α : Type} {r : Except Stop CacheState} {f : CacheState → α} {a : α}
    (h : r.map f = .ok a) : ∃ t, r = .ok t ∧ f t = a := by
  cases r with
  | error e => cases h
  | ok t => exact ⟨t, rfl, Except.ok.inj h⟩

/-- The start of a program with one line in each of two caches and write back. -/
def loadedBack (ws : List Word) : CacheState :=
  startCache (oneLine .wb) false (fun k => imageByte ws k.toNat) [] false

/-- `lw x1, 256(x0)`, `sw x0, 256(x0)`. -/
def storeHit : List Word := [0x10002083, 0x10002023]

/-- The store finds the block that the load has fetched, is charged nothing, and the counters
stay together. -/
theorem cache_timer0_hit :
    ∃ t, runCache (loadedBack storeHit) 2 = .ok t ∧
      (t.caches.dcache.hits, t.caches.dcache.writes) = (1, 1) ∧
      ∀ j ≤ 2, ∀ u, runCache (loadedBack storeHit) j = .ok u →
        u.timer0 = u.cycles.setWidth 32 := by
  obtain ⟨t, ht, hcount⟩ := exists_of_map
    (f := fun t => (t.caches.dcache.hits, t.caches.dcache.writes)) (a := (1, 1))
    (show (runCache (loadedBack storeHit) 2).map
      (fun t => (t.caches.dcache.hits, t.caches.dcache.writes)) = .ok (1, 1) by decide +kernel)
  have hcharge : ∀ j < 2, (runCache (loadedBack storeHit) j).map cycleCharge = .ok 0 := by
    decide +kernel
  refine ⟨t, ht, hcount, (cache_timer0 ht).mpr fun j hj u hu => ?_⟩
  have hrun : runCache (loadedBack storeHit) j = .ok u := hu
  have hzero := hcharge j hj
  rw [hrun] at hzero
  exact Except.ok.inj hzero

/-- `sw x0, 256(x0)` moves them apart by its penalty. -/
theorem cache_timer0_store :
    ∃ t, runCache (loadedCache [0x10002023]) 1 = .ok t ∧ t.timer0 = 7 ∧ t.cycles = 5 ∧
      t.timer0 ≠ t.cycles.setWidth 32 := by
  obtain ⟨t, ht, heq⟩ := exists_of_map (f := fun t => (t.timer0, t.cycles)) (a := (7, 5))
    (show (runCache (loadedCache [0x10002023]) 1).map (fun t => (t.timer0, t.cycles)) =
      .ok (7, 5) by decide +kernel)
  have h0 : t.timer0 = 7 := congrArg Prod.fst heq
  have hc : t.cycles = 5 := congrArg Prod.snd heq
  refine ⟨t, ht, h0, hc, ?_⟩
  rw [h0, hc]
  decide

end HfRisc.Results
