import HfRisc.Arch
import HfRisc.Lib.While

/-!
# Delays (`delay_ms`, `delay_us`)

Both add up the differences between reads of `TIMER0`, and carry whole units out of the sum. The
reads are a stream, and a run is as long as the reads that it takes.
-/

namespace HfRisc.Soft

namespace Delay

/-- The variables of the loop, with the reads of `TIMER0` so far. -/
structure Vars where
  units : Word
  delta : Word
  last : Word
  reads : ℕ

/-- `delta` with the time since the last read. Where the timer wraps around, the code takes it for
one that counts to `CPU_SPEED`. -/
def elapse (cpuSpeed cur : Word) (v : Vars) : Word :=
  if cur < v.last then v.delta + (cur + (cpuSpeed - v.last)) else v.delta + (cur - v.last)

/-- The body of the loop. -/
def poll (cpuSpeed cycles : Word) (timer : ℕ → Word) (v : Vars) : Vars :=
  let delta := elapse cpuSpeed (timer v.reads) v
  { units := if cycles ≤ delta then v.units + delta / cycles else v.units
    delta := if cycles ≤ delta then delta % cycles else delta
    last := timer v.reads
    reads := v.reads + 1 }

/-- A delay of `n` units, of which there are `rate` in a second. The result is how many times
`TIMER0` was read. -/
def delay (rate cpuSpeed : Word) (fuel : ℕ) (timer : ℕ → Word) (n : Word) : Option ℕ :=
  (Lib.whileLoop (fun v => v.units < n) (poll cpuSpeed (cpuSpeed / rate) timer) fuel
    ⟨0, 0, timer 0, 1⟩).map Vars.reads

end Delay

/-- `delay_ms`. -/
def delayMs : Word → ℕ → (ℕ → Word) → Word → Option ℕ := Delay.delay 1000

/-- `delay_us`. -/
def delayUs : Word → ℕ → (ℕ → Word) → Word → Option ℕ := Delay.delay 1000000

/-! ## Time -/

/-- Reads at the cycles `t`, less than one turn of the timer apart. -/
structure Polls (t : ℕ → ℕ) : Prop where
  mono : ∀ j, t j ≤ t (j + 1)
  near : ∀ j, t (j + 1) < t j + 2 ^ 32

/-- What they read: `TIMER0` is `c` in the cycle 0, and counts the cycles. -/
def timer0 (c : Word) (t : ℕ → ℕ) (j : ℕ) : Word := c + BitVec.ofNat 32 (t j)

/-- The timer does not wrap around between two of the first reads. -/
def NoWrap (c : Word) (t : ℕ → ℕ) (reads : ℕ) : Prop :=
  ∀ j, j + 1 < reads → timer0 c t j ≤ timer0 c t (j + 1)

namespace Delay

variable {rate cpuSpeed cycles c n : Word} {t : ℕ → ℕ} {v : Vars} {j fuel : ℕ}

/-- Where the timer does not wrap around, the difference of the reads is the time between them. -/
theorem toNat_difference (ht : Polls t) (j : ℕ) :
    (timer0 c t (j + 1) - timer0 c t j).toNat = t (j + 1) - t j := by
  have hmono := ht.mono j
  have hnear := ht.near j
  rw [timer0, timer0, BitVec.toNat_sub, BitVec.toNat_add, BitVec.toNat_add, BitVec.toNat_ofNat,
    BitVec.toNat_ofNat]
  omega

/-- What is counted after some reads: no more than the time, if the timer has not wrapped around. -/
structure Counted (cycles c : Word) (t : ℕ → ℕ) (v : Vars) : Prop where
  reads : 0 < v.reads
  last : v.last = timer0 c t (v.reads - 1)
  time : NoWrap c t v.reads →
    v.units.toNat * cycles.toNat + v.delta.toNat ≤ t (v.reads - 1) - t 0

theorem toNat_add_le (x y : Word) : (x + y).toNat ≤ x.toNat + y.toNat := by
  rw [BitVec.toNat_add]
  exact Nat.mod_le _ _

/-- Whole units are only carried over. -/
theorem carry_le (units delta cycles : Word) :
    (if cycles ≤ delta then units + delta / cycles else units).toNat * cycles.toNat +
      (if cycles ≤ delta then delta % cycles else delta).toNat ≤
        units.toNat * cycles.toNat + delta.toNat := by
  split
  · have hsplit := Nat.div_add_mod' delta.toNat cycles.toNat
    calc (units + delta / cycles).toNat * cycles.toNat + (delta % cycles).toNat
        ≤ (units.toNat + (delta / cycles).toNat) * cycles.toNat + (delta % cycles).toNat :=
          Nat.add_le_add_right (Nat.mul_le_mul_right _ (toNat_add_le _ _)) _
      _ = units.toNat * cycles.toNat + delta.toNat := by
        rw [BitVec.toNat_udiv, BitVec.toNat_umod, Nat.add_mul, Nat.add_assoc, hsplit]
  · exact le_rfl

theorem t_zero_le (ht : Polls t) (k : ℕ) : t 0 ≤ t k := monotone_nat_of_le_succ ht.mono k.zero_le

/-- A poll adds the time since the last one at most. -/
theorem Counted.poll (ht : Polls t) (h : Counted cycles c t v) :
    Counted cycles c t (poll cpuSpeed cycles (timer0 c t) v) where
  reads := Nat.succ_pos _
  last := rfl
  time hwrap := by
    obtain ⟨k, hk⟩ := Nat.exists_eq_succ_of_ne_zero h.reads.ne'
    have hlast := h.last
    have htime := h.time fun j hj => hwrap j (Nat.lt_succ_of_lt hj)
    rw [hk, Nat.succ_sub_one] at hlast htime
    have hnowrap : ¬timer0 c t v.reads < v.last := by
      rw [hk, hlast]
      refine BitVec.not_lt.mpr (hwrap k ?_)
      show k + 1 < v.reads + 1
      omega
    -- `delta` may overflow, so that less than the time is added
    have helapse : (elapse cpuSpeed (timer0 c t v.reads) v).toNat ≤
        v.delta.toNat + (t (k + 1) - t k) := by
      rw [elapse, if_neg hnowrap, hlast, hk, ← toNat_difference (c := c) ht k]
      exact toNat_add_le _ _
    have hcarry := carry_le v.units (elapse cpuSpeed (timer0 c t v.reads) v) cycles
    have hmono := ht.mono k
    have hstart := t_zero_le ht k
    have hend : (Delay.poll cpuSpeed cycles (timer0 c t) v).reads - 1 = k + 1 := hk
    rw [hend]
    exact hcarry.trans (by omega)

theorem counted_start (cycles c : Word) (t : ℕ → ℕ) :
    Counted cycles c t ⟨0, 0, timer0 c t 0, 1⟩ where
  reads := Nat.one_pos
  last := rfl
  time _ := by
    have hzero : (0 : Word).toNat = 0 := rfl
    rw [hzero, Nat.zero_mul]
    exact Nat.zero_le _

/-- A run that sees no wrap-around is long enough. -/
theorem delay_le {reads : ℕ} (ht : Polls t)
    (h : delay rate cpuSpeed fuel (timer0 c t) n = some reads) (hwrap : NoWrap c t reads) :
    n.toNat * (cpuSpeed / rate).toNat ≤ t (reads - 1) - t 0 := by
  obtain ⟨v, hloop, rfl⟩ := Option.map_eq_some_iff.mp h
  obtain ⟨hcounted, hexit⟩ := Lib.whileLoop_some
    (fun s (hs : Counted (cpuSpeed / rate) c t s) _ => hs.poll ht) (counted_start _ c t) hloop
  have hunits : n.toNat ≤ v.units.toNat := BitVec.not_lt.mp (of_decide_eq_false hexit)
  calc n.toNat * (cpuSpeed / rate).toNat ≤ v.units.toNat * (cpuSpeed / rate).toNat :=
        Nat.mul_le_mul_right _ hunits
    _ ≤ v.units.toNat * (cpuSpeed / rate).toNat + v.delta.toNat := Nat.le_add_right _ _
    _ ≤ t (v.reads - 1) - t 0 := hcounted.time hwrap

end Delay

end HfRisc.Soft
