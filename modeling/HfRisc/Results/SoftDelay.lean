import HfRisc.Soft.Delay

/-!
# Delays that are too short

A delay is long enough where `TIMER0` does not wrap around between two of its reads. A wrap-around
counts as many cycles as there are in a second on top of those that passed.
-/

namespace HfRisc.Results

open HfRisc.Soft

/-- A run without a wrap-around takes as many cycles as the delay has. -/
theorem delay_not_early (cpuSpeed c : Word) {t : ℕ → ℕ} (ht : Polls t) :
    (∀ msec fuel reads, delayMs cpuSpeed fuel (timer0 c t) msec = some reads →
      NoWrap c t reads → msec.toNat * (cpuSpeed / 1000).toNat ≤ t (reads - 1) - t 0) ∧
    ∀ usec fuel reads, delayUs cpuSpeed fuel (timer0 c t) usec = some reads →
      NoWrap c t reads → usec.toNat * (cpuSpeed / 1000000).toNat ≤ t (reads - 1) - t 0 :=
  ⟨fun _ _ _ h hwrap => Delay.delay_le ht h hwrap, fun _ _ _ h hwrap => Delay.delay_le ht h hwrap⟩

/-- Reads at intervals of 9000 cycles, with 8000000 of them in a second. -/
theorem delay_not_early_two :
    (2 : Word).toNat * ((8000000 : Word) / 1000).toNat ≤ 9000 * (3 - 1) - 9000 * 0 ∧
      (1000 : Word).toNat * ((8000000 : Word) / 1000000).toNat ≤ 9000 * (2 - 1) - 9000 * 0 := by
  have ht : Polls (9000 * ·) := ⟨fun j => by omega, fun j => by omega⟩
  have hwrap : ∀ reads ≤ 3, NoWrap 0 (9000 * ·) reads := fun reads hreads j hj => by
    obtain rfl | rfl : j = 0 ∨ j = 1 := by omega
    · decide
    · decide
  exact ⟨(delay_not_early 8000000 0 ht).1 2 3 3 (by decide) (hwrap 3 le_rfl),
    (delay_not_early 8000000 0 ht).2 1000 3 2 (by decide) (hwrap 2 (by decide))⟩

/-- One millisecond at 25 MHz is over after one cycle. -/
theorem delayMs_early : ¬∀ (cpuSpeed c msec : Word) (t : ℕ → ℕ) (fuel reads : ℕ), Polls t →
    delayMs cpuSpeed fuel (timer0 c t) msec = some reads →
      msec.toNat * (cpuSpeed / 1000).toNat ≤ t (reads - 1) - t 0 := fun h =>
  absurd (h 25000000 0xFFFFFFFF 1 id 2 2 ⟨fun j => Nat.le_succ j, fun j => by simp⟩ (by decide))
    (by decide)

end HfRisc.Results
