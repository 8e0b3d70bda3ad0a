import Mathlib.Algebra.Ring.Parity

/-!
# Sources that toggle

A source signals by toggling its cause, and is acknowledged by toggling what the cause is compared
with. It is pending where the two differ, so two signals between two looks at it are none. However
signals and acknowledgements interleave, the source is pending exactly after an odd number of both,
and who acknowledges only what was pending when he last looked never acknowledges more than was
signalled.
-/

namespace HfRisc.Lib

/-- A source, with the number of times it signalled and was acknowledged. -/
structure ToggleLine where
  cause : Bool
  inv : Bool
  signals : ℕ
  served : ℕ

namespace ToggleLine

variable (l : ToggleLine)

def pending : Bool := l.cause != l.inv

/-- The source signals. -/
def signal : ToggleLine := { l with cause := !l.cause, signals := l.signals + 1 }

/-- It is acknowledged. -/
def serve : ToggleLine := { l with inv := !l.inv, served := l.served + 1 }

/-- Some signal has not been acknowledged. -/
def Owed : Prop := l.served < l.signals

/-- What holds at any time. -/
structure Balanced : Prop where
  pending_iff : l.pending = true ↔ Odd (l.signals + l.served)
  served_le : l.served ≤ l.signals

variable {l}

theorem pending_signal : l.signal.pending = !l.pending := by
  show ((!l.cause) != l.inv) = !(l.cause != l.inv)
  cases l.cause <;> cases l.inv <;> rfl

theorem pending_serve : l.serve.pending = !l.pending := by
  show (l.cause != (!l.inv)) = !(l.cause != l.inv)
  cases l.cause <;> cases l.inv <;> rfl

/-- A pending source is owed an acknowledgement. -/
theorem Balanced.owed (h : l.Balanced) (hp : l.pending = true) : l.Owed := by
  refine Nat.lt_of_le_of_ne h.served_le fun heq => ?_
  have hodd := h.pending_iff.mp hp
  rw [heq] at hodd
  exact absurd (Even.add_self l.signals) (Nat.not_even_iff_odd.mpr hodd)

theorem Owed.signal (h : l.Owed) : l.signal.Owed := Nat.lt_succ_of_lt h

theorem Balanced.signal (h : l.Balanced) : l.signal.Balanced where
  pending_iff := by
    show l.signal.pending = true ↔ Odd (l.signals + 1 + l.served)
    rw [pending_signal, Bool.not_eq_true', ← Bool.not_eq_true, h.pending_iff, Nat.add_right_comm,
      Nat.odd_add_one]
  served_le := Nat.le_succ_of_le h.served_le

theorem Balanced.serve (h : l.Balanced) (ho : l.Owed) : l.serve.Balanced where
  pending_iff := by
    show l.serve.pending = true ↔ Odd (l.signals + (l.served + 1))
    rw [pending_serve, Bool.not_eq_true', ← Bool.not_eq_true, h.pending_iff, ← Nat.add_assoc,
      Nat.odd_add_one]
  served_le := ho

end ToggleLine

end HfRisc.Lib
