import Mathlib.Data.List.Basic
import Mathlib.Data.Nat.Notation
import Mathlib.Logic.Function.Basic

/-!
# Serial lines

A register that shifts the bits of a line in at its low end sends its own bits out at the
high end, the most significant one first. After as many bits as it has, it holds the word
of the line (`shifted_all`). The other half of the file counts the pulses of a clock line.
-/

namespace HfRisc.Lib

/-! ## Shift registers -/

variable {n k i : ℕ} {x y : BitVec n} {b c : ℕ → Bool}

/-- The register `x` with the first `k` bits of `b` shifted in. -/
def shifted (x : BitVec n) (b : ℕ → Bool) : ℕ → BitVec n
  | 0 => x
  | k + 1 => (shifted x b k).shiftConcat (b k)

/-- The word of the first `n` bits of a line. -/
def serial (n : ℕ) (b : ℕ → Bool) : BitVec n := shifted 0 b n

@[simp] theorem shifted_zero : shifted x b 0 = x := rfl

theorem shifted_succ : shifted x b (k + 1) = (shifted x b k).shiftConcat (b k) := rfl

theorem getMsbD_shiftConcat (x : BitVec n) (a : Bool) (i : ℕ) :
    (x.shiftConcat a).getMsbD i = if i + 1 < n then x.getMsbD (i + 1) else decide (i < n) && a := by
  rw [BitVec.getMsbD_eq_getLsbD, BitVec.getLsbD_shiftConcat, BitVec.getMsbD_eq_getLsbD]
  by_cases hin : i < n
  · by_cases hlast : i + 1 < n
    · rw [if_pos hlast, if_neg (by omega)]
      simp only [hin, hlast, decide_true, Bool.true_and, show n - 1 - i < n by omega]
      rw [show n - 1 - i - 1 = n - 1 - (i + 1) by omega]
    · rw [if_neg hlast, if_pos (by omega)]
      simp only [hin, decide_true, Bool.true_and, show n - 1 - i < n by omega]
  · have hlast : ¬ i + 1 < n := by omega
    simp [hin, hlast]

/-- The bits of the line follow those of the register. -/
theorem getMsbD_shifted (hi : i < n) :
    (shifted x b k).getMsbD i = if i + k < n then x.getMsbD (i + k) else b (i + k - n) := by
  induction k generalizing i with
  | zero => rw [shifted_zero, Nat.add_zero, if_pos hi]
  | succ k ih =>
    rw [shifted_succ, getMsbD_shiftConcat]
    by_cases hlast : i + 1 < n
    · rw [if_pos hlast, ih hlast, Nat.add_right_comm, Nat.add_assoc]
    · rw [if_neg hlast, if_neg (by omega), decide_eq_true hi, Bool.true_and]
      congr 1
      omega

/-- The bit that is sent next. -/
theorem msb_shifted (hk : k < n) : (shifted x b k).msb = x.getMsbD k := by
  rw [BitVec.msb_eq_getMsbD_zero, getMsbD_shifted (by omega), Nat.zero_add, if_pos hk]

theorem shifted_congr (h : ∀ j < k, b j = c j) : shifted x b k = shifted x c k := by
  induction k with
  | zero => rfl
  | succ k ih =>
    rw [shifted_succ, shifted_succ, ih fun j hj => h j (Nat.lt_succ_of_lt hj),
      h k (Nat.lt_succ_self k)]

/-- One more bit. -/
theorem shiftConcat_shifted (x : BitVec n) (b : ℕ → Bool) (k : ℕ) (a : Bool) :
    (shifted x b k).shiftConcat a = shifted x (Function.update b k a) (k + 1) := by
  rw [shifted_succ, Function.update_self]
  congr 1
  exact shifted_congr fun j hj => (Function.update_of_ne (Nat.ne_of_lt hj) _ _).symm

theorem getMsbD_shifted_all (hi : i < n) : (shifted x b n).getMsbD i = b i := by
  rw [getMsbD_shifted hi, if_neg (by omega), Nat.add_sub_cancel]

/-- After `n` bits nothing is left of the register's own. -/
theorem shifted_all : shifted x b n = serial n b :=
  BitVec.eq_of_getMsbD_eq fun _ hi => by
    rw [getMsbD_shifted_all hi, serial, getMsbD_shifted_all hi]

theorem getMsbD_serial (hi : i < n) : (serial n b).getMsbD i = b i := getMsbD_shifted_all hi

/-- A word sent over a line arrives. -/
theorem serial_eq (h : ∀ j < n, b j = x.getMsbD j) : serial n b = x :=
  BitVec.eq_of_getMsbD_eq fun i hi => by rw [getMsbD_serial hi, h i hi]

/-! ## Pulses -/

/-- The rising edges of a line in its first `k` steps. -/
def pulses (clk : ℕ → Bool) (k : ℕ) : ℕ := (List.range k).countP fun j => !clk j && clk (j + 1)

@[simp] theorem pulses_zero (clk : ℕ → Bool) : pulses clk 0 = 0 := rfl

theorem pulses_succ (clk : ℕ → Bool) (k : ℕ) :
    pulses clk (k + 1) = pulses clk k + if clk k = false ∧ clk (k + 1) = true then 1 else 0 := by
  rw [pulses, pulses, List.range_succ, List.countP_append, List.countP_singleton]
  simp

/-- No pulse begins with a falling or a steady line. -/
theorem pulses_succ_of_le {clk : ℕ → Bool} (h : clk (k + 1) = true → clk k = true) :
    pulses clk (k + 1) = pulses clk k := by
  have hno : ¬ (clk k = false ∧ clk (k + 1) = true) := by
    rintro ⟨hlow, hhigh⟩
    rw [h hhigh] at hlow
    cases hlow
  rw [pulses_succ, if_neg hno, Nat.add_zero]

theorem pulses_succ_of_rise {clk : ℕ → Bool} (hlow : clk k = false) (hhigh : clk (k + 1) = true) :
    pulses clk (k + 1) = pulses clk k + 1 := by
  rw [pulses_succ, if_pos ⟨hlow, hhigh⟩]

end HfRisc.Lib
