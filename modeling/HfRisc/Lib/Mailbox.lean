import Mathlib.Data.List.Basic
import Mathlib.Tactic.Common

/-!
# A place for one item

A mailbox holds one item and a flag. Putting an item sets the flag, also over an item
that is still there, and getting clears it. When every item is got before the next one
is put, the items got are the items put, in order.
-/

namespace HfRisc.Lib

section Emitted

variable {α : Type*} {e f : ℕ → Option α}

/-- What a sequence of optional emitted emits in its first `N` steps. -/
def emitted (e : ℕ → Option α) (N : ℕ) : List α := (List.range N).filterMap e

@[simp] theorem emitted_zero : emitted e 0 = [] := rfl

theorem emitted_succ (N : ℕ) : emitted e (N + 1) = emitted e N ++ (e N).toList := by
  rw [emitted, List.range_succ, List.filterMap_append]
  cases h : e N with
  | none => rw [List.filterMap_cons_none h]; rfl
  | some a => rw [List.filterMap_cons_some h]; rfl

theorem emitted_congr {N : ℕ} (h : ∀ n < N, e n = f n) : emitted e N = emitted f N := by
  induction N with
  | zero => rfl
  | succ N ih =>
    rw [emitted_succ, emitted_succ, ih fun n hn => h n (Nat.lt_succ_of_lt hn),
      h N (Nat.lt_succ_self N)]

/-- Events that come `d` steps late. -/
theorem emitted_delay {d : ℕ} (hquiet : ∀ n < d, e n = none) (hlate : ∀ n, e (n + d) = f n)
    (N : ℕ) : emitted e (N + d) = emitted f N := by
  induction N with
  | zero =>
    rw [Nat.zero_add, emitted_zero, emitted]
    exact List.filterMap_eq_nil_iff.mpr fun n hn => hquiet n (List.mem_range.mp hn)
  | succ N ih => rw [Nat.succ_add, emitted_succ, emitted_succ, ih, hlate]

end Emitted

/-- `full` and `value` are a mailbox along a run that puts `put n` and gets at `get n`.
When both fall in one step, the item stays. -/
structure Mailbox {α : Type*} (full : ℕ → Bool) (value : ℕ → α) (put : ℕ → Option α)
    (get : ℕ → Bool) : Prop where
  full_succ : ∀ n, full (n + 1) = ((put n).isSome || (full n && !get n))
  value_succ : ∀ n, value (n + 1) = (put n).getD (value n)

namespace Mailbox

variable {α : Type*} {full : ℕ → Bool} {value : ℕ → α} {put : ℕ → Option α} {get : ℕ → Bool}

/-- The item that leaves the mailbox in this step. -/
def taken (full : ℕ → Bool) (value : ℕ → α) (get : ℕ → Bool) (n : ℕ) : Option α :=
  if full n && get n then some (value n) else none

/-- The item with which the flag rises in this step. -/
def raised (full : ℕ → Bool) (value : ℕ → α) (n : ℕ) : Option α :=
  if !full n && full (n + 1) then some (value (n + 1)) else none

/-- The item still there. -/
def pending (full : ℕ → Bool) (value : ℕ → α) (n : ℕ) : List α :=
  if full n then [value n] else []

/-- Every item is got before the next one is put. -/
def Prompt (put : ℕ → Option α) (get : ℕ → Bool) : Prop :=
  ∀ m n, m < n → (put m).isSome → (put n).isSome → ∃ k, m < k ∧ k < n ∧ get k = true

/-- While nothing is put, the flag stays until something is got. -/
theorem full_add_iff (h : Mailbox full value put get) (m : ℕ) :
    ∀ n, (∀ k < n, put (m + k) = none) →
      (full (m + n) = true ↔ full m = true ∧ ∀ k < n, get (m + k) = false) := by
  intro n hput
  induction n with
  | zero => simp
  | succ n ih =>
    rw [← Nat.add_assoc, h.full_succ, hput n (Nat.lt_succ_self n), Option.isSome_none,
      Bool.false_or, Bool.and_eq_true, ih fun k hk => hput k (Nat.lt_succ_of_lt hk), and_assoc,
      Bool.not_eq_true', Nat.forall_lt_succ_right]

/-- The flag comes from an item that was not got since. -/
theorem source (h : Mailbox full value put get) (h0 : full 0 = false) :
    ∀ n, full n = true → ∃ m < n, (put m).isSome ∧ ∀ k, m < k → k < n → get k = false := by
  intro n hn
  induction n with
  | zero => exact absurd (h0.symm.trans hn) Bool.false_ne_true
  | succ n ih =>
    rw [h.full_succ, Bool.or_eq_true, Bool.and_eq_true, Bool.not_eq_true'] at hn
    rcases hn with hput | ⟨hfull, hget⟩
    · exact ⟨n, Nat.lt_succ_self n, hput, fun k hk hk' => by omega⟩
    · obtain ⟨m, hm, hput, hquiet⟩ := ih hfull
      refine ⟨m, Nat.lt_succ_of_lt hm, hput, fun k hk hk' => ?_⟩
      rcases Nat.lt_succ_iff_lt_or_eq.mp hk' with hlt | rfl
      · exact hquiet k hk hlt
      · exact hget

/-- A prompt reader leaves no item to be overwritten. -/
theorem empty_of_put (h : Mailbox full value put get) (h0 : full 0 = false)
    (hp : Prompt put get) {n : ℕ} (hn : (put n).isSome) : full n = false := by
  by_contra hfull
  obtain ⟨m, hm, hput, hquiet⟩ := h.source h0 n (Bool.ne_false_iff.mp hfull)
  obtain ⟨k, hmk, hkn, hget⟩ := hp m n hm hput hn
  exact absurd (hget.symm.trans (hquiet k hmk hkn)) Bool.noConfusion

/-- With a prompt reader the flag rises once for each item. -/
theorem raised_eq (h : Mailbox full value put get) (h0 : full 0 = false) (hp : Prompt put get)
    (n : ℕ) : raised full value n = put n := by
  rw [raised, h.full_succ, h.value_succ]
  cases hput : put n with
  | none => cases full n <;> rfl
  | some v =>
    rw [h.empty_of_put h0 hp (by rw [hput]; rfl)]
    rfl

/-- A prompt reader gets the items in order. Only the last one can still be there. -/
theorem taken_append_pending (h : Mailbox full value put get) (h0 : full 0 = false)
    (hp : Prompt put get) (N : ℕ) :
    emitted (taken full value get) N ++ pending full value N = emitted put N := by
  induction N with
  | zero => simp [pending, h0]
  | succ N ih =>
    rw [emitted_succ, emitted_succ, ← ih, List.append_assoc, List.append_assoc]
    congr 1
    rw [taken, pending, pending, h.full_succ, h.value_succ]
    cases hput : put N with
    | none => cases full N <;> cases get N <;> rfl
    | some v =>
      rw [h.empty_of_put h0 hp (by rw [hput]; rfl)]
      rfl

end Mailbox

end HfRisc.Lib
