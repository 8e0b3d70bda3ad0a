import Mathlib.Data.List.Basic

/-!
# Mealy machines and stuttering simulation

A clocked circuit and an instruction set are both machines that read one input
per step and emit a list of observations. This file has their runs and traces,
the induction that carries an invariant along a run, and a simulation in which
one step of the concrete machine matches zero or one steps of the abstract one.

The simulation relation carries a rank that every silent step decreases, so
that a concrete run cannot stutter forever: `Simulation.run` turns each concrete
run into an abstract one with the same trace, and `Simulation.reaches` finds,
for every number of abstract steps, the concrete run that performs them.
-/

namespace HfRisc.Lib

/-- A machine with states `σ`, inputs `ι` and observations `ο`. -/
structure Mealy (σ ι ο : Type*) where
  step : σ → ι → σ
  out : σ → ι → List ο

namespace Mealy

variable {σ ι ο : Type*} (M : Mealy σ ι ο)

/-- The state after a list of inputs. -/
def run (s : σ) (is : List ι) : σ := is.foldl M.step s

/-- Everything emitted along a list of inputs. -/
def trace : σ → List ι → List ο
  | _, [] => []
  | s, i :: is => M.out s i ++ trace (M.step s i) is

/-- `P` holds of the state and the input at every step of the run. -/
def Along (P : σ → ι → Prop) : σ → List ι → Prop
  | _, [] => True
  | s, i :: is => P s i ∧ Along P (M.step s i) is

/-- The first `N` inputs of a stream. -/
def inputs (x : ℕ → ι) (N : ℕ) : List ι := (List.range N).map x

@[simp] theorem run_nil (s : σ) : M.run s [] = s := rfl

@[simp] theorem run_cons (s : σ) (i : ι) (is : List ι) :
    M.run s (i :: is) = M.run (M.step s i) is := rfl

theorem run_append (s : σ) (is js : List ι) :
    M.run s (is ++ js) = M.run (M.run s is) js := List.foldl_append

@[simp] theorem trace_nil (s : σ) : M.trace s [] = [] := rfl

@[simp] theorem trace_cons (s : σ) (i : ι) (is : List ι) :
    M.trace s (i :: is) = M.out s i ++ M.trace (M.step s i) is := rfl

theorem trace_append (s : σ) (is js : List ι) :
    M.trace s (is ++ js) = M.trace s is ++ M.trace (M.run s is) js := by
  induction is generalizing s with
  | nil => rfl
  | cons i is ih => rw [List.cons_append, trace_cons, ih, trace_cons, run_cons, List.append_assoc]

theorem along_append {P : σ → ι → Prop} {s : σ} {is js : List ι} :
    M.Along P s (is ++ js) ↔ M.Along P s is ∧ M.Along P (M.run s is) js := by
  induction is generalizing s with
  | nil => simp [Along]
  | cons i is ih => simp only [List.cons_append, Along, ih, run_cons, and_assoc]

@[simp] theorem inputs_zero (x : ℕ → ι) : inputs x 0 = [] := rfl

theorem inputs_succ (x : ℕ → ι) (N : ℕ) : inputs x (N + 1) = inputs x N ++ [x N] := by
  simp [inputs, List.range_succ]

theorem run_inputs_succ (s : σ) (x : ℕ → ι) (N : ℕ) :
    M.run s (inputs x (N + 1)) = M.step (M.run s (inputs x N)) (x N) := by
  rw [inputs_succ, run_append, run_cons, run_nil]

theorem trace_inputs_succ (s : σ) (x : ℕ → ι) (N : ℕ) :
    M.trace s (inputs x (N + 1)) =
      M.trace s (inputs x N) ++ M.out (M.run s (inputs x N)) (x N) := by
  rw [inputs_succ, trace_append, trace_cons, trace_nil, List.append_nil]

theorem inputs_add (x : ℕ → ι) (M N : ℕ) :
    inputs x (M + N) = inputs x M ++ inputs (fun k => x (M + k)) N := by
  simp only [inputs, List.range_add, List.map_append, List.map_map]
  rfl

theorem inputs_add_three (x : ℕ → ι) (N : ℕ) :
    inputs x (N + 3) = inputs x N ++ [x N, x (N + 1), x (N + 2)] := by
  simp only [inputs_succ, List.append_assoc, List.cons_append, List.nil_append]

/-- A pointwise condition on the first steps of a stream run holds along them. -/
theorem along_inputs_of_lt {P : σ → ι → Prop} {s : σ} {x : ℕ → ι} {N : ℕ}
    (h : ∀ k < N, P (M.run s (inputs x k)) (x k)) : M.Along P s (inputs x N) := by
  induction N with
  | zero => trivial
  | succ N ih =>
    rw [inputs_succ, along_append]
    exact ⟨ih fun k hk => h k (Nat.lt_succ_of_lt hk), h N N.lt_succ_self, trivial⟩

/-- A pointwise condition on a stream run holds along each of its prefixes. -/
theorem along_inputs {P : σ → ι → Prop} {s : σ} {x : ℕ → ι}
    (h : ∀ N, P (M.run s (inputs x N)) (x N)) (N : ℕ) : M.Along P s (inputs x N) :=
  M.along_inputs_of_lt fun k _ => h k

/-- An invariant preserved by every admissible step holds along the run. -/
theorem run_invariant {P : σ → ι → Prop} {I : σ → Prop}
    (hstep : ∀ s i, I s → P s i → I (M.step s i)) {s : σ} {is : List ι}
    (h : I s) (hP : M.Along P s is) : I (M.run s is) := by
  induction is generalizing s with
  | nil => exact h
  | cons i is ih => exact ih (hstep s i h hP.1) hP.2

/-! ## Stuttering simulation -/

variable {α ε : Type*}

/-- `R r s a` relates the concrete state `s` to the abstract state `a`, with at
most `r` silent steps ahead. An admissible step is either silent and lowers the
rank, or matches one or more abstract steps with the same observations and leaves
a rank of at most `bound`. -/
structure Simulation (M : Mealy σ ι ο) (A : Mealy α ε ο) (R : ℕ → σ → α → Prop)
    (P : σ → ι → Prop) (bound : ℕ) : Prop where
  step : ∀ {r s a i}, R r s a → P s i →
    (∃ r' < r, R r' (M.step s i) a ∧ M.out s i = []) ∨
    (∃ r' ≤ bound, ∃ es ≠ [], R r' (M.step s i) (A.run a es) ∧ M.out s i = A.trace a es)

namespace Simulation

variable {M : Mealy σ ι ο} {A : Mealy α ε ο} {R : ℕ → σ → α → Prop} {P : σ → ι → Prop}
  {bound : ℕ}

/-- Every admissible concrete run has the trace of an abstract run, and ends in
a related state. -/
theorem run (h : Simulation M A R P bound) {r : ℕ} {s : σ} {a : α} {is : List ι}
    (hR : R r s a) (hP : M.Along P s is) :
    ∃ r' es, R r' (M.run s is) (A.run a es) ∧ M.trace s is = A.trace a es := by
  induction is generalizing r s a with
  | nil => exact ⟨r, [], hR, rfl⟩
  | cons i is ih =>
    rcases h.step hR hP.1 with ⟨r', -, hR', hout⟩ | ⟨r', -, es, -, hR', hout⟩
    · obtain ⟨r'', es, hR'', htr⟩ := ih hR' hP.2
      exact ⟨r'', es, hR'', by rw [trace_cons, hout, htr, List.nil_append]⟩
    · obtain ⟨r'', es', hR'', htr⟩ := ih hR' hP.2
      refine ⟨r'', es ++ es', ?_, ?_⟩
      · rw [run_append]
        exact hR''
      · rw [trace_cons, hout, htr, trace_append]

/-- Along an admissible stream, the next abstract steps come after at most the
rank's number of silent steps. -/
theorem next (h : Simulation M A R P bound) {s₀ : σ} {x : ℕ → ι}
    (hP : ∀ N, P (M.run s₀ (inputs x N)) (x N)) {r N : ℕ} {a : α}
    (hR : R r (M.run s₀ (inputs x N)) a) :
    ∃ N' r', ∃ es ≠ [], R r' (M.run s₀ (inputs x N')) (A.run a es) ∧
      M.trace s₀ (inputs x N') = M.trace s₀ (inputs x N) ++ A.trace a es := by
  induction r using Nat.strongRecOn generalizing N with
  | ind r ih =>
    rcases h.step hR (hP N) with ⟨r', hlt, hR', hout⟩ | ⟨r', -, es, hes, hR', hout⟩
    · rw [← run_inputs_succ] at hR'
      obtain ⟨N', r'', es, hes, hR'', htr⟩ := ih r' hlt hR'
      exact ⟨N', r'', es, hes, hR'', by rw [htr, trace_inputs_succ, hout, List.append_nil]⟩
    · rw [← run_inputs_succ] at hR'
      exact ⟨N + 1, r', es, hes, hR', by rw [trace_inputs_succ, hout]⟩

/-- Along an admissible stream, every number of abstract steps is reached. -/
theorem reaches (h : Simulation M A R P bound) {s : σ} {x : ℕ → ι}
    (hP : ∀ N, P (M.run s (inputs x N)) (x N)) {r : ℕ} {a : α} (hR : R r s a) (k : ℕ) :
    ∃ N r' es, k ≤ es.length ∧ R r' (M.run s (inputs x N)) (A.run a es) ∧
      M.trace s (inputs x N) = A.trace a es := by
  induction k with
  | zero => exact ⟨0, r, [], Nat.zero_le _, hR, rfl⟩
  | succ k ih =>
    obtain ⟨N, r', es, hlen, hR', htr⟩ := ih
    obtain ⟨N', r'', es', hne, hR'', htr'⟩ := h.next hP hR'
    refine ⟨N', r'', es ++ es', ?_, ?_, ?_⟩
    · have hpos : 0 < es'.length := List.length_pos_iff.mpr hne
      rw [List.length_append]
      omega
    · rw [run_append]
      exact hR''
    · rw [htr', htr, trace_append]

end Simulation

end Mealy

end HfRisc.Lib
