import HfRisc.Pipe.CoreI
import HfRisc.Pipe.CoreIm
import HfRisc.Pipe.Refinement
import HfRisc.Results.JalrLoop

/-!
# The pipelines execute RV32I

For a well-behaved program the register file and memory writes of the rv32i pipeline
are those of the instruction set, in order and without end (`rv32i_refines`). The
condition on `JALR` is needed: the circuit does not clear bit 0 of the target, and from
an odd program counter the links and the pc-relative values are odd.

So it is for the rv32im pipeline, with the effects that no later cycle of the same
instruction repeats: while a multiply waits, its destination register is written in
every cycle. These writes are the only ones that the pipeline makes beyond those of the
program, so its stores are those of the program without exception.
-/

namespace HfRisc.Results

open HfRisc.Rtl HfRisc.Lib HfRisc.Isa HfRisc.Pipe

variable {n : ℕ}

/-- The writes of the rv32i pipeline are the writes of the program, executed one
instruction after another. -/
theorem rv32i_refines {s : System n Unit} {σ : Seq n} (hstart : Start contractRv32i s σ)
    (hrest : s.intc.Resting) {x : ℕ → Input}
    (hx : ∀ N, Undisturbed ((System.rawMachine rv32i).run s (Mealy.inputs x N)) (x N))
    (hok : ∀ k, (Isa.run false (ofSeq σ) k).Ok false)
    (heven : ∀ k, (Isa.run false (ofSeq σ) k).EvenTarget false) :
    (∀ N, ∃ k, (System.rawMachine rv32i).trace s (Mealy.inputs x N) =
      Isa.trace false (ofSeq σ) k) ∧
    (∀ k, ∃ N, ∃ k' ≥ k, (System.rawMachine rv32i).trace s (Mealy.inputs x N) =
      Isa.trace false (ofSeq σ) k') := by
  rw [← System.machine_rv32i] at hx ⊢
  have hgood : WellBehaved false (ofSeq σ) := ⟨hok, heven⟩
  refine ⟨fun N => ?_, refines_reaches implementsRv32i hstart hrest hgood hx⟩
  obtain ⟨k, -, -, htr⟩ := refines_run implementsRv32i hstart hrest hgood hx N
  exact ⟨k, htr⟩

/-! ## Loops that jump to themselves -/

/-- A loop with an even target. -/
theorem rv32i_refines_loop :
    (∀ N, ∃ k, (System.rawMachine rv32i).trace (boot rv32i () idleIntc (single jalrEven))
        (Mealy.inputs (fun _ => calmInput) N) = Isa.trace false (ofSeq (single jalrEven)) k) ∧
    (∀ k, ∃ N, ∃ k' ≥ k,
      (System.rawMachine rv32i).trace (boot rv32i () idleIntc (single jalrEven))
        (Mealy.inputs (fun _ => calmInput) N) = Isa.trace false (ofSeq (single jalrEven)) k') :=
  rv32i_refines (start_boot trivial settled_idleIntc _) ⟨rfl, by decide, by decide⟩
    (fun _ => undisturbed_calmInput _) (ok_jalrEven false) (even_jalrEven false)

/-- With an odd sum the pipeline links through an odd program counter: a write
that no execution of the program makes. -/
theorem rv32i_jalr_odd :
    Start contractRv32i (boot rv32i () idleIntc (single jalrOdd)) (single jalrOdd) ∧
    (boot rv32i () idleIntc (single jalrOdd)).intc.Resting ∧
    (∀ N, Undisturbed ((System.rawMachine rv32i).run (boot rv32i () idleIntc (single jalrOdd))
      (Mealy.inputs (fun _ => calmInput) N)) calmInput) ∧
    (∀ k, (Isa.run false (ofSeq (single jalrOdd)) k).Ok false) ∧
    ¬ ∃ k, (System.rawMachine rv32i).trace (boot rv32i () idleIntc (single jalrOdd))
      (Mealy.inputs (fun _ => calmInput) 6) = Isa.trace false (ofSeq (single jalrOdd)) k := by
  refine ⟨start_boot trivial settled_idleIntc _, ⟨rfl, by decide, by decide⟩,
    fun _ => undisturbed_calmInput _, ok_jalrOdd false, ?_⟩
  rintro ⟨k, hk⟩
  have htrace : (System.rawMachine rv32i).trace (boot rv32i () idleIntc (single jalrOdd))
      (Mealy.inputs (fun _ => calmInput) 6) = [.reg 1 0x40000004, .reg 1 0x40000005] := by
    decide +kernel
  have hmem : Commit.reg 1 0x40000005 ∈ Isa.trace false (ofSeq (single jalrOdd)) k := by
    rw [← hk, htrace]
    decide
  have heq := (inLoop_single jalrOdd).mem_trace (decode_jalrOdd false) (by decide) k _ hmem
  exact absurd heq (by decide)

end HfRisc.Results

/-! ## The rv32im pipeline executes RV32I with multiplies -/

namespace HfRisc.Results

open HfRisc.Rtl HfRisc.Lib HfRisc.Isa HfRisc.Pipe

variable {n : ℕ} {α : Type} {c : Core α} {L : Contract c} {s : System n α} {σ : Seq n}

/-- A store. -/
def isMem : Commit → Bool
  | .mem _ => true
  | .reg _ _ => false

/-- The stores among the effects. -/
def memWrites (es : List Commit) : List Commit := es.filter isMem

/-- An instruction that waits for the ALU does not own the memory port. -/
theorem mwait_of_aluWait {r : ℕ} (h : Tracks L r s σ) (hwait : s.core.aluWait c = true) :
    s.core.mwait = false := by
  have hno : ∀ {p : Prop}, s.core.aluWait c = false → p := fun hf => by
    rw [hwait] at hf
    cases hf
  cases h with
  | fetch h _ _ _ _ => exact hno h.aluWait
  | stray h _ => exact hno h.aluWait
  | access h => exact hno h.aluWait
  | decode h _ => exact hno h.aluWait
  | execute h =>
    rw [h.aluWait] at hwait
    obtain ⟨hread, hwrite, -, -, -⟩ := slow_shape L (σ.exclusive L) hwait
    rw [h.mwait, Execute.dataAccess, Seq.regToMem_eq_false.mpr hwrite,
      Seq.memToReg_eq_false.mpr hread]
    rfl
  | mul h _ => exact h.mwait
  | load h => exact hno h.aluWait
  | release h => exact hno h.aluWait
  | vector h _ _ => exact hno h.aluWait
  | ack h _ _ => exact hno h.aluWait

/-- Transient writes are register writes. -/
theorem memWrites_commits {r : ℕ} (h : Tracks L r s σ) (i : Input) :
    memWrites (s.commits c i) = memWrites (s.finals c i) := by
  rw [System.finals]
  split
  · rename_i htr
    rw [System.isTransient, Bool.and_eq_true] at htr
    rw [System.commits, System.commitsMem_nil (mwait_of_aluWait h htr.1), List.append_nil,
      System.commitsReg]
    split
    · rw [commitReg]
      split <;> rfl
    · rfl
  · rfl

/-- The pipeline stores what the program stores. -/
theorem memWrites_trace {x : ℕ → Input} (N : ℕ)
    (h : ∀ k < N, ∃ r σ', Tracks L r ((System.machine c).run s (Mealy.inputs x k)) σ') :
    memWrites ((System.rawMachine c).trace s (Mealy.inputs x N)) =
      memWrites ((System.machine c).trace s (Mealy.inputs x N)) := by
  induction N with
  | zero => rfl
  | succ N ih =>
    obtain ⟨r, σ', ht⟩ := h N N.lt_succ_self
    have hstep := memWrites_commits ht (x N)
    rw [Mealy.trace_inputs_succ, Mealy.trace_inputs_succ, memWrites, memWrites,
      List.filter_append, List.filter_append]
    exact congrArg₂ _ (ih fun k hk => h k (Nat.lt_succ_of_lt hk)) hstep

/-- The values that the instructions leave in their destination registers, the stores
among them in order, are those of the program, executed one instruction after another;
and the stores of the pipeline are those of the program. -/
theorem rv32im_refines {s : System n MulAlu} {σ : Seq n} (hstart : Start contractRv32im s σ)
    (hrest : s.intc.Resting) {x : ℕ → Input}
    (hx : ∀ N, Undisturbed ((System.machine rv32im).run s (Mealy.inputs x N)) (x N))
    (hok : ∀ k, (Isa.run true (ofSeq σ) k).Ok true)
    (heven : ∀ k, (Isa.run true (ofSeq σ) k).EvenTarget true) :
    (∀ N, ∃ k,
      (System.machine rv32im).trace s (Mealy.inputs x N) = Isa.trace true (ofSeq σ) k ∧
      memWrites ((System.rawMachine rv32im).trace s (Mealy.inputs x N)) =
        memWrites (Isa.trace true (ofSeq σ) k)) ∧
    (∀ k, ∃ N, ∃ k' ≥ k,
      (System.machine rv32im).trace s (Mealy.inputs x N) = Isa.trace true (ofSeq σ) k') := by
  have hgood : WellBehaved true (ofSeq σ) := ⟨hok, heven⟩
  refine ⟨fun N => ?_, refines_reaches implementsRv32im hstart hrest hgood hx⟩
  obtain ⟨k, -, -, htr⟩ := refines_run implementsRv32im hstart hrest hgood hx N
  refine ⟨k, htr, ?_⟩
  rw [← htr]
  refine memWrites_trace (L := contractRv32im) N fun j _ => ?_
  obtain ⟨_, r, href, -⟩ := refines_run implementsRv32im hstart hrest hgood hx j
  obtain ⟨σ', ht, -⟩ := href.tracks
  exact ⟨r, σ', ht⟩

/-! ## Loops that jump to themselves -/

/-- A core about to execute a loop. -/
def looping (w : Word) : System 14 MulAlu := boot rv32im MulAlu.idle idleIntc (single w)

theorem start_looping (w : Word) : Start contractRv32im (looping w) (single w) :=
  start_boot MulAlu.idle_idle settled_idleIntc _

/-- A loop with an even target. -/
theorem rv32im_refines_loop :
    (∀ N, ∃ k,
      (System.machine rv32im).trace (looping jalrEven) (Mealy.inputs (fun _ => calmInput) N) =
        Isa.trace true (ofSeq (single jalrEven)) k ∧
      memWrites ((System.rawMachine rv32im).trace (looping jalrEven)
          (Mealy.inputs (fun _ => calmInput) N)) =
        memWrites (Isa.trace true (ofSeq (single jalrEven)) k)) ∧
    (∀ k, ∃ N, ∃ k' ≥ k,
      (System.machine rv32im).trace (looping jalrEven) (Mealy.inputs (fun _ => calmInput) N) =
        Isa.trace true (ofSeq (single jalrEven)) k') :=
  rv32im_refines (start_looping _) ⟨rfl, by decide, by decide⟩
    (fun _ => undisturbed_calmInput _) (ok_jalrEven true) (even_jalrEven true)

/-- With an odd sum this pipeline links through an odd program counter, too. -/
theorem rv32im_jalr_odd :
    Start contractRv32im (looping jalrOdd) (single jalrOdd) ∧ (looping jalrOdd).intc.Resting ∧
    (∀ N, Undisturbed ((System.machine rv32im).run (looping jalrOdd)
      (Mealy.inputs (fun _ => calmInput) N)) calmInput) ∧
    (∀ k, (Isa.run true (ofSeq (single jalrOdd)) k).Ok true) ∧
    ¬ ∃ k, (System.machine rv32im).trace (looping jalrOdd)
      (Mealy.inputs (fun _ => calmInput) 6) = Isa.trace true (ofSeq (single jalrOdd)) k := by
  refine ⟨start_looping _, ⟨rfl, by decide, by decide⟩, fun _ => undisturbed_calmInput _,
    ok_jalrOdd true, ?_⟩
  rintro ⟨k, hk⟩
  have htrace : (System.machine rv32im).trace (looping jalrOdd)
      (Mealy.inputs (fun _ => calmInput) 6) = [.reg 1 0x40000004, .reg 1 0x40000005] := by
    decide +kernel
  have hmem : Commit.reg 1 0x40000005 ∈ Isa.trace true (ofSeq (single jalrOdd)) k := by
    rw [← hk, htrace]
    decide
  have heq := (inLoop_single jalrOdd).mem_trace (decode_jalrOdd true) (by decide) k _ hmem
  exact absurd heq (by decide)

end HfRisc.Results
