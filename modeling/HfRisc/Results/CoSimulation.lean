import HfRisc.Pipe.CoreIm
import HfRisc.Pipe.Refinement
import HfRisc.Results.CacheModel
import HfRisc.Results.Programs
import HfRisc.Results.SimRefinement

/-!
# The circuits and the simulators run the same programs alike

The registers and the memory that the pipeline's writes lead to are those of the simulator after
some number of turns, for every prefix of the run, and every number of turns is passed. The two have
different clocks and are nowhere in the same cycle: both are compared with the instruction set, the
pipeline through the trace of its writes, which is replayed, and the simulator through its state.
-/

namespace HfRisc.Results

open HfRisc.Rtl HfRisc.Sim HfRisc.Lib HfRisc.Pipe
open HfRisc.Isa (Instr decode ofSeq memOf)

/-! ## Replaying a trace -/

section Replay

variable {n : ℕ} {m : Bool} {a b : Isa.State n}

/-- One write. -/
def applyCommit (a : Isa.State n) : Commit → Isa.State n
  | .reg rd v => { a with regs := fun r => if r = rd then v else a.regs r }
  | .mem bytes => { a with mem := bytes.foldl Isa.State.poke a.mem }

/-- The registers and the memory after a list of writes. -/
def replay (a : Isa.State n) (es : List Commit) : Isa.State n := es.foldl applyCommit a

/-- The same registers and memory, at any program counter. -/
structure SameContents (a b : Isa.State n) : Prop where
  regs : a.regs = b.regs
  mem : a.mem = b.mem

theorem SameContents.applyCommit (h : SameContents a b) (e : Commit) :
    SameContents (applyCommit a e) (applyCommit b e) := by
  cases e with
  | reg rd v =>
    refine ⟨?_, h.mem⟩
    show (fun r => if r = rd then v else a.regs r) = fun r => if r = rd then v else b.regs r
    rw [h.regs]
  | mem bytes => exact ⟨h.regs, congrArg (fun f => bytes.foldl Isa.State.poke f) h.mem⟩

theorem SameContents.replay (h : SameContents a b) (es : List Commit) :
    SameContents (replay a es) (replay b es) := by
  induction es generalizing a b with
  | nil => exact h
  | cons e es ih => exact ih (h.applyCommit e)

/-- The effects of an instruction are all that it does but to go on. -/
theorem replay_commits (a : Isa.State n) (o : Isa.Outcome) :
    SameContents (replay a o.commits) (a.apply o) := by
  obtain ⟨write, pc, bytes⟩ := o
  have hbytes : ∀ c : Isa.State n, SameContents
      (replay c (if bytes = [] then [] else [.mem bytes]))
      { c with mem := bytes.foldl Isa.State.poke c.mem } := by
    intro c
    split_ifs with hnil
    · rw [hnil]
      exact ⟨rfl, rfl⟩
    · exact ⟨rfl, rfl⟩
  cases write with
  | none => exact ⟨(hbytes a).regs, (hbytes a).mem⟩
  | some p =>
    obtain ⟨rd, v⟩ := p
    rw [Isa.Outcome.commits, replay, List.foldl_append]
    by_cases hrd : rd = 0
    · subst hrd
      refine ⟨(hbytes a).regs.trans ?_, (hbytes a).mem⟩
      funext r
      show a.regs r = if (0 : BitVec 5) ≠ 0 ∧ r = 0 then v else a.regs r
      rw [if_neg fun hc => hc.1 rfl]
    · have hreg : commitReg rd v = [.reg rd v] := if_pos hrd
      have hone := hbytes (Results.applyCommit a (.reg rd v))
      simp only [hreg]
      refine ⟨hone.regs.trans ?_, hone.mem⟩
      funext r
      simp only [Results.applyCommit, Isa.State.apply, ne_eq, hrd, not_false_eq_true, true_and]

/-- Replaying the effects of a run leads to its registers and memory. -/
theorem replay_trace (h : SameContents a b) (k : ℕ) :
    SameContents (replay a (Isa.trace m b k)) (Isa.run m b k) := by
  induction k generalizing a b with
  | zero => exact h
  | succ k ih =>
    have hstep : SameContents (replay a (b.effects m)) (b.step m) := by
      cases hdec : decode m b.fetch with
      | none =>
        rw [Isa.State.effects, Isa.State.step, hdec]
        exact h
      | some i =>
        rw [Isa.State.effects_of_decode hdec, Isa.State.step_of_decode hdec]
        have hsame := h.replay (b.outcome i).commits
        have hcommits := replay_commits b (b.outcome i)
        exact ⟨hsame.regs.trans hcommits.regs, hsame.mem.trans hcommits.mem⟩
    have hsplit : Isa.trace m b (k + 1) = b.effects m ++ Isa.trace m (b.step m) k := rfl
    rw [hsplit, replay, List.foldl_append]
    exact ih hstep

end Replay

/-! ## The circuits and the plain simulator -/

/-- The simulator holds the registers and the memory of `a`. -/
structure HoldsContents (t : Sim.State) (a : Isa.State 18) : Prop where
  get : t.toIsa.get = a.get
  mem : t.mem = a.mem

theorem Mirrors.holds {t : Sim.State} {a b : Isa.State 18} (h : Mirrors t a)
    (hsame : SameContents b a) : HoldsContents t b := by
  refine ⟨?_, h.mem.trans hsame.mem.symm⟩
  rw [h.get]
  funext k
  rw [Isa.State.get, Isa.State.get, hsame.regs]

/-- A turn of the simulator for every instruction of a trace. -/
theorem holds_of_trace {m : Bool} {u : Sim.State} {a : Isa.State 18} (hu : Mirrors u a)
    (hok : ∀ k, (Isa.run m a k).Ok m) (hperf : ∀ k, Performed m (Isa.run m a k)) (k : ℕ) :
    ∃ t, run u k = .ok t ∧ HoldsContents t (replay a (Isa.trace m a k)) := by
  obtain ⟨t, hrun, ht⟩ := (sim_refines hu hok).mpr hperf k
  exact ⟨t, hrun, ht.holds (replay_trace ⟨rfl, rfl⟩ k)⟩

section Cores

variable {α : Type} {c : Core α} {L : Contract c} {m : Bool}

/-- Both machines are at the same place of the same trace. -/
theorem cosimulates (hI : Isa.Implements L m) {s : System 18 α} {σ : Seq 18} {u : Sim.State}
    (hstart : Start L s σ) (hrest : s.intc.Resting) (hu : Mirrors u (ofSeq σ)) {x : ℕ → Input}
    (hx : ∀ N, Undisturbed ((System.machine c).run s (Mealy.inputs x N)) (x N))
    (hgood : WellBehaved m (ofSeq σ)) (hperf : ∀ k, Performed m (Isa.run m (ofSeq σ) k)) :
    (∀ N, ∃ k t, run u k = .ok t ∧
      HoldsContents t (replay (ofSeq σ) ((System.machine c).trace s (Mealy.inputs x N)))) ∧
    (∀ k, ∃ N, ∃ k' ≥ k, ∃ t, run u k' = .ok t ∧
      HoldsContents t (replay (ofSeq σ) ((System.machine c).trace s (Mealy.inputs x N)))) := by
  constructor
  · intro N
    obtain ⟨k, -, -, htr⟩ := refines_run hI hstart hrest hgood hx N
    obtain ⟨t, hrun, ht⟩ := holds_of_trace hu hgood.ok hperf k
    exact ⟨k, t, hrun, htr ▸ ht⟩
  · intro k
    obtain ⟨N, k', hk', htr⟩ := refines_reaches hI hstart hrest hgood hx k
    obtain ⟨t, hrun, ht⟩ := holds_of_trace hu hgood.ok hperf k'
    exact ⟨N, k', hk', t, hrun, htr ▸ ht⟩

end Cores

/-- What the writes of the rv32i pipeline lead to is what the simulator holds: after every number of
cycles there is a number of turns after which it does, and every number of turns is passed. -/
theorem rv32i_cosimulates {s : System 18 Unit} {σ : Seq 18} {u : Sim.State}
    (hstart : Start contractRv32i s σ) (hrest : s.intc.Resting) (hu : Mirrors u (ofSeq σ))
    {x : ℕ → Input}
    (hx : ∀ N, Undisturbed ((System.rawMachine rv32i).run s (Mealy.inputs x N)) (x N))
    (hok : ∀ k, (Isa.run false (ofSeq σ) k).Ok false)
    (heven : ∀ k, (Isa.run false (ofSeq σ) k).EvenTarget false)
    (hperf : ∀ k, Performed false (Isa.run false (ofSeq σ) k)) :
    (∀ N, ∃ k t, run u k = .ok t ∧
      HoldsContents t
        (replay (ofSeq σ) ((System.rawMachine rv32i).trace s (Mealy.inputs x N)))) ∧
    (∀ k, ∃ N, ∃ k' ≥ k, ∃ t, run u k' = .ok t ∧
      HoldsContents t
        (replay (ofSeq σ) ((System.rawMachine rv32i).trace s (Mealy.inputs x N)))) := by
  rw [← System.machine_rv32i] at hx ⊢
  exact cosimulates implementsRv32i hstart hrest hu hx ⟨hok, heven⟩ hperf

/-- The pipeline and the simulator link the same address for ever. -/
theorem rv32i_cosimulates_spin :
    (∀ N, ∃ k t, run (simOf spin) k = .ok t ∧
      HoldsContents t (replay (ofSeq spin) ((System.rawMachine rv32i).trace
        (boot rv32i () idleIntc spin) (Mealy.inputs (fun _ => calmInput) N)))) ∧
    (∀ k, ∃ N, ∃ k' ≥ k, ∃ t, run (simOf spin) k' = .ok t ∧
      HoldsContents t (replay (ofSeq spin) ((System.rawMachine rv32i).trace
        (boot rv32i () idleIntc spin) (Mealy.inputs (fun _ => calmInput) N)))) :=
  rv32i_cosimulates (start_boot trivial settled_idleIntc _) ⟨rfl, by decide, by decide⟩
    (mirrors_simOf _) (fun _ => undisturbed_calmInput _) (fun k => (spinning_run false k).ok)
    (fun k => (spinning_run false k).even) (fun k => (spinning_run false k).performed)

/-! ## The core with multiplies -/

/-- The same for the rv32im pipeline on programs with multiplies, with the writes that instructions
end with: the simulator multiplies in one turn. -/
theorem rv32im_cosimulates {s : System 18 MulAlu} {σ : Seq 18} {u : Sim.State}
    (hstart : Start contractRv32im s σ) (hrest : s.intc.Resting) (hu : Mirrors u (ofSeq σ))
    {x : ℕ → Input}
    (hx : ∀ N, Undisturbed ((System.machine rv32im).run s (Mealy.inputs x N)) (x N))
    (hok : ∀ k, (Isa.run true (ofSeq σ) k).Ok true)
    (heven : ∀ k, (Isa.run true (ofSeq σ) k).EvenTarget true)
    (hperf : ∀ k, Performed true (Isa.run true (ofSeq σ) k)) :
    (∀ N, ∃ k t, run u k = .ok t ∧
      HoldsContents t (replay (ofSeq σ) ((System.machine rv32im).trace s (Mealy.inputs x N)))) ∧
    (∀ k, ∃ N, ∃ k' ≥ k, ∃ t, run u k' = .ok t ∧
      HoldsContents t (replay (ofSeq σ) ((System.machine rv32im).trace s (Mealy.inputs x N)))) :=
  cosimulates implementsRv32im hstart hrest hu hx ⟨hok, heven⟩ hperf

/-- A loop that squares `x1`: `mul x1, x1, x1`, `jal x0, -4`. -/
def squares : Seq 18 where
  regs := fun r => if r = 1 then 3 else 0
  pc := 0x40000000
  ram := fun k => if k = 0 then swapBytes 0x021080b3 else if k = 1 then swapBytes 0xffdff06f else 0

/-- The loop is at one of its two instructions. -/
structure Squaring (a : Isa.State 18) : Prop where
  pc : a.pc = 0x40000000 ∨ a.pc = 0x40000004
  mem : a.mem = (ofSeq squares).mem

namespace Squaring

variable {a : Isa.State 18} (h : Squaring a)
include h

theorem decode_fetch :
    a.pc = 0x40000000 ∧ decode true a.fetch = some (.mul .mul 1 1 1) ∨
      a.pc = 0x40000004 ∧ decode true a.fetch = some (.jal 0 0xfffffffc) := by
  refine h.pc.imp (fun hpc => ⟨hpc, ?_⟩) fun hpc => ⟨hpc, ?_⟩
  · rw [fetch_congr (b := ofSeq squares) hpc h.mem]
    decide +kernel
  · rw [fetch_congr (b := { ofSeq squares with pc := 0x40000004 }) hpc h.mem]
    decide +kernel

theorem step : Squaring (a.step true) := by
  have hmem : ∀ i, (a.outcome i).bytes = [] → (a.apply (a.outcome i)).mem = a.mem := by
    intro i hbytes
    rw [Isa.State.apply, hbytes]
    rfl
  rcases h.decode_fetch with ⟨hpc, hdec⟩ | ⟨hpc, hdec⟩ <;> rw [Isa.State.step_of_decode hdec]
  · have hnext : (a.apply (a.outcome (.mul .mul 1 1 1))).pc = 0x40000004 := by
      show a.pc + 4 = 0x40000004
      rw [hpc]
      decide
    exact ⟨.inr hnext, (hmem _ rfl).trans h.mem⟩
  · have hback : (a.apply (a.outcome (.jal 0 0xfffffffc))).pc = 0x40000000 := by
      show a.pc + 0xfffffffc = 0x40000000
      rw [hpc]
      decide
    exact ⟨.inl hback, (hmem _ rfl).trans h.mem⟩

theorem ok : a.Ok true where
  ram := by rcases h.pc with hpc | hpc <;> rw [hpc] <;> decide
  aligned := by rcases h.pc with hpc | hpc <;> rw [hpc] <;> decide
  legal := by
    rcases h.decode_fetch with ⟨hpc, hdec⟩ | ⟨hpc, hdec⟩ <;> refine ⟨_, hdec, trivial, ?_⟩
    · show Isa.Aligned 4 (a.pc + 4)
      rw [hpc]
      decide
    · show Isa.Aligned 4 (a.pc + 0xfffffffc)
      rw [hpc]
      decide

theorem even : a.EvenTarget true := by
  intro rd rs1 imm hj
  rcases h.decode_fetch with ⟨-, hdec⟩ | ⟨-, hdec⟩ <;> rw [hdec] at hj <;> cases hj

theorem performed : Performed true a where
  fence hj := by rcases h.decode_fetch with ⟨-, hdec⟩ | ⟨-, hdec⟩ <;> rw [hdec] at hj <;> cases hj
  link rd imm hj := by
    rcases h.decode_fetch with ⟨-, hdec⟩ | ⟨-, hdec⟩ <;> rw [hdec] at hj <;> cases hj

end Squaring

theorem squaring_run (k : ℕ) : Squaring (Isa.run true (ofSeq squares) k) :=
  Isa.run_invariant (fun _ h => Squaring.step h) ⟨.inl rfl, rfl⟩ k

/-- A multiply takes the pipeline several cycles and the simulator one turn. -/
theorem rv32im_cosimulates_squares :
    (∀ N, ∃ k t, run (simOf squares) k = .ok t ∧
      HoldsContents t (replay (ofSeq squares) ((System.machine rv32im).trace
        (boot rv32im MulAlu.idle idleIntc squares) (Mealy.inputs (fun _ => calmInput) N)))) ∧
    (∀ k, ∃ N, ∃ k' ≥ k, ∃ t, run (simOf squares) k' = .ok t ∧
      HoldsContents t (replay (ofSeq squares) ((System.machine rv32im).trace
        (boot rv32im MulAlu.idle idleIntc squares) (Mealy.inputs (fun _ => calmInput) N)))) :=
  rv32im_cosimulates (start_boot MulAlu.idle_idle settled_idleIntc _) ⟨rfl, by decide, by decide⟩
    (mirrors_simOf _) (fun _ => undisturbed_calmInput _) (fun k => (squaring_run k).ok)
    (fun k => (squaring_run k).even) (fun k => (squaring_run k).performed)

/-! ## The simulator with caches -/

/-- RAM is plain memory. -/
theorem plain_of_ramSel {a : Word} (h : ramSel a = true) : Plain a := by
  have hlt := lt_of_ramSel h
  constructor <;> intro hmem
  · simp only [gpioRegisters, List.mem_cons, List.not_mem_nil, or_false] at hmem
    rcases hmem with rfl | rfl | rfl | rfl | rfl | rfl | rfl | rfl <;>
      exact absurd hlt (by decide)
  · simp only [timedRegisters, List.mem_cons, List.not_mem_nil, or_false] at hmem
    rcases hmem with rfl | rfl | rfl | rfl | rfl | rfl | rfl | rfl | rfl | rfl <;>
      exact absurd hlt (by decide)

/-- An instruction with an access in RAM does not look at the time. -/
theorem Mirrors.untimed {m : Bool} {s : Sim.State} {a : Isa.State 18} (h : Mirrors s a)
    (hok : a.Ok m) : s.toBase.Untimed where
  masked := .inl h.quiet.status
  action w hw := by
    obtain ⟨i, hdec, hacc, -⟩ := hok.legal
    obtain rfl : w = a.fetch := Except.ok.inj (hw.symm.trans (h.fetch hok.aligned))
    rw [action_clear (s := s) hdec hacc, action_of_decode hdec, operands_eq rfl,
      get_setReg_zero, h.get]
    rcases Isa.decode_cases hdec with ⟨-, rfl⟩ | ⟨-, rfl⟩ | ⟨-, rfl⟩ | ⟨-, rfl⟩ | ⟨-, op, -, rfl⟩ |
      ⟨-, op, -, rfl⟩ | ⟨-, op, -, rfl⟩ | ⟨-, op, -, rfl⟩ | ⟨-, op, -, rfl⟩ | ⟨-, -, op, -, rfl⟩ |
      ⟨-, rfl⟩
    case inr.inr.inr.inr.inr.inl => exact plain_of_ramSel hacc.1
    case inr.inr.inr.inr.inr.inr.inl => exact plain_of_ramSel hacc.1
    all_goals trivial

/-- For every configuration of the caches and every start, on such a program: the simulator with
caches never stops and has the registers, program counter and memory of the instruction set after
every number of cycles. -/
theorem cache_refines {m : Bool} (cfg : Config) (unified : Bool) (r : BitVec 5 → Word) (pc : Word)
    (mem : BitVec 20 → BitVec 8) (stdin : List (BitVec 8)) (log : Bool)
    (hok : ∀ k, (Isa.run m ⟨r, pc, mem⟩ k).Ok m)
    (hperf : ∀ k, Performed m (Isa.run m ⟨r, pc, mem⟩ k)) (k : ℕ) :
    ∃ c, runCache (.start cfg unified (.start r pc (pc + 4) mem stdin log)) k = .ok c ∧
      c.toBase.toIsa.get = (Isa.run m ⟨r, pc, mem⟩ k).get ∧
      c.pc = (Isa.run m ⟨r, pc, mem⟩ k).pc ∧ c.mem = (Isa.run m ⟨r, pc, mem⟩ k).mem := by
  have hstart : Mirrors (.start (.start r pc (pc + 4) mem stdin log)) ⟨r, pc, mem⟩ :=
    ⟨rfl, rfl, rfl, rfl, ⟨rfl, fun _ => rfl, rfl⟩⟩
  have hrun := (sim_refines hstart hok).mpr hperf
  have hsame := cache_lockstep cfg unified r pc (pc + 4) mem stdin log k fun j _ s hs => by
    obtain ⟨t, hj, ht⟩ := hrun j
    obtain rfl : s = t := Except.ok.inj (hs.symm.trans hj)
    exact ht.untimed (hok j)
  obtain ⟨t, hk, ht⟩ := hrun k
  rw [hk] at hsame
  cases hc : runCache (.start cfg unified (.start r pc (pc + 4) mem stdin log)) k with
  | error e =>
    rw [hc] at hsame
    exact hsame.elim
  | ok c =>
    rw [hc] at hsame
    obtain ⟨hr, hpc, -, hmem⟩ := hsame
    refine ⟨c, rfl, ?_, hpc.trans ht.pc, hmem.trans ht.mem⟩
    rw [← ht.get]
    funext j
    rw [Isa.State.get, Isa.State.get]
    exact congrArg (fun f : BitVec 5 → Word => if j = 0 then 0 else f j) hr

/-- The squares are the same with unified write-back caches of one line. -/
theorem cache_refines_squares :
    ∃ c, runCache (.start (oneLine .wb) true
        (.start squares.regs 0x40000000 (0x40000000 + 4) (memOf squares.ram) [] false)) 1000 =
      .ok c ∧
      c.toBase.toIsa.get = (Isa.run true (ofSeq squares) 1000).get ∧
      c.pc = (Isa.run true (ofSeq squares) 1000).pc ∧
      c.mem = (Isa.run true (ofSeq squares) 1000).mem :=
  cache_refines (oneLine .wb) true squares.regs 0x40000000 (memOf squares.ram) [] false
    (fun k => (squaring_run k).ok) (fun k => (squaring_run k).performed) 1000

end HfRisc.Results
