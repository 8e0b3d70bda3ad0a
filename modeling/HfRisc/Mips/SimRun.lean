import HfRisc.Mips.Delayed
import HfRisc.Mips.SimSpec

/-!
# Runs of the MIPS simulator

A cycle of the simulator on an instruction whose access is in RAM, from any state that nothing
interrupts. Only the address of a load or store is computed before `r[0]` is cleared, and from a
base of zero it never lies in RAM, so what an instruction leaves in `r[0]` has no effect.
-/

namespace HfRisc.Mips.Sim

open HfRisc.Sim (Base Size)
open HfRisc.Isa (Aligned)

variable {s t : State} {a : Delayed 18} {w ptr : Word} {i : Instr}

/-- `for (;;) cycle(s)`, for `k` rounds. -/
def run (s : State) : ℕ → Except Stop State
  | 0 => .ok s
  | k + 1 => do
    let t ← run s k
    t.cycle

/-! ## States that agree but for the cell of register 0 -/

section Congruence

variable {b c : Isa.State 18} (hget : b.get = c.get) (hpc : b.pc = c.pc) (hmem : b.mem = c.mem)
include hget hpc hmem

/-- The instruction set does not look at the cell. -/
theorem outcome_congr (i : Instr) : outcome b i = outcome c i := by
  have hbyte : b.byte = c.byte := by
    funext x
    rw [Isa.State.byte, Isa.State.byte, hmem]
  cases i <;> simp only [outcome, hget, hpc, hbyte]

theorem simOutcome_congr (i : Instr) : simOutcome b i = simOutcome c i := by
  cases i with
  | jr rs => simp only [simOutcome, hget]
  | jalr rd rs => simp only [simOutcome, hget, hpc]
  | branchLink op rs imm => simp only [simOutcome, hget, hpc]
  | _ =>
    simp only [simOutcome]
    exact outcome_congr hget hpc hmem _

end Congruence

/-- Nor does the address of an access. -/
theorem accessOk_congr {b c : Isa.State 18} (hget : b.get = c.get) :
    AccessOk b i ↔ AccessOk c i := by
  cases i <;> simp only [AccessOk, hget]

/-- Clearing the cell does not change what the registers read as. -/
theorem get_clear (s : State) : (s.setReg 0 0).toIsa.get = s.toIsa.get := by
  funext k
  rw [Isa.State.get, Isa.State.get]
  split_ifs with hk
  · rfl
  · exact if_neg hk

/-! ## The base register 0 -/

/-- The addresses a 16 bit offset reaches from zero are not in RAM. -/
theorem ramSel_offset (imm : BitVec 16) : ramSel (imm.signExtend 32) = false := by
  rw [ramSel, beq_eq_false_iff_ne]
  intro h
  have hcases := congrArg BitVec.toNat h
  rw [Lib.toNat_extract, BitVec.toNat_signExtend] at hcases
  have himm := imm.isLt
  split at hcases <;> simp at hcases <;> omega

theorem base_ne_zero {b : Isa.State 18} {rs : BitVec 5} {imm : BitVec 16}
    (h : ramSel (b.get rs + imm.signExtend 32) = true) : rs ≠ 0 := by
  rintro rfl
  have hzero : b.get 0 = 0 := rfl
  rw [hzero, zero_add, ramSel_offset] at h
  cases h

/-- Clearing the cell before the address is computed does not change what the switch selects. -/
theorem action_clear {b : Isa.State 18} (hdec : Decodes w i) (hacc : AccessOk b i) (u : State) :
    action u w (simm w + x s w) = action u w (simm w + x (s.setReg 0 0) w) := by
  have hbase : Mips.rs w ≠ 0 → x s w = x (s.setReg 0 0) w := by
    intro hrs
    rw [x, x, index_rs]
    exact (if_neg hrs).symm
  rw [action_of_decodes hdec, action_of_decodes hdec]
  -- only the rows of loads and stores have the address
  cases hdec with
  | load => rw [hbase (base_ne_zero hacc.1)]
  | store => rw [hbase (base_ne_zero hacc.1)]
  | _ => rfl

theorem head_clear (s : State) : (s.setReg 0 0).head = s.head := by
  have htwice : (s.setReg 0 0).setReg 0 0 = s.setReg 0 0 := by
    have hr := setReg_zero (s := s.setReg 0 0) rfl
    show ({ s.setReg 0 0 with toBase := { (s.setReg 0 0).toBase with r := _ } } : State) = _
    exact congrArg (fun r => ({ s.setReg 0 0 with
      toBase := { (s.setReg 0 0).toBase with r := r } } : State)) hr
  rw [State.head, htwice]
  rfl

/-! ## Runs that nothing interrupts -/

/-- No interrupt is enabled or about to be, and the next instruction is not skipped. -/
structure Quiet (s : State) : Prop where
  status : s.status = 0
  statusDly : ∀ k, s.statusDly k = 0
  noxBds : s.noxBds = false

theorem Quiet.not_pending (h : Quiet s) : ¬ s.pending := fun hp => hp.1 h.status

/-- The delay line hands on zeros. -/
theorem Quiet.head (h : Quiet s) : Quiet s.head where
  status := h.statusDly 0
  statusDly k := by
    show (if k = 3 then s.statusDly 3 else s.statusDly (k + 1)) = 0
    rw [h.statusDly, h.statusDly, ite_self]
  noxBds := h.noxBds

/-- What the switch does not touch. -/
structure Keeps (s t : State) : Prop where
  pc : t.pc = s.pc
  status : t.status = s.status
  statusDly : t.statusDly = s.statusDly
  noxBds : t.noxBds = s.noxBds

theorem Quiet.of_keeps (h : Quiet s) (hk : Keeps s t) : Quiet t where
  status := hk.status.trans h.status
  statusDly k := (congrFun hk.statusDly k).trans (h.statusDly k)
  noxBds := hk.noxBds.trans h.noxBds

theorem keeps_link (s : State) (link : Option (BitVec 5)) : Keeps s (s.link link) := by
  cases link <;> exact ⟨rfl, rfl, rfl, rfl⟩

theorem keeps_memRead {size : Size} {address : Word} {p : Word × State}
    (h : s.memRead size address = .ok p) : Keeps s p.2 := by
  have hgetchar : Keeps s { s with toBase := s.getchar.2 } := by
    rw [Base.getchar]
    split <;> exact ⟨rfl, rfl, rfl, rfl⟩
  rw [State.memRead] at h
  split at h
  · cases h
    exact hgetchar
  split at h
  · cases h
    exact ⟨rfl, rfl, rfl, rfl⟩
  split at h
  · cases h
    exact ⟨rfl, rfl, rfl, rfl⟩
  split at h
  · cases h
  · cases h
    exact ⟨rfl, rfl, rfl, rfl⟩

/-- The switch, when its stores go to RAM. -/
theorem keeps_perform {row : Action} (h : s.perform row = .ok t)
    (hst : ∀ size address v, row = .store size address v →
      ramSel address = true ∧ Aligned size.bytes address) : Keeps s t := by
  cases row with
  | write | hilo | clearWrite | invalid =>
    cases h
    exact ⟨rfl, rfl, rfl, rfl⟩
  | jump link =>
    cases h
    have hk := keeps_link s link
    exact ⟨hk.pc, hk.status, hk.statusDly, hk.noxBds⟩
  | branch link =>
    cases h
    have hk := keeps_link s link
    exact ⟨hk.pc, hk.status, hk.statusDly, hk.noxBds⟩
  | load type size k address =>
    cases hread : s.memRead size address with
    | error e =>
      simp only [State.perform, hread, bind, Except.bind] at h
      cases h
    | ok p =>
      simp only [State.perform, hread, bind, Except.bind] at h
      cases h
      have hk := keeps_memRead hread
      exact ⟨hk.pc, hk.status, hk.statusDly, hk.noxBds⟩
  | store size address v =>
    obtain ⟨hram, hal⟩ := hst _ _ _ rfl
    rw [State.perform, memWrite_of_ramSel hram hal, poke_hostBytes] at h
    cases h
    exact ⟨rfl, rfl, rfl, rfl⟩
  | undefined => cases h

theorem keeps_execute {opcode : Word} (h : s.execute opcode ptr = .ok t)
    (hst : ∀ size address v, action s opcode ptr = .store size address v →
      ramSel address = true ∧ Aligned size.bytes address) : Keeps s t := by
  cases hrow : s.perform (action s opcode ptr) with
  | error e =>
    simp only [State.execute, hrow, bind, Except.bind] at h
    cases h
  | ok u =>
    simp only [State.execute, hrow, bind, Except.bind] at h
    cases h
    have hk := keeps_perform hrow hst
    exact ⟨hk.pc, hk.status, hk.statusDly, hk.noxBds⟩

/-! ## One cycle -/

/-- The simulator is in a state of the instruction set: the same registers but for the cell of
register 0, the same program counters, and nothing that interrupts. -/
structure Mirrors (s : State) (a : Delayed 18) : Prop where
  get : s.toIsa.get = a.get
  pc : s.pc = a.pc
  pcNext : s.pcNext = a.pcNext
  mem : s.mem = a.mem
  quiet : Quiet s

theorem Mirrors.fetch (h : Mirrors s a) (hok : a.Ok) : s.memRead .word s.pc = .ok (a.fetch, s) := by
  have hword : Aligned Size.word.bytes s.pc := by
    rw [h.pc]
    exact hok.aligned
  have hram : ramSel s.pc = true := by
    rw [h.pc]
    exact hok.ram
  have hbyte : s.toIsa.byte = a.byte := by
    funext x
    rw [Isa.State.byte, Isa.State.byte]
    exact congrFun h.mem _
  have hcast : s.value .word (Base.offset s.pc) = loadValue s.toIsa.byte s.pc .lw :=
    cast_value s .lw s.pc
  rw [memRead_of_ramSel hram hword, hcast, hbyte, h.pc]
  rfl

theorem Mirrors.clear (h : Mirrors s a) : Mirrors (s.setReg 0 0) a :=
  ⟨(get_clear s).trans h.get, h.pc, h.pcNext, h.mem,
    ⟨h.quiet.status, h.quiet.statusDly, h.quiet.noxBds⟩⟩

theorem Mirrors.cycle_eq (h : Mirrors s a) (hok : a.Ok) :
    s.cycle = s.head.execute a.fetch (simm a.fetch + x s a.fetch) := by
  simp only [State.cycle, if_neg h.quiet.not_pending, h.fetch hok, bind, Except.bind,
    h.quiet.noxBds]
  rfl

/-- Clearing the cell early makes no difference to a cycle. -/
theorem Mirrors.cycle_clear (h : Mirrors s a) (hok : a.Ok) (hdec : decodeInstr a.fetch = some i)
    (hacc : AccessOk a.toState i) : s.cycle = (s.setReg 0 0).cycle := by
  rw [h.cycle_eq hok, h.clear.cycle_eq hok, head_clear, State.execute, State.execute,
    action_clear (decodes_of_decodeInstr hdec) hacc]

/-- The registers after an outcome are those that the cells hold. -/
theorem get_after {b : Isa.State 18} {r : BitVec 5 → Word} {o : Outcome} (hget : b.get = a.get)
    (hr : ∀ k, k ≠ 0 → r k = o.regs b.regs k) (k : BitVec 5) :
    (if k = 0 then 0 else r k) = (a.after o).get k := by
  rw [Isa.State.get]
  split_ifs with hk
  · rfl
  · have hregs : b.regs k = a.regs k := by
      have hgetk := congrFun hget k
      rwa [Isa.State.get, Isa.State.get, if_neg hk, if_neg hk] at hgetk
    rw [hr k hk]
    obtain ⟨write, target, bytes⟩ := o
    cases write with
    | none => exact hregs
    | some p =>
      show (if k = p.1 then p.2 else b.regs k) = if k = p.1 then p.2 else a.regs k
      rw [hregs]

/-- A cycle does what the simulator's switch says of the instruction, behind which the simulator is
in the state of the instruction set again. -/
theorem Mirrors.cycle (h : Mirrors s a) (hok : a.Ok) (hnext : Aligned 4 a.pcNext)
    (hslot : i.Transfers → a.pcNext = a.pc + 4) (hdec : decodeInstr a.fetch = some i)
    (hacc : AccessOk a.toState i) :
    ∃ t, s.cycle = .ok t ∧ Mirrors t (a.after (simOutcome a.toState i)) := by
  have hc := h.clear
  have hd := decodes_of_decodeInstr hdec
  have hacc' : AccessOk (s.setReg 0 0).toIsa i := (accessOk_congr hc.get).mpr hacc
  have hout : simOutcome (s.setReg 0 0).toIsa i = simOutcome a.toState i :=
    simOutcome_congr hc.get hc.pc hc.mem i
  obtain ⟨t, hcycle, ht⟩ := cycle_of_decodes rfl (hc.fetch hok) hc.quiet.not_pending hc.quiet.noxBds
    (by rw [hc.pc]; exact hok.aligned) (by rw [hc.pcNext]; exact hnext)
    (fun hi => by rw [hc.pcNext, hc.pc]; exact hslot hi) hd hacc'
  -- `Leaves` says nothing of the program counter and of what interrupts
  have hkeeps : Keeps (s.setReg 0 0).head t := by
    rw [hc.cycle_eq hok] at hcycle
    refine keeps_execute hcycle ?_
    rw [action_of_decodes hd]
    exact store_of_accessOk rfl hd hacc'
  rw [hout] at ht
  refine ⟨t, (h.cycle_clear hok hdec hacc).trans hcycle, ?_, ?_, ?_, ?_, ?_⟩
  · funext k
    refine get_after hc.get (fun k hk => ?_) k
    have hregs := ht.regs k hk
    rw [head_r rfl] at hregs
    exact hregs
  · exact hkeeps.pc.trans h.pcNext
  · have hahead : (s.setReg 0 0).head.pcNext = a.pcNext + 4 := congrArg (· + 4) h.pcNext
    rw [ht.pcNext, hahead]
    rfl
  · rw [ht.mem]
    exact congrArg (fun m => (simOutcome a.toState i).bytes.foldl Isa.State.poke m) h.mem
  · exact hc.quiet.head.of_keeps hkeeps

/-- What the simulator makes of the instruction. -/
theorem Mirrors.outcome (h : Mirrors s a) (hok : a.Ok) (hslot : i.Transfers → a.pcNext = a.pc + 4)
    (hdec : decodeInstr a.fetch = some i) (hacc : AccessOk a.toState i) :
    s.outcome = .ok (simOutcome a.toState i) := by
  have hc := h.clear
  have hclear : s.outcome = (s.setReg 0 0).outcome := by
    simp only [State.outcome, h.fetch hok, hc.fetch hok, bind, Except.bind]
    rw [head_clear, action_clear (decodes_of_decodeInstr hdec) hacc]
  rw [hclear, ← simOutcome_congr hc.get hc.pc hc.mem]
  exact outcome_of_decodes rfl (hc.fetch hok) (by rw [hc.pc]; exact hok.aligned)
    (fun hi => by rw [hc.pcNext, hc.pc]; exact hslot hi) (decodes_of_decodeInstr hdec)
    ((accessOk_congr hc.get).mpr hacc)

end HfRisc.Mips.Sim
