import HfRisc.Isa.Memory
import HfRisc.Mips.SimRows
import HfRisc.Sim.Spec

/-!
# What a cycle of the MIPS simulator does

`State.outcome` reads off the switch what an instruction writes, stores and where it
goes, and `cycle_of_outcome` shows that this is what becomes of the state.
`simOutcome` is the outcome of the instruction set but for three rows: `JR` and
`JALR` clear the low bits of their target, and `JALR`, `BLTZAL` and `BGEZAL` read
their register after the link is in place.
-/

namespace HfRisc.Mips.Sim

open HfRisc.Lib
open HfRisc.Sim (Base Size CType index truth typeOf loadSize storeSize offset_add lt_of_ramSel
  unaligned_of_aligned ne_of_lt_exit EXIT_TRAP)
open HfRisc.Isa (LoadOp StoreOp Aligned)

/-! ## Outcomes -/

/-- The bytes that the host stores, its lowest first. -/
def hostBytes (size : Size) (a v : Word) : List (Word × BitVec 8) :=
  match size with
  | .byte => [(a, v.extractLsb' 0 8)]
  | .half => [(a, v.extractLsb' 0 8), (a + 1, v.extractLsb' 8 8)]
  | .word => [(a, v.extractLsb' 0 8), (a + 1, v.extractLsb' 8 8), (a + 2, v.extractLsb' 16 8),
      (a + 3, v.extractLsb' 24 8)]

/-- What a row does in the state in which the switch is entered: the register that it
assigns and the value, what `pc_next` becomes when it is assigned, and the bytes that
are stored. -/
def Action.outcome (s : State) (opcode : Word) : Action → Except Stop Outcome
  | .write k v => .ok ⟨written k v, none, []⟩
  | .hilo _ _ => .ok ⟨none, none, []⟩
  | .clearWrite k v => .ok ⟨written k v, none, []⟩
  | .jump link target =>
    .ok ⟨link.bind fun k => written k s.pcNext, some (target &&& ~~~3#32), []⟩
  | .branch link taken =>
    .ok ⟨link.bind fun k => written k s.pcNext,
      if taken then some ((s.pcNext + immShift opcode) &&& ~~~3#32) else none, []⟩
  | .load type size k a => do
    let (value, _) ← s.memRead size a
    .ok ⟨written k (type.cast value), none, []⟩
  | .store size a v => .ok ⟨none, none, hostBytes size a (State.hostOrder size v)⟩
  | .invalid => .ok ⟨none, none, []⟩
  | .undefined => .error .undefined

/-- What the instruction at the program counter does. -/
def State.outcome (s : State) : Except Stop Outcome := do
  let (opcode, s') ← s.memRead .word s.pc
  (action s'.head opcode (simm opcode + x s' opcode)).outcome s'.head opcode

/-- The state of the instruction set. -/
def State.toIsa (s : State) : Isa.State 18 := s.toBase.toIsa

/-- What the simulator does. -/
def simOutcome (a : Isa.State 18) : Instr → Outcome
  | .jr rs => ⟨none, some (a.get rs &&& ~~~3#32), []⟩
  | .jalr rd rs =>
    ⟨written rd (a.pc + 8), some ((if rs = rd then a.pc + 8 else a.get rs) &&& ~~~3#32), []⟩
  | .branchLink op rs imm =>
    ⟨written 31 (a.pc + 8),
      if op.holds (if rs = 31 then a.pc + 8 else a.get rs) then some (branchTarget a.pc imm)
      else none, []⟩
  | i => outcome a i

/-! ## Memory -/

section Memory

variable {s : State} {a : Word}

theorem memRead_of_ramSel {size : Size} (h : ramSel a = true) (hal : Aligned size.bytes a) :
    s.memRead size a = .ok (s.value size (Base.offset a), s) := by
  have hlt := lt_of_ramSel h
  rw [State.memRead, if_neg (ne_of_lt_exit hlt (by decide)), s.toBase.register_of_lt hlt]
  simp only [BitVec.not_le.mpr hlt, if_false, unaligned_of_aligned hal, ne_eq,
    not_true_eq_false]

theorem memWrite_of_ramSel {size : Size} (h : ramSel a = true) (hal : Aligned size.bytes a)
    (v : Word) : s.memWrite size a v =
      .ok { s with toBase := s.poke size (Base.offset a) (State.hostOrder size v) } := by
  have hlt := lt_of_ramSel h
  rw [State.memWrite, if_neg (ne_of_lt_exit hlt (by decide)), s.toBase.setRegister_of_lt hlt]
  simp only [BitVec.not_le.mpr hlt, if_false, unaligned_of_aligned hal, ne_eq,
    not_true_eq_false]

/-- Sixteen bits in the other order. -/
theorem ntohs_setWidth (v : BitVec 16) :
    ntohs (v.setWidth 32) = (v.extractLsb' 0 8 ++ v.extractLsb' 8 8).setWidth 32 := by
  apply BitVec.eq_of_getLsbD_eq
  intro i hi
  simp only [ntohs, BitVec.getLsbD_setWidth, BitVec.getLsbD_append, BitVec.getLsbD_or]
  interval_cases i <;> simp

/-- The half word that is stored. -/
theorem ntohs_low (v : Word) :
    ntohs (v &&& 0xffff) = 0#8 ++ 0#8 ++ v.extractLsb' 0 8 ++ v.extractLsb' 8 8 := by
  apply BitVec.eq_of_getLsbD_eq
  intro i hi
  simp only [ntohs, BitVec.getLsbD_append, BitVec.getLsbD_or]
  interval_cases i <;> simp

/-- Four bytes in the other order. -/
theorem ntohl_eq (v : Word) : ntohl v = Rtl.swapBytes v := by
  apply BitVec.eq_of_getLsbD_eq
  intro i hi
  simp only [ntohl, Rtl.swapBytes, BitVec.getLsbD_append, BitVec.getLsbD_or]
  interval_cases i <;> simp

theorem byte_add (s : State) (a k : Word) :
    s.toIsa.byte (a + k) = s.mem (Base.offset a + Base.offset k) := by
  rw [← offset_add]
  rfl

/-- Widening and cutting off again. -/
theorem setWidth_setWidth_self {k : ℕ} (h : k ≤ 32) (v : BitVec k) :
    (v.setWidth 32).setWidth k = v := by
  rw [BitVec.setWidth_setWidth_of_le _ h, BitVec.setWidth_eq]

/-- What a load reads is the value of the instruction set. -/
theorem cast_value (s : State) (op : LoadOp) (a : Word) :
    (typeOf op).cast (s.value (loadSize op) (Base.offset a)) = loadValue s.toIsa.byte a op := by
  have hhalf : s.value .half (Base.offset a) =
      (s.toIsa.byte a ++ s.toIsa.byte (a + 1)).setWidth 32 := by
    show ntohs ((_ ++ _ : BitVec 16).setWidth 32) = _
    rw [ntohs_setWidth, BitVec.extractLsb'_append_eq_right, BitVec.extractLsb'_append_eq_left,
      byte_add]
    rfl
  cases op with
  | lb =>
    show ((BitVec.setWidth 32 _).setWidth 8).signExtend 32 = _
    rw [setWidth_setWidth_self (by decide)]
    rfl
  | lbu =>
    show ((BitVec.setWidth 32 (s.mem _)).setWidth 8).setWidth 32 = _
    rw [setWidth_setWidth_self (by decide) (s.mem _)]
    rfl
  | lh =>
    show ((s.value .half _).setWidth 16).signExtend 32 = _
    rw [hhalf, setWidth_setWidth_self (by decide)]
    rfl
  | lhu =>
    show ((s.value .half _).setWidth 16).setWidth 32 = _
    rw [hhalf, setWidth_setWidth_self (by decide) (_ ++ _)]
    rfl
  | lw =>
    show ntohl _ = _
    rw [ntohl_eq, Rtl.swapBytes, byte0, byte1, byte2, byte3, loadValue, byte_add, byte_add,
      byte_add]
    rfl

/-- What a store hands to the host are the bytes of the instruction set. -/
theorem hostBytes_eq (op : StoreOp) (a v : Word) :
    hostBytes (storeSize op) a (State.hostOrder (storeSize op) v) = storeBytes a v op := by
  cases op with
  | sb => rfl
  | sh =>
    show hostBytes .half a (ntohs (v &&& 0xffff)) = _
    rw [ntohs_low, hostBytes, byte0, byte1]
    rfl
  | sw =>
    show hostBytes .word a (ntohl v) = _
    rw [ntohl_eq, hostBytes, Rtl.swapBytes, byte0, byte1, byte2, byte3]
    rfl

/-- A store writes its bytes and nothing else. -/
theorem poke_hostBytes (s : State) (size : Size) (a v : Word) :
    s.poke size (Base.offset a) v =
      { s.toBase with mem := (hostBytes size a v).foldl Isa.State.poke s.mem } := by
  have h : ∀ op, storeSize op = size → s.poke size (Base.offset a) v =
      { s.toBase with mem := (hostBytes size a v).foldl Isa.State.poke s.mem } := by
    rintro op rfl
    rw [HfRisc.Sim.poke_eq, HfRisc.Sim.mem_poke]
    cases op <;> rfl
  cases size with
  | byte => exact h .sb rfl
  | half => exact h .sh rfl
  | word => exact h .sw rfl

end Memory

/-! ## From the outcome to the state -/

section Cycle

variable {s t : State}

/-- What is seen of a state after an outcome: the registers but `r[0]`, the word behind
the next one, and the memory. -/
structure Leaves (t : State) (o : Outcome) (s' : State) : Prop where
  regs : ∀ k, k ≠ 0 → s'.r k = o.regs t.r k
  pcNext : s'.pcNext = o.target.getD t.pcNext
  mem : s'.mem = o.bytes.foldl Isa.State.poke t.mem

/-- A register other than `r[0]` after a write. -/
theorem setReg_r {j k : BitVec 5} (hk : k ≠ 0) (v : Word) (target : Option Word)
    (bytes : List (Word × BitVec 8)) :
    (t.setReg j v).r k = Outcome.regs ⟨written j v, target, bytes⟩ t.r k := by
  show (if k = j then v else t.r k) = _
  rw [Outcome.regs, written]
  by_cases hj : j = 0
  · rw [if_pos hj, hj, if_neg hk]
  · rw [if_neg hj]

theorem link_r {k : BitVec 5} (hk : k ≠ 0) (link : Option (BitVec 5)) (target : Option Word)
    (bytes : List (Word × BitVec 8)) :
    (t.link link).r k =
      Outcome.regs ⟨link.bind fun j => written j t.pcNext, target, bytes⟩ t.r k := by
  cases link with
  | none => rfl
  | some j => exact setReg_r hk _ _ _

theorem link_mem (link : Option (BitVec 5)) : (t.link link).mem = t.mem := by
  cases link <;> rfl

theorem link_pcNext (link : Option (BitVec 5)) : (t.link link).pcNext = t.pcNext := by
  cases link <;> rfl

/-- Reading changes none of them. -/
theorem memRead_frame {size : Size} {a v : Word} {t' : State}
    (h : t.memRead size a = .ok (v, t')) :
    t'.r = t.r ∧ t'.pcNext = t.pcNext ∧ t'.mem = t.mem := by
  rw [State.memRead] at h
  split at h
  · cases h
    rw [Base.getchar]
    split <;> exact ⟨rfl, rfl, rfl⟩
  · split at h
    · cases h
      exact ⟨rfl, rfl, rfl⟩
    · split at h
      · cases h
        exact ⟨rfl, rfl, rfl⟩
      · split at h
        · cases h
        · cases h
          exact ⟨rfl, rfl, rfl⟩

/-- The switch leaves its outcome, when its stores go to RAM. -/
theorem execute_of_outcome {opcode ptr : Word} {o : Outcome} (hnext : Aligned 4 t.pcNext)
    (ho : (action t opcode ptr).outcome t opcode = .ok o)
    (hst : ∀ size a v, action t opcode ptr = .store size a v →
      ramSel a = true ∧ Aligned size.bytes a) :
    ∃ s', t.execute opcode ptr = .ok s' ∧ Leaves t o s' := by
  have hkeep : (t.pcNext + 0) &&& ~~~3#32 = t.pcNext := by
    rw [add_zero]
    exact Isa.base_eq_iff.mpr hnext
  rw [State.execute]
  generalize action t opcode ptr = a at ho hst ⊢
  cases a with
  | write k v =>
    cases ho
    exact ⟨_, rfl, fun j hj => setReg_r hj _ _ _, hkeep, rfl⟩
  | hilo hi lo =>
    cases ho
    exact ⟨_, rfl, fun j hj => rfl, hkeep, rfl⟩
  | clearWrite k v =>
    cases ho
    exact ⟨_, rfl, fun j hj => setReg_r hj _ _ _, hkeep, rfl⟩
  | jump link target =>
    cases ho
    refine ⟨_, rfl, fun j hj => link_r hj _ _ _, ?_, link_mem link⟩
    show (target + 0) &&& ~~~3#32 = _
    rw [add_zero]
    rfl
  | branch link taken =>
    cases ho
    refine ⟨_, rfl, fun j hj => link_r hj _ _ _, ?_, link_mem link⟩
    show ((t.link link).pcNext + if taken then immShift opcode else 0) &&& ~~~3#32 = _
    rw [link_pcNext]
    cases taken with
    | false => exact hkeep
    | true => rfl
  | load type size k a =>
    simp only [Action.outcome, bind, Except.bind] at ho
    cases hread : t.memRead size a with
    | error e =>
      rw [hread] at ho
      cases ho
    | ok p =>
      obtain ⟨v, t'⟩ := p
      obtain ⟨hr, hpc, hmem⟩ := memRead_frame hread
      rw [hread] at ho
      cases ho
      refine ⟨((t'.setReg k (type.cast v)).step 0).tick, ?_, fun j hj => ?_, ?_, hmem⟩
      · simp only [State.perform, hread, bind, Except.bind]
        rfl
      · rw [← hr]
        exact setReg_r hj _ _ _
      · rw [← hpc] at hkeep
        exact hkeep.trans hpc
  | store size a v =>
    cases ho
    obtain ⟨hram, hal⟩ := hst size a v rfl
    refine ⟨({ t with toBase := { t.toBase with
      mem := (hostBytes size a (State.hostOrder size v)).foldl Isa.State.poke t.mem } }.step
        0).tick, ?_, fun j hj => rfl, hkeep, rfl⟩
    rw [State.perform, memWrite_of_ramSel hram hal, poke_hostBytes]
    rfl
  | invalid =>
    cases ho
    exact ⟨_, rfl, fun j hj => rfl, hkeep, rfl⟩
  | undefined => cases ho

end Cycle

/-! ## The instruction -/

section Instruction

variable {s : State} {w : Word} {i : Instr}

/-- Clearing a cleared cell. -/
theorem setReg_zero (h : s.r 0 = 0) : (s.setReg 0 0).r = s.r := by
  funext j
  show (if j = 0 then 0 else s.r j) = s.r j
  split_ifs with hj
  · rw [hj, h]
  · rfl

theorem head_r (h : s.r 0 = 0) : s.head.r = s.r := setReg_zero h

theorem get_toIsa (h : s.r 0 = 0) (k : BitVec 5) : s.toIsa.get k = s.r k := by
  show (if k = 0 then 0 else s.r k) = _
  split_ifs with hk
  · rw [hk, h]
  · rfl

/-- `ptr`. -/
theorem ptr_eq (h : s.r 0 = 0) :
    simm w + x s w = s.toIsa.get (Mips.rs w) + (Mips.imm w).signExtend 32 := by
  rw [simm_eq, x, index_rs, get_toIsa h, BitVec.add_comm]

/-- A branch is relative to its delay slot, and the low bits are clear. -/
theorem branch_target (hal : Aligned 4 s.pc) (hslot : s.pcNext = s.pc + 4) :
    (s.head.pcNext + immShift w) &&& ~~~3#32 = branchTarget s.pc (Mips.imm w) := by
  have hsum : s.head.pcNext + immShift w = branchTarget s.pc (Mips.imm w) := by
    show s.pcNext + 4 + (simm w <<< (2 : ℕ) - 4) = _
    rw [simm_eq, hslot, branchTarget]
    generalize (Mips.imm w).signExtend 32 <<< (2 : ℕ) = d
    bv_omega
  rw [hsum]
  refine Isa.base_eq_iff.mpr ?_
  rw [Aligned] at hal ⊢
  rw [branchTarget, BitVec.toNat_add, BitVec.toNat_add, BitVec.toNat_shiftLeft, Nat.shiftLeft_eq]
  simp
  omega

/-- The low bits of a jump are clear. -/
theorem jump_target (hslot : s.pcNext = s.pc + 4) (k : BitVec 26) :
    (s.head.pc.extractLsb' 28 4 ++ k ++ 0#2) &&& ~~~3#32 = jumpTarget s.pc k := by
  have hpc : s.head.pc = s.pc + 4 := hslot
  rw [hpc]
  refine Isa.base_eq_iff.mpr ?_
  rw [Aligned, toNat_append]
  simp

/-- The row of an instruction has the outcome of the simulator. -/
theorem outcome_instrAction (h₀ : s.r 0 = 0) (hal : Aligned 4 s.pc)
    (hslot : i.Transfers → s.pcNext = s.pc + 4) (hdec : Decodes w i) (hacc : AccessOk s.toIsa i) :
    (instrAction s.head (simm w + x s w) i).outcome s.head w = .ok (simOutcome s.toIsa i) := by
  have hr := fun k => (get_toIsa h₀ k).trans (congrFun (head_r h₀) k).symm
  have hlink : s.pcNext = s.pc + 4 → s.pcNext + 4 = s.pc + 8 := by
    intro h
    rw [h, BitVec.add_assoc]
    rfl
  have hnext : s.head.pcNext = s.pcNext + 4 := rfl
  cases hdec with
  | shift | shiftV | reg | imm =>
    simp only [instrAction, Action.outcome, simOutcome, outcome, hr]
  | jr =>
    simp only [instrAction, Action.outcome, simOutcome, hr]
    rfl
  | jalr =>
    have h := hlink (hslot trivial)
    simp only [instrAction, Action.outcome, simOutcome, hnext, h]
    rfl
  | j =>
    simp only [instrAction, Action.outcome, simOutcome, outcome, jump_target (hslot trivial)]
    rfl
  | jal =>
    have h := hlink (hslot trivial)
    simp only [instrAction, Action.outcome, simOutcome, outcome, jump_target (hslot trivial),
      hnext, h]
    rfl
  | sign | zero | pair =>
    simp only [instrAction, Action.outcome, simOutcome, outcome, hr,
      branch_target hal (hslot trivial)]
    rfl
  | link =>
    have h := hlink (hslot trivial)
    have htarget := branch_target (w := w) hal (hslot trivial)
    rw [hnext] at htarget
    simp only [instrAction, Action.outcome, simOutcome, hnext, htarget]
    rw [h]
    rfl
  | @load op =>
    obtain ⟨hram, hok⟩ := hacc
    have hbytes : Aligned (loadSize op).bytes
        (s.toIsa.get (Mips.rs w) + (Mips.imm w).signExtend 32) := by
      cases op <;> exact hok
    rw [ptr_eq h₀]
    simp only [instrAction, Action.outcome, memRead_of_ramSel hram hbytes, bind, Except.bind,
      cast_value]
    rfl
  | store =>
    rw [ptr_eq h₀]
    simp only [instrAction, Action.outcome, hostBytes_eq, simOutcome, outcome, hr]

/-- A store goes where the access of the instruction does. -/
theorem store_of_accessOk (h₀ : s.r 0 = 0) (hdec : Decodes w i) (hacc : AccessOk s.toIsa i)
    (size : Size) (a v : Word)
    (hrow : instrAction s.head (simm w + x s w) i = .store size a v) :
    ramSel a = true ∧ Aligned size.bytes a := by
  cases hdec with
  | @store op =>
    rw [ptr_eq h₀] at hrow
    cases hrow
    obtain ⟨hram, hok⟩ := hacc
    refine ⟨hram, ?_⟩
    cases op <;> exact hok
  | _ => cases hrow

/-- `State.outcome` of an instruction in RAM. -/
theorem outcome_of_decodes (h₀ : s.r 0 = 0) (hfetch : s.memRead .word s.pc = .ok (w, s))
    (hal : Aligned 4 s.pc) (hslot : i.Transfers → s.pcNext = s.pc + 4) (hdec : Decodes w i)
    (hacc : AccessOk s.toIsa i) : s.outcome = .ok (simOutcome s.toIsa i) := by
  simp only [State.outcome, hfetch, bind, Except.bind, action_of_decodes hdec]
  exact outcome_instrAction h₀ hal hslot hdec hacc

/-- A cycle that executes an instruction in RAM leaves its outcome. -/
theorem cycle_of_decodes (h₀ : s.r 0 = 0) (hfetch : s.memRead .word s.pc = .ok (w, s))
    (hpend : ¬ s.pending) (hbds : s.noxBds = false) (hal : Aligned 4 s.pc)
    (hnext : Aligned 4 s.pcNext) (hslot : i.Transfers → s.pcNext = s.pc + 4)
    (hdec : Decodes w i) (hacc : AccessOk s.toIsa i) :
    ∃ s', s.cycle = .ok s' ∧ Leaves s.head (simOutcome s.toIsa i) s' := by
  have hcycle : s.cycle = s.head.execute w (simm w + x s w) := by
    simp only [State.cycle, if_neg hpend, hfetch, bind, Except.bind, hbds]
    rfl
  have hahead : Aligned 4 s.head.pcNext := by
    show Aligned 4 (s.pcNext + 4)
    rw [Aligned] at hnext ⊢
    rw [BitVec.toNat_add]
    simp
    omega
  have hrow := action_of_decodes (s := s.head) hdec (simm w + x s w)
  rw [hcycle]
  refine execute_of_outcome hahead ?_ ?_
  · rw [hrow]
    exact outcome_instrAction h₀ hal hslot hdec hacc
  · rw [hrow]
    exact store_of_accessOk h₀ hdec hacc

end Instruction

end HfRisc.Mips.Sim
