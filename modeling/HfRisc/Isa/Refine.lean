import HfRisc.Isa.Memory
import HfRisc.Pipe.Execute

/-!
# The sequential machine executes the instruction set

`Implements` is what a core's decoder and ALU must satisfy row by row. Under it,
one step of the sequential machine from a well-behaved state is one step of the
instruction set (`next_eq_step`), provided no `JALR` has an odd target sum: the
circuit adds the offset and leaves bit 0 of the sum in the program counter.
-/

namespace HfRisc.Isa

open HfRisc.Rtl HfRisc.Lib HfRisc.Pipe

variable {n : ℕ} {α : Type} {c : Core α} {L : Contract c} {σ : Seq n} {m : Bool}

/-- The architectural state of the sequential machine. -/
def ofSeq (σ : Seq n) : State n where
  regs := σ.regs
  pc := σ.pc
  mem := memOf σ.ram

/-- A shift: it looks at the low five bits of its second operand. -/
def AluOp.IsShift : AluOp → Prop
  | .sll | .srl | .sra => True
  | _ => False

/-- What a core's decoder and ALU must satisfy. -/
structure Implements (L : Contract c) (m : Bool) : Prop where
  rows : ∀ o f₃ f₇, o ≠ 0b0010011 → o ≠ 0b0110011 →
    c.control o f₃ f₇ = controlRows (fun _ _ => .others) (fun _ _ => .others) o f₃ f₇
  opImm : ∀ {f₃ f₇ o}, decodeOpImm f₃ f₇ = some o → ∃ src2 code,
    c.control 0b0010011 f₃ f₇ = .compute src2 code ∧
    (src2 = 0b001 ∨ src2 = 0b100 ∧ o.IsShift) ∧
    ∀ x y, (L.final x y code).result = o.eval x y
  op : ∀ {f₃ f₇ o}, decodeOp f₃ f₇ = some o → ∃ code,
    c.control 0b0110011 f₃ f₇ = .compute 0b101 code ∧
    ∀ x y, (L.final x y code).result = o.eval x y
  mul : m = true → ∀ {f₃ f₇ o}, decodeMul f₃ f₇ = some o → ∃ code,
    c.control 0b0110011 f₃ f₇ = .compute 0b101 code ∧
    ∀ x y, (L.final x y code).result = o.eval x y
  move : ∀ x y, (L.final x y 0b0110).result = y
  add : ∀ x y, (L.final x y 0b0100).result = x + y
  zero : ∀ x y, (L.final x y 0b0101).zero = (x == y)
  slt : ∀ x y, (L.final x y 0b0111).lessThan = x.slt y
  ult : ∀ x y, (L.final x y 0b1000).lessThan = x.ult y

/-! ## The state seen by the instruction set -/

theorem get_ofSeq (σ : Seq n) (r : BitVec 5) : (ofSeq σ).get r = readReg σ.regs r := by
  rw [State.get, readReg, ite_not]
  rfl

theorem fetch_ofSeq (h : Aligned 4 σ.pc) : (ofSeq σ).fetch = σ.fetch :=
  lw_value σ.regs σ.pc σ.ram h

/-- The instruction has exactly the outcome `o`. -/
def Performs (L : Contract c) (σ : Seq n) (o : Outcome) : Prop :=
  ∀ io, ofSeq (σ.next c L io) = (ofSeq σ).apply o ∧
    σ.effects c L io = o.commits

/-- A register write. -/
theorem performs_write {v p : Word} (hw : σ.writes c = true) (hst : (σ.ex c).regToMem = false)
    (hv : ∀ io, σ.value c L io = v)
    (hp : (if σ.taken c L then (σ.ex c).branch σ.regs σ.pc else σ.pc + 4) = p) :
    Performs L σ ⟨some ((σ.ex c).rd, v), p, []⟩ := by
  intro io
  constructor
  · simp only [Seq.next, hw, hst, hv, hp, ofSeq, State.apply, List.foldl_nil, if_true,
      Bool.false_eq_true, false_and, if_false]
    rfl
  · simp [Seq.effects, Seq.effectReg, Seq.effectMem, hw, hst, hv, Outcome.commits]

/-- No write at all. -/
theorem performs_none {p : Word} (hw : σ.writes c = false) (hst : (σ.ex c).regToMem = false)
    (hp : (if σ.taken c L then (σ.ex c).branch σ.regs σ.pc else σ.pc + 4) = p) :
    Performs L σ ⟨none, p, []⟩ := by
  intro io
  constructor
  · simp only [Seq.next, hw, hst, hp, ofSeq, State.apply, List.foldl_nil, Bool.false_eq_true,
      false_and, if_false]
  · simp [Seq.effects, Seq.effectReg, Seq.effectMem, hw, hst, Outcome.commits]

/-! ## The rows of the decoder -/

section Rows

theorem ctl_eq (σ : Seq n) :
    (σ.ex c).ctl = c.control (opcode σ.fetch) (funct3 σ.fetch) (funct7 σ.fetch) := rfl

/-- Neither load nor store nor jump nor branch: the result goes to the register. -/
theorem performs_compute (hreg : (σ.ex c).ctl.regWrite = true) (hread : (σ.ex c).ctl.memRead = 0)
    (hwrite : (σ.ex c).ctl.memWrite = 0) (hjump : (σ.ex c).ctl.jump = 0)
    (hbranch : (σ.ex c).ctl.branch = 0) {v : Word} (hv : (σ.out c L).result = v) :
    Performs L σ ⟨some (rd σ.fetch, v), σ.pc + 4, []⟩ := by
  refine performs_write ?_ (Seq.regToMem_eq_false.mpr hwrite) (fun io => ?_) ?_
  · rw [Seq.writes, hreg, Bool.true_or]
  · simp [Seq.value, Execute.writeData, hread, Execute.jumpTaken, hjump, hv]
  · rw [Seq.taken_of_straight hjump hbranch]
    rfl

theorem performs_jump {kind : BitVec 2} (hctl : (σ.ex c).ctl = .jumpTo kind) (hkind : kind ≠ 0) :
    Performs L σ ⟨some (rd σ.fetch, σ.pc + 4), (σ.ex c).branch σ.regs σ.pc, []⟩ := by
  have hj : (σ.ex c).jumpTaken = true := by
    rw [Execute.jumpTaken, hctl]
    exact bne_iff_ne.mpr hkind
  refine performs_write ?_ (Seq.regToMem_eq_false.mpr (by rw [hctl]; rfl)) (fun io => ?_) ?_
  · rw [Seq.writes, hctl]
    rfl
  · have hread : (σ.ex c).ctl.memRead = 0 := by
      rw [hctl]
      rfl
    simp [Seq.value, Execute.writeData, hread, hj]
  · rw [Seq.taken, hj, Bool.or_true, if_pos rfl]

theorem performs_branch {op : BitVec 4} {kind : BitVec 3}
    (hctl : (σ.ex c).ctl = .branchOn op kind) :
    Performs L σ ⟨none, if (σ.ex c).branchTaken (σ.out c L) then σ.pc + immB σ.fetch
      else σ.pc + 4, []⟩ := by
  refine performs_none ?_ (Seq.regToMem_eq_false.mpr (by rw [hctl]; rfl)) ?_
  · rw [Seq.writes, Seq.memToReg_eq_false.mpr (by rw [hctl]; rfl), hctl]
    rfl
  · have hj : (σ.ex c).jumpTaken = false := by
      rw [Execute.jumpTaken, hctl]
      rfl
    have hbr : (σ.ex c).branch σ.regs σ.pc = σ.pc + immB σ.fetch := by
      rw [Execute.branch, hctl, ← immSb_eq c.control σ.fetch]
      rfl
    rw [Seq.taken, hj, Bool.or_false, hbr]

theorem performs_others (hctl : (σ.ex c).ctl = .others) : Performs L σ ⟨none, σ.pc + 4, []⟩ := by
  refine performs_none ?_ (Seq.regToMem_eq_false.mpr (by rw [hctl]; rfl)) ?_
  · rw [Seq.writes, Seq.memToReg_eq_false.mpr (by rw [hctl]; rfl), hctl]
    rfl
  · rw [Seq.taken_of_straight (by rw [hctl]; rfl) (by rw [hctl]; rfl)]
    rfl

/-- A load from RAM. -/
theorem performs_load {width : BitVec 2} {signed : Bool} (hctl : (σ.ex c).ctl = .load width signed)
    (hwidth : width ≠ 0) {a v : Word} (ha : (σ.out c L).result = a) (hram : ramSel a = true)
    (hv : (σ.ex c).writeData a (σ.ram (wordIndex n a)) (σ.pc + 4) = v) :
    Performs L σ ⟨some (rd σ.fetch, v), σ.pc + 4, []⟩ := by
  have hload : (σ.ex c).memToReg = true := Seq.memToReg_iff.mpr (by rw [hctl]; exact hwidth)
  refine performs_write ?_ (Seq.regToMem_eq_false.mpr (by rw [hctl]; rfl)) (fun io => ?_) ?_
  · rw [Seq.writes, hload, Bool.or_true]
  · rw [Seq.value, Seq.loadWord, ha, if_pos hram, hv]
  · rw [Seq.taken_of_straight (by rw [hctl]; rfl) (by rw [hctl]; rfl)]
    rfl

/-- A store to RAM. -/
theorem performs_store {width : BitVec 2} (hctl : (σ.ex c).ctl = .store width)
    (hwidth : width ≠ 0) {a v : Word} {o : StoreOp} (ha : (σ.out c L).result = a)
    (hram : ramSel a = true) (hv : readReg σ.regs (rs2 σ.fetch) = v)
    (hst : Stores n a v o ((σ.ex c).dataW a) ((σ.ex c).dataOut v)) :
    Performs L σ ⟨none, σ.pc + 4, o.bytes a v⟩ := by
  have hstore : (σ.ex c).regToMem = true := Seq.regToMem_iff.mpr (by rw [hctl]; exact hwidth)
  have hwrites : σ.writes c = false := by
    rw [Seq.writes, Seq.memToReg_eq_false.mpr (by rw [hctl]; rfl), hctl]
    rfl
  have htaken : σ.taken c L = false :=
    Seq.taken_of_straight (by rw [hctl]; rfl) (by rw [hctl]; rfl)
  have hlanes : σ.lanes c L = (σ.ex c).dataW a := by rw [Seq.lanes, ha]
  have hdata : σ.data c = (σ.ex c).dataOut v := by
    rw [← hv]
    rfl
  have hne : o.bytes a v ≠ [] := by cases o <;> simp [StoreOp.bytes]
  intro io
  constructor
  · simp only [Seq.next, hwrites, htaken, hstore, ha, hram, hlanes, hdata, ofSeq, State.apply,
      hst.ram, Bool.false_eq_true, if_false, and_self, if_true]
  · simp [Seq.effects, Seq.effectReg, Seq.effectMem, hwrites, hstore, ha, hlanes, hdata, hst.effect,
      Outcome.commits, hne]

end Rows

/-! ## Operands -/

section Operands

theorem op1_eq (h : (σ.ex c).ctl.aluSrc1 = false) : σ.op1 c = (ofSeq σ).get (rs1 σ.fetch) := by
  rw [get_ofSeq, Seq.op1, Execute.aluSrc1, if_pos h]
  rfl

theorem op1_pc (h : (σ.ex c).ctl.aluSrc1 = true) : σ.op1 c = σ.pc := by
  rw [Seq.op1, Execute.aluSrc1, if_neg (by simp [h])]

theorem op2_immU (h : (σ.ex c).ctl.aluSrc2 = 0b000) : σ.op2 c = immU σ.fetch := by
  rw [Seq.op2, Execute.aluSrc2, if_pos h]
  rfl

theorem op2_immI (h : (σ.ex c).ctl.aluSrc2 = 0b001) : σ.op2 c = immI σ.fetch := by
  rw [Seq.op2, Execute.aluSrc2, h, ← immI_eq c.control]
  rfl

theorem op2_immS (h : (σ.ex c).ctl.aluSrc2 = 0b010) : σ.op2 c = immS σ.fetch := by
  rw [Seq.op2, Execute.aluSrc2, h, ← immS_eq c.control]
  rfl

theorem op2_shamt (h : (σ.ex c).ctl.aluSrc2 = 0b100) : σ.op2 c = (rs2 σ.fetch).setWidth 32 := by
  rw [Seq.op2, Execute.aluSrc2, h]
  apply BitVec.eq_of_toNat_eq
  show (0#27 ++ rs2 σ.fetch).toNat = _
  rw [toNat_append, BitVec.toNat_setWidth]
  have hr := (rs2 σ.fetch).isLt
  simp
  omega

theorem op2_rs2 (h : (σ.ex c).ctl.aluSrc2 = 0b101) : σ.op2 c = (ofSeq σ).get (rs2 σ.fetch) := by
  rw [get_ofSeq, Seq.op2, Execute.aluSrc2, h]
  rfl

/-- A shift does not see the difference between its immediate and its amount. -/
theorem eval_shamt {o : AluOp} (h : o.IsShift) (x w : Word) :
    o.eval x ((rs2 w).setWidth 32) = o.eval x (immI w) := by
  have hr := (rs2 w).isLt
  have hmod : ((rs2 w).setWidth 32).toNat % 32 = (immI w).toNat % 32 := by
    rw [toNat_immI_mod, BitVec.toNat_setWidth]
    omega
  cases o <;> first | exact h.elim | simp only [AluOp.eval, hmod]

end Operands

/-! ## Rows with a `funct3` -/

section Functs

/-- The ALU code and the kind of a branch. -/
def BranchOp.code : BranchOp → BitVec 4
  | .beq | .bne => 0b0101
  | .blt | .bge => 0b0111
  | .bltu | .bgeu => 0b1000

@[inherit_doc BranchOp.code]
def BranchOp.kind : BranchOp → BitVec 3
  | .beq => 0b001
  | .bne => 0b010
  | .blt => 0b011
  | .bge => 0b100
  | .bltu => 0b101
  | .bgeu => 0b110

/-- The width and the extension of a load. -/
def LoadOp.width : LoadOp → BitVec 2
  | .lb | .lbu => 0b01
  | .lh | .lhu => 0b10
  | .lw => 0b11

@[inherit_doc LoadOp.width]
def LoadOp.signed : LoadOp → Bool
  | .lb | .lh | .lw => true
  | .lbu | .lhu => false

/-- The width of a store. -/
def StoreOp.width : StoreOp → BitVec 2
  | .sb => 0b01
  | .sh => 0b10
  | .sw => 0b11

variable {opImm op : BitVec 3 → BitVec 7 → Control} {f₃ : BitVec 3}

theorem row_branch {o : BranchOp} (h : decodeBranch f₃ = some o) (f₇ : BitVec 7) :
    controlRows opImm op 0b1100011 f₃ f₇ = .branchOn o.code o.kind := by
  revert h
  rcases funct3_cases f₃ with rfl | rfl | rfl | rfl | rfl | rfl | rfl | rfl <;>
    intro h <;> cases h <;> rfl

theorem row_load {o : LoadOp} (h : decodeLoad f₃ = some o) (f₇ : BitVec 7) :
    controlRows opImm op 0b0000011 f₃ f₇ = .load o.width o.signed := by
  revert h
  rcases funct3_cases f₃ with rfl | rfl | rfl | rfl | rfl | rfl | rfl | rfl <;>
    intro h <;> cases h <;> rfl

theorem row_store {o : StoreOp} (h : decodeStore f₃ = some o) (f₇ : BitVec 7) :
    controlRows opImm op 0b0100011 f₃ f₇ = .store o.width := by
  revert h
  rcases funct3_cases f₃ with rfl | rfl | rfl | rfl | rfl | rfl | rfl | rfl <;>
    intro h <;> cases h <;> rfl

/-- What a load writes back is what the instruction set loads. -/
theorem writeData_load {o : LoadOp} (hctl : (σ.ex c).ctl = .load o.width o.signed) {a : Word}
    (ha : Aligned o.size a) :
    (σ.ex c).writeData a (σ.ram (wordIndex n a)) (σ.pc + 4) = o.value (ofSeq σ).byte a := by
  have hread : (σ.ex c).ctl.memRead = o.width := by rw [hctl]; rfl
  have hsign : (σ.ex c).ctl.sigRead = o.signed := by rw [hctl]; rfl
  have hbyte : (ofSeq σ).byte a = lane (offset a) (σ.ram (wordIndex n a)) :=
    byte_memOf σ.regs σ.pc σ.ram a
  rw [Execute.writeData]
  cases o with
  | lb =>
    replace hread : (σ.ex c).ctl.memRead = 0b01 := hread
    rw [if_neg (by rw [hread]; decide), if_pos hread, dataInS_byte hread, ext32b_eq, hsign, ← hbyte]
    rfl
  | lbu =>
    replace hread : (σ.ex c).ctl.memRead = 0b01 := hread
    rw [if_neg (by rw [hread]; decide), if_pos hread, dataInS_byte hread, ext32b_eq, hsign, ← hbyte]
    rfl
  | lh =>
    replace hread : (σ.ex c).ctl.memRead = 0b10 := hread
    rw [if_neg (by rw [hread]; decide), if_neg (by rw [hread]; decide), if_pos hread,
      dataInS_half hread ha, ext32h_eq, hsign, ← half_value σ.regs σ.pc σ.ram ha]
    rfl
  | lhu =>
    replace hread : (σ.ex c).ctl.memRead = 0b10 := hread
    rw [if_neg (by rw [hread]; decide), if_neg (by rw [hread]; decide), if_pos hread,
      dataInS_half hread ha, ext32h_eq, hsign, ← half_value σ.regs σ.pc σ.ram ha]
    rfl
  | lw =>
    replace hread : (σ.ex c).ctl.memRead = 0b11 := hread
    rw [if_pos hread, dataInS_word hread, ← lw_value σ.regs σ.pc σ.ram ha]
    rfl

end Functs

/-! ## The instructions -/

/-- What the circuit does: the instruction set, but bit 0 of a `JALR` target stays. -/
def circuitOutcome (a : State n) : Instr → Outcome
  | .jalr rd rs1 imm => ⟨some (rd, a.pc + 4), a.get rs1 + imm, []⟩
  | i => a.outcome i

theorem circuitOutcome_write (a : State n) (i : Instr) :
    (circuitOutcome a i).write = (a.outcome i).write := by
  cases i <;> rfl

theorem circuitOutcome_bytes (a : State n) (i : Instr) :
    (circuitOutcome a i).bytes = (a.outcome i).bytes := by
  cases i <;> rfl

section Instructions

variable (hI : Implements L m)
include hI

theorem performs_lui (ho : opcode σ.fetch = 0b0110111) :
    Performs L σ ⟨some (rd σ.fetch, immU σ.fetch), σ.pc + 4, []⟩ := by
  have hctl : (σ.ex c).ctl = .compute 0b000 0b0110 := by
    rw [ctl_eq, ho, hI.rows _ _ _ (by decide) (by decide)]
    rfl
  refine performs_compute (by rw [hctl]; rfl) (by rw [hctl]; rfl) (by rw [hctl]; rfl)
    (by rw [hctl]; rfl) (by rw [hctl]; rfl) ?_
  rw [Seq.out, hctl, ← op2_immU (by rw [hctl]; rfl)]
  exact hI.move _ _

theorem performs_auipc (ho : opcode σ.fetch = 0b0010111) :
    Performs L σ ⟨some (rd σ.fetch, σ.pc + immU σ.fetch), σ.pc + 4, []⟩ := by
  have hctl : (σ.ex c).ctl = { Control.compute 0b000 0b0100 with aluSrc1 := true } := by
    rw [ctl_eq, ho, hI.rows _ _ _ (by decide) (by decide)]
    rfl
  refine performs_compute (by rw [hctl]; rfl) (by rw [hctl]; rfl) (by rw [hctl]; rfl)
    (by rw [hctl]; rfl) (by rw [hctl]; rfl) ?_
  rw [Seq.out, op1_pc (by rw [hctl]), op2_immU (by rw [hctl]; rfl), hctl]
  exact hI.add _ _

theorem performs_jal (ho : opcode σ.fetch = 0b1101111) :
    Performs L σ ⟨some (rd σ.fetch, σ.pc + 4), σ.pc + immJ σ.fetch, []⟩ := by
  have hctl : (σ.ex c).ctl = .jumpTo 0b10 := by
    rw [ctl_eq, ho, hI.rows _ _ _ (by decide) (by decide)]
    rfl
  have hbr : (σ.ex c).branch σ.regs σ.pc = σ.pc + immJ σ.fetch := by
    rw [Execute.branch, hctl, ← immUj_eq c.control σ.fetch]
    rfl
  rw [← hbr]
  exact performs_jump hctl (by decide)

/-- The target of `JALR` is the plain sum: bit 0 is not cleared. -/
theorem performs_jalr (ho : opcode σ.fetch = 0b1100111) :
    Performs L σ ⟨some (rd σ.fetch, σ.pc + 4),
      (ofSeq σ).get (rs1 σ.fetch) + immI σ.fetch, []⟩ := by
  have hctl : (σ.ex c).ctl = .jumpTo 0b11 := by
    rw [ctl_eq, ho, hI.rows _ _ _ (by decide) (by decide)]
    rfl
  have hbr : (σ.ex c).branch σ.regs σ.pc =
      (ofSeq σ).get (rs1 σ.fetch) + immI σ.fetch := by
    rw [Execute.branch, hctl, get_ofSeq, ← immI_eq c.control σ.fetch]
    rfl
  rw [← hbr]
  exact performs_jump hctl (by decide)

theorem performs_fence (ho : opcode σ.fetch = 0b0001111) :
    Performs L σ ⟨none, σ.pc + 4, []⟩ := by
  refine performs_others ?_
  rw [ctl_eq, ho, hI.rows _ _ _ (by decide) (by decide)]
  rfl

/-- The flag a branch looks at is its condition. -/
theorem branchTaken_eq {o : BranchOp} {e : Execute} (hctl : e.ctl = .branchOn o.code o.kind)
    (x y : Word) : e.branchTaken (L.final x y o.code) = o.holds x y := by
  rw [Execute.branchTaken, hctl]
  cases o <;> simp [Control.branchOn, Control.others, BranchOp.kind, BranchOp.holds]
  · exact hI.zero x y
  · rw [bne, Bool.not_not]
    exact hI.zero x y
  · exact hI.slt x y
  · exact hI.slt x y
  · exact hI.ult x y
  · exact hI.ult x y

theorem performs_branches {o : BranchOp} (ho : opcode σ.fetch = 0b1100011)
    (hf : decodeBranch (funct3 σ.fetch) = some o) :
    Performs L σ ((ofSeq σ).outcome
      (.branch o (rs1 σ.fetch) (rs2 σ.fetch) (immB σ.fetch))) := by
  have hctl : (σ.ex c).ctl = .branchOn o.code o.kind := by
    rw [ctl_eq, ho, hI.rows _ _ _ (by decide) (by decide)]
    exact row_branch hf _
  have hout : σ.out c L = L.final (σ.op1 c) (σ.op2 c) o.code := by
    rw [Seq.out, hctl]
    rfl
  have h := performs_branch (L := L) hctl
  rw [hout, branchTaken_eq hI hctl, op1_eq (by rw [hctl]; rfl), op2_rs2 (by rw [hctl]; rfl)] at h
  exact h

/-- A load computes its address and extends what it reads. -/
theorem performs_loads {o : LoadOp} (ho : opcode σ.fetch = 0b0000011)
    (hf : decodeLoad (funct3 σ.fetch) = some o)
    (hok : (Instr.load o (rd σ.fetch) (rs1 σ.fetch) (immI σ.fetch)).AccessOk (ofSeq σ)) :
    Performs L σ ((ofSeq σ).outcome
      (.load o (rd σ.fetch) (rs1 σ.fetch) (immI σ.fetch))) := by
  have hctl : (σ.ex c).ctl = .load o.width o.signed := by
    rw [ctl_eq, ho, hI.rows _ _ _ (by decide) (by decide)]
    exact row_load hf _
  have hout : (σ.out c L).result = (ofSeq σ).get (rs1 σ.fetch) + immI σ.fetch := by
    rw [Seq.out, hctl, op1_eq (by rw [hctl]; rfl), op2_immI (by rw [hctl]; rfl)]
    exact hI.add _ _
  obtain ⟨hram, hal⟩ := hok
  refine performs_load hctl (by cases o <;> decide) hout hram ?_
  exact writeData_load hctl hal

/-- A store computes its address and selects its lanes. -/
theorem performs_stores {o : StoreOp} (ho : opcode σ.fetch = 0b0100011)
    (hf : decodeStore (funct3 σ.fetch) = some o)
    (hok : (Instr.store o (rs1 σ.fetch) (rs2 σ.fetch) (immS σ.fetch)).AccessOk (ofSeq σ)) :
    Performs L σ ((ofSeq σ).outcome
      (.store o (rs1 σ.fetch) (rs2 σ.fetch) (immS σ.fetch))) := by
  have hctl : (σ.ex c).ctl = .store o.width := by
    rw [ctl_eq, ho, hI.rows _ _ _ (by decide) (by decide)]
    exact row_store hf _
  have hout : (σ.out c L).result = (ofSeq σ).get (rs1 σ.fetch) + immS σ.fetch := by
    rw [Seq.out, hctl, op1_eq (by rw [hctl]; rfl), op2_immS (by rw [hctl]; rfl)]
    exact hI.add _ _
  have hwrite : (σ.ex c).ctl.memWrite = o.width := by rw [hctl]; rfl
  obtain ⟨hram, hal⟩ := hok
  refine performs_store hctl (by cases o <;> decide) hout hram (get_ofSeq σ _).symm ?_
  cases o with
  | sb => exact stores_sb _ hwrite _
  | sh => exact stores_sh _ hwrite hal
  | sw => exact stores_sw _ hwrite hal

theorem performs_opImms {o : AluOp} (ho : opcode σ.fetch = 0b0010011)
    (hf : decodeOpImm (funct3 σ.fetch) (funct7 σ.fetch) = some o) :
    Performs L σ ((ofSeq σ).outcome
      (.opImm o (rd σ.fetch) (rs1 σ.fetch) (immI σ.fetch))) := by
  obtain ⟨src2, code, hrow, hsrc, heval⟩ := hI.opImm hf
  have hctl : (σ.ex c).ctl = .compute src2 code := by rw [ctl_eq, ho, hrow]
  refine performs_compute (by rw [hctl]; rfl) (by rw [hctl]; rfl) (by rw [hctl]; rfl)
    (by rw [hctl]; rfl) (by rw [hctl]; rfl) ?_
  rw [Seq.out, hctl, op1_eq (by rw [hctl]; rfl)]
  show (L.final _ _ code).result = _
  rw [heval]
  rcases hsrc with rfl | ⟨rfl, hshift⟩
  · rw [op2_immI (by rw [hctl]; rfl)]
  · rw [op2_shamt (by rw [hctl]; rfl), eval_shamt hshift]

omit hI in
/-- Register computations, multiplies included. -/
theorem performs_register {code : BitVec 4} {eval : Word → Word → Word}
    (hctl : (σ.ex c).ctl = .compute 0b101 code)
    (heval : ∀ x y, (L.final x y code).result = eval x y) :
    Performs L σ ⟨some (rd σ.fetch,
      eval ((ofSeq σ).get (rs1 σ.fetch)) ((ofSeq σ).get (rs2 σ.fetch))), σ.pc + 4, []⟩ := by
  refine performs_compute (by rw [hctl]; rfl) (by rw [hctl]; rfl) (by rw [hctl]; rfl)
    (by rw [hctl]; rfl) (by rw [hctl]; rfl) ?_
  rw [Seq.out, hctl, op1_eq (by rw [hctl]; rfl), op2_rs2 (by rw [hctl]; rfl)]
  exact heval _ _

/-- Every instruction but a `JALR` has the outcome the instruction set gives it. -/
theorem performs_outcome {i : Instr} (hdec : decode m σ.fetch = some i)
    (hok : i.AccessOk (ofSeq σ)) (hjalr : ∀ rd rs1 imm, i ≠ .jalr rd rs1 imm) :
    Performs L σ ((ofSeq σ).outcome i) := by
  rcases decode_cases hdec with ⟨ho, rfl⟩ | ⟨ho, rfl⟩ | ⟨ho, rfl⟩ | ⟨ho, rfl⟩ |
    ⟨ho, o, hf, rfl⟩ | ⟨ho, o, hf, rfl⟩ | ⟨ho, o, hf, rfl⟩ | ⟨ho, o, hf, rfl⟩ | ⟨ho, o, hf, rfl⟩ |
    ⟨ho, hm, o, hf, rfl⟩ | ⟨ho, rfl⟩
  · exact performs_lui hI ho
  · exact performs_auipc hI ho
  · exact performs_jal hI ho
  · exact absurd rfl (hjalr _ _ _)
  · exact performs_branches hI ho hf
  · exact performs_loads hI ho hf hok
  · exact performs_stores hI ho hf hok
  · exact performs_opImms hI ho hf
  · obtain ⟨code, hrow, heval⟩ := hI.op hf
    exact performs_register (by rw [ctl_eq, ho, hrow]) heval
  · obtain ⟨code, hrow, heval⟩ := hI.mul hm hf
    exact performs_register (by rw [ctl_eq, ho, hrow]) heval
  · exact performs_fence hI ho

omit hI in
/-- Clearing bit 0 changes nothing when it is clear. -/
theorem and_not_one {x : Word} (h : x.getLsbD 0 = false) : x &&& ~~~1#32 = x := by
  ext i hi
  rw [BitVec.getElem_and, BitVec.getElem_not]
  cases i with
  | zero =>
    have h0 : x[0] = false := h
    rw [h0]
    rfl
  | succ i =>
    have h1 : (1#32)[i + 1] = false := by
      rw [BitVec.getElem_eq_testBit_toNat]
      exact Nat.testBit_lt_two_pow (Nat.lt_of_lt_of_le (show 1 < 2 ^ 1 by decide)
        (Nat.pow_le_pow_right (by decide) (by omega)))
    rw [h1, Bool.not_false, Bool.and_true]

omit hI in
/-- A word without its bit 0 is the word exactly when the bit is clear. -/
theorem and_not_one_iff {x : Word} : x &&& ~~~1#32 = x ↔ x.getLsbD 0 = false := by
  refine ⟨fun h => ?_, and_not_one⟩
  rw [← h, BitVec.getLsbD_and]
  simp

/-- Every legal instruction has the outcome of the circuit. -/
theorem performs_circuitOutcome {i : Instr} (hdec : decode m σ.fetch = some i)
    (hacc : i.AccessOk (ofSeq σ)) : Performs L σ (circuitOutcome (ofSeq σ) i) := by
  by_cases hj : ∃ rd rs1 imm, i = .jalr rd rs1 imm
  · obtain ⟨d, r, imm, rfl⟩ := hj
    rcases decode_cases hdec with ⟨-, h⟩ | ⟨-, h⟩ | ⟨-, h⟩ | ⟨ho, h⟩ | ⟨-, _, -, h⟩ |
      ⟨-, _, -, h⟩ | ⟨-, _, -, h⟩ | ⟨-, _, -, h⟩ | ⟨-, _, -, h⟩ | ⟨-, -, _, -, h⟩ | ⟨-, h⟩ <;>
      cases h
    exact performs_jalr hI ho
  · have hout : circuitOutcome (ofSeq σ) i = (ofSeq σ).outcome i := by
      cases i with
      | jalr d r imm => exact absurd ⟨d, r, imm, rfl⟩ hj
      | _ => rfl
    rw [hout]
    exact performs_outcome hI hdec hacc fun d r imm h => hj ⟨d, r, imm, h⟩

/-- From a well-behaved state, and without an odd `JALR` target, one instruction
of the circuit is one instruction of the instruction set. -/
theorem next_eq_step (hok : (ofSeq σ).Ok m) (heven : (ofSeq σ).EvenTarget m) (io : Word) :
    ofSeq (σ.next c L io) = (ofSeq σ).step m ∧
      σ.effects c L io = (ofSeq σ).effects m := by
  obtain ⟨i, hdec, hacc, -⟩ := hok.legal
  have hout : circuitOutcome (ofSeq σ) i = (ofSeq σ).outcome i := by
    cases i with
    | jalr d r imm =>
      have hsum : ((ofSeq σ).get r + imm) &&& ~~~1#32 = (ofSeq σ).get r + imm :=
        and_not_one_iff.mpr (heven d r imm hdec)
      rw [circuitOutcome, State.outcome, hsum]
    | _ => rfl
  have hperf := performs_circuitOutcome hI (by rw [← fetch_ofSeq hok.aligned]; exact hdec) hacc
  rw [hout] at hperf
  obtain ⟨hstate, heff⟩ := hperf io
  rw [State.step_of_decode hdec, State.effects_of_decode hdec]
  exact ⟨hstate, heff⟩

end Instructions

end HfRisc.Isa
