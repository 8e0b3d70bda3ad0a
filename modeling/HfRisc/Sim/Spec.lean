import HfRisc.Sim.Frame
import HfRisc.Sim.Rows

/-!
# A cycle of the simulator and a step of the instruction set

`Base.toIsa` forgets everything but the registers, the program counter and the
memory. An aligned access to RAM reads and writes what the instruction set reads
and writes, so a row of the switch leaves the state the instruction set
prescribes up to the two slips of the source, which stay visible in the
statements here: what `JALR` reads after it has written `r[rd]`, and what a write
to `r[0]` leaves there.
-/

namespace HfRisc.Sim

open HfRisc.Isa (LoadOp StoreOp Instr Aligned)
open HfRisc.Lib

/-- The architectural state. -/
def Base.toIsa (s : Base) : Isa.State 18 where
  regs := s.r
  pc := s.pc
  mem := s.mem

/-! ## Memory -/

section Memory

variable {s : State} {a : Word}

/-- RAM lies below the memory mapped registers. -/
theorem lt_of_ramSel (h : ramSel a = true) : a < EXIT_TRAP := by
  have hsel := congrArg BitVec.toNat (beq_iff_eq.mp h)
  rw [toNat_extract] at hsel
  have ha := a.isLt
  show a.toNat < EXIT_TRAP.toNat
  simp only [EXIT_TRAP] at hsel ⊢
  simp at hsel ⊢
  omega

/-- The number of bytes of an access. -/
def Size.bytes : Size → ℕ
  | .byte => 1
  | .half => 2
  | .word => 4

/-- The alignment test of the source. -/
theorem unaligned_of_aligned {size : Size} (h : Aligned size.bytes a) :
    a &&& size.unaligned = 0 := by
  apply BitVec.eq_of_toNat_eq
  rw [Aligned] at h
  cases size with
  | byte => exact (toNat_and_low a (k := 0) (by decide)).trans h
  | half => exact (toNat_and_low a (k := 1) (by decide)).trans h
  | word => exact (toNat_and_low a (k := 2) (by decide)).trans h

theorem memRead_of_ramSel {size : Size} (h : ramSel a = true) (hal : Aligned size.bytes a) :
    s.memRead size a = .ok (s.peek size (Base.offset a), s) := by
  have hlt := lt_of_ramSel h
  rw [State.memRead, if_neg (ne_of_lt_exit hlt (by decide)), s.register_of_lt hlt]
  simp only [BitVec.not_le.mpr hlt, if_false, unaligned_of_aligned hal, ne_eq,
    not_true_eq_false]

theorem memWrite_of_ramSel {size : Size} (h : ramSel a = true) (hal : Aligned size.bytes a)
    (v : Word) :
    s.memWrite size a v = .ok { s with toBase := s.poke size (Base.offset a) v } := by
  have hlt := lt_of_ramSel h
  rw [State.memWrite, if_neg (ne_of_lt_exit hlt (by decide)), s.setRegister_of_lt hlt]
  simp only [BitVec.not_le.mpr hlt, if_false, unaligned_of_aligned hal, ne_eq,
    not_true_eq_false]

end Memory

section Bytes

variable (b : Base) (a : Word)

theorem offset_add (k : Word) : Base.offset (a + k) = Base.offset a + Base.offset k :=
  BitVec.setWidth_add _ _ (by decide)

/-- The byte at an address. -/
theorem byte_toIsa : b.toIsa.byte a = b.mem (Base.offset a) := rfl

/-- What a load reads. -/
theorem cast_peek (op : LoadOp) :
    (typeOf op).cast (b.peek (loadSize op) (Base.offset a)) = op.value b.toIsa.byte a := by
  have h₁ : b.toIsa.byte (a + 1) = b.mem (Base.offset a + 1) := by
    rw [byte_toIsa, offset_add]
    rfl
  have h₂ : b.toIsa.byte (a + 2) = b.mem (Base.offset a + 2) := by
    rw [byte_toIsa, offset_add]
    rfl
  have h₃ : b.toIsa.byte (a + 3) = b.mem (Base.offset a + 3) := by
    rw [byte_toIsa, offset_add]
    rfl
  cases op with
  | lb =>
    show ((BitVec.signExtend 32 _).setWidth 8).signExtend 32 = _
    rw [setWidth_signExtend _ (by decide)]
    rfl
  | lbu =>
    show ((BitVec.signExtend 32 _).setWidth 8).setWidth 32 = _
    rw [setWidth_signExtend _ (by decide)]
    rfl
  | lh =>
    show ((BitVec.signExtend 32 (_ ++ _)).setWidth 16).signExtend 32 = _
    rw [setWidth_signExtend _ (by decide), LoadOp.value, h₁]
    rfl
  | lhu =>
    show ((BitVec.signExtend 32 (_ ++ _)).setWidth 16).setWidth 32 = _
    rw [setWidth_signExtend _ (by decide), LoadOp.value, h₁]
    rfl
  | lw =>
    show b.peek .word (Base.offset a) = _
    rw [LoadOp.value, h₁, h₂, h₃]
    rfl

/-- What a store writes. -/
theorem mem_poke (op : StoreOp) (v : Word) :
    (b.poke (storeSize op) (Base.offset a) v).mem = (op.bytes a v).foldl Isa.State.poke b.mem := by
  have h₁ : Base.offset a + 1 = Base.offset (a + 1) := (offset_add a 1).symm
  have h₂ : Base.offset a + 2 = Base.offset (a + 2) := (offset_add a 2).symm
  have h₃ : Base.offset a + 3 = Base.offset (a + 3) := (offset_add a 3).symm
  cases op with
  | sb => rfl
  | sh =>
    show ((b.setByte (Base.offset a) _).setByte (Base.offset a + 1) _).mem = _
    rw [h₁]
    rfl
  | sw =>
    show ((((b.setByte (Base.offset a) _).setByte (Base.offset a + 1) _).setByte
      (Base.offset a + 2) _).setByte (Base.offset a + 3) _).mem = _
    rw [h₁, h₂, h₃]
    rfl

/-- A store changes nothing but the memory. -/
theorem poke_eq (size : Size) (k : BitVec 20) (v : Word) :
    b.poke size k v = { b with mem := (b.poke size k v).mem } := by
  cases size <;> rfl

/-- A fetch inside the array reads the instruction word. -/
theorem fetch_toIsa {b : Base} {w : Word} (h : b.fetch b.pc = .ok w) : b.toIsa.fetch = w := by
  rw [Base.fetch] at h
  split at h
  · exact (cast_peek b b.pc .lw).symm.trans (Except.ok.inj h)
  · cases h

end Bytes

/-! ## The instruction -/

section Execute

variable {s : State} {w : Word} {i : Instr} {m : Bool}

/-- Clearing a cleared cell. -/
theorem setReg_zero (h : s.r 0 = 0) : s.setReg 0 0 = s := by
  have hr : (fun j => if j = 0 then 0 else s.r j) = s.r := by
    funext j
    split_ifs with hj
    · rw [hj, h]
    · rfl
  show { s with r := fun j => if j = 0 then 0 else s.r j } = s
  rw [hr]

theorem get_toIsa (h : s.r 0 = 0) (k : BitVec 5) : s.toIsa.get k = s.r k := by
  show (if k = 0 then 0 else s.r k) = _
  split_ifs with hk
  · rw [hk, h]
  · rfl

/-- The operands are those of the instruction set, but for `JALR`. -/
theorem operands_eq (h : s.r 0 = 0) :
    s.operands w = ⟨s.toIsa.get (Isa.rs1 w), s.toIsa.get (Isa.rs1 w), s.toIsa.get (Isa.rs2 w),
      if Isa.rs1 w = Isa.rd w then s.pcNext else s.toIsa.get (Isa.rs1 w)⟩ := by
  have hclear : s.toBase.setReg 0 0 = s.toBase := congrArg State.toBase (setReg_zero h)
  rw [Base.operands, hclear, index_rs1, index_rs2, index_rd, get_toIsa h, get_toIsa h]
  rfl

/-- Where the simulator goes on: where the instruction set does, but `JALR` reads
`r[rs1]` when `r[rd]` is already written. -/
def landing (σ : Isa.State 18) : Instr → Word
  | .jalr rd rs1 imm => ((if rs1 = rd then σ.pc + 4 else σ.get rs1) + imm) &&& ~~~1#32
  | i => (σ.outcome i).pc

/-- The cells of `r` after the instruction: `r[0]` takes its value too. -/
def cells (σ : Isa.State 18) (o : Isa.Outcome) : BitVec 5 → Word :=
  match o.write with
  | some (rd, v) => fun k => if k = rd then v else σ.regs k
  | none => σ.regs

/-- One instruction of the simulator. -/
structure Executed (σ : Isa.State 18) (i : Instr) (t : State) : Prop where
  r : t.r = cells σ (σ.outcome i)
  pcNext : t.pcNext = landing σ i
  mem : t.mem = (σ.outcome i).bytes.foldl Isa.State.poke σ.mem

/-- From a cleared `r[0]`, every legal instruction but `FENCE` is executed as the
instruction set prescribes, up to `landing` and `cells`. -/
theorem execute_of_decode (h₀ : s.r 0 = 0) (hnext : s.pcNext = s.pc + 4)
    (hdec : Isa.decode m w = some i) (hacc : i.AccessOk s.toIsa) (hfence : i ≠ .fence) :
    ∃ t, s.execute w = .ok t ∧ Executed s.toIsa i t := by
  rw [State.execute, setReg_zero h₀, action_of_decode hdec, operands_eq h₀, hnext]
  rcases Isa.decode_cases hdec with ⟨-, rfl⟩ | ⟨-, rfl⟩ | ⟨-, rfl⟩ | ⟨-, rfl⟩ |
    ⟨-, op, -, rfl⟩ | ⟨-, op, -, rfl⟩ | ⟨-, op, -, rfl⟩ | ⟨-, op, -, rfl⟩ | ⟨-, op, -, rfl⟩ |
    ⟨-, -, op, -, rfl⟩ | ⟨-, rfl⟩
  · exact ⟨_, rfl, by rw [index_rd]; rfl, hnext, rfl⟩
  · exact ⟨_, rfl, by rw [index_rd]; rfl, hnext, rfl⟩
  · exact ⟨_, rfl, by rw [index_rd, hnext]; rfl, rfl, rfl⟩
  · exact ⟨_, rfl, by rw [index_rd, hnext]; rfl, rfl, rfl⟩
  · -- a branch, taken or not
    refine ⟨_, rfl, ?_, ?_, ?_⟩ <;> dsimp only [landing, Isa.State.outcome] <;> split
    · rfl
    · rfl
    · rfl
    · exact hnext
    · rfl
    · rfl
  · obtain ⟨hram, hal⟩ := hacc
    have hal' : Aligned (loadSize op).bytes (s.toIsa.get (Isa.rs1 w) + Isa.immI w) := by
      cases op <;> exact hal
    refine ⟨s.setReg (index (rd w)) (op.value s.toIsa.byte (s.toIsa.get (Isa.rs1 w) + Isa.immI w)),
      ?_, by rw [index_rd]; rfl, hnext, rfl⟩
    simp only [instrAction, State.perform, memRead_of_ramSel hram hal', bind, Except.bind,
      cast_peek]
  · obtain ⟨hram, hal⟩ := hacc
    have hal' : Aligned (storeSize op).bytes (s.toIsa.get (Isa.rs1 w) + Isa.immS w) := by
      cases op <;> exact hal
    refine ⟨_, memWrite_of_ramSel hram hal' _, ?_, ?_, mem_poke s.toBase _ op _⟩
    · rw [poke_eq]
      rfl
    · rw [poke_eq]
      exact hnext
  · exact ⟨_, rfl, by rw [index_rd]; rfl, hnext, rfl⟩
  · exact ⟨_, rfl, by rw [index_rd]; rfl, hnext, rfl⟩
  · exact ⟨_, rfl, by rw [index_rd]; rfl, hnext, rfl⟩
  · exact absurd rfl hfence

end Execute

end HfRisc.Sim
