import HfRisc.Lib.Mealy
import HfRisc.Pipe.CoreIm
import HfRisc.Pipe.Track
import HfRisc.Results.Programs
import HfRisc.Rtl.MulSpec
import HfRisc.Sim.Rows

/-!
# The multiplies of the rv32im core

The entity of `mul.vhd` between a trigger and the cycle in which `rdy` is high again. The
product stays on `o1` and `o0` for the cycle in which the state machine is done and the one
behind it, in which `rdy` has returned.

The rv32im core has one signedness control for both factors, and `MULHSU` has the
code with both unsigned. The other three multiplies leave the products that the M
extension defines; `MULHSU` leaves the one of `MULHU`, which is too large by the second
factor when the first is negative. The simulator computes all four.
-/

namespace HfRisc.Rtl.Mul

/-- The inputs of the entity in one cycle. `sig1` is not used by the source. -/
structure Input where
  trg : Bool
  sig0 : Bool
  i0 : Word
  i1 : Word

/-- The registers after `reset`. The source does not reset `i0_reg` and `counter`. -/
def reset : Mul where
  currentState := .start
  reg := 0
  i0Reg := 0
  rdySig := true
  counter := 0

/-- The entity as a machine. -/
def machine : Lib.Mealy Mul Input Bool where
  step m i := m.step i.trg i.sig0 i.i0 i.i1
  out m _ := [m.rdySig]

/-- The registers after the first `k` inputs of a stream. -/
def after (m : Mul) (x : ℕ → Input) (k : ℕ) : Mul := machine.run m (Lib.Mealy.inputs x k)

/-- The 64-bit product, of signed or of unsigned numbers. -/
def product (sig0 : Bool) (x y : Word) : BitVec 64 :=
  if sig0 then BitVec.ofInt 64 (x.toInt * y.toInt) else BitVec.ofNat 64 (x.toNat * y.toNat)

/-- `rdy` has not returned by cycle `k`. It is low from the second cycle of a
multiplication on. -/
def Pending (m : Mul) (x : ℕ → Input) (k : ℕ) : Prop :=
  ∀ j, 1 < j → j ≤ k → (m.after x j).rdySig = false

variable {m : Mul} {x : ℕ → Input} {sig0 : Bool} {a b : Word} {j k : ℕ}

theorem after_succ : m.after x (k + 1) =
    (m.after x k).step (x k).trg (x k).sig0 (x k).i0 (x k).i1 :=
  machine.run_inputs_succ m x k

theorem Product.outputs (h : Product m sig0 a b) : m.o1 ++ m.o0 = product sig0 a b := by
  have hlt := m.reg.isLt
  have hout : m.o1 ++ m.o0 = BitVec.ofInt 64 m.reg.toInt := by
    refine BitVec.eq_of_toNat_eq ?_
    rw [Lib.toNat_append, Mul.o1, Mul.o0, Lib.toNat_extract, Lib.toNat_extract,
      BitVec.toNat_ofInt, toInt_reg]
    simp only [Nat.reducePow]
    split <;> omega
  rw [hout, h.reg, product]
  cases sig0 with
  | true => rfl
  | false =>
    rw [if_neg Bool.false_ne_true, ← BitVec.ofInt_natCast, Nat.cast_mul]
    rfl

section Held

variable (hheld : ∀ i, m.Pending x i → (x i).sig0 = sig0)
include hheld

/-- One more cycle of a multiplication. -/
theorem Pending.step (hpending : m.Pending x j) :
    m.after x (j + 1) = (m.after x j).step (x j).trg sig0 (x j).i0 (x j).i1 := by
  rw [after_succ, hheld j hpending]

theorem Pending.succ (hpending : m.Pending x j) (hpart : Partial (m.after x j) sig0 a b) :
    m.Pending x (j + 1) := by
  intro i hi hle
  rcases Nat.lt_or_eq_of_le hle with hlt | rfl
  · exact hpending i hi (Nat.le_of_lt_succ hlt)
  · rw [hpending.step hheld]
    exact step_rdySig hpart.state _ _ _

/-- A multiplication with `k + 1` cycles to go leaves the product behind them. -/
theorem Pending.finish (hpending : m.Pending x j) (hpart : Partial (m.after x j) sig0 a b)
    (hk : DoneIn sig0 (k + 1) (m.after x j)) :
    m.Pending x (j + k + 1) ∧ (∀ i, j ≤ i → i ≤ j + k → (m.after x i).currentState = .multiply) ∧
      Product (m.after x (j + k + 1)) sig0 a b := by
  induction k generalizing j with
  | zero =>
    obtain ⟨-, hproduct, -⟩ := hpart.next hk (x j).trg (x j).i0 (x j).i1
    rw [← hpending.step hheld] at hproduct
    refine ⟨hpending.succ hheld hpart, fun i hlo hhi => ?_, hproduct rfl⟩
    rw [Nat.le_antisymm hhi hlo]
    exact hpart.state
  | succ k ih =>
    obtain ⟨hdone, -, hprod⟩ := hpart.next hk (x j).trg (x j).i0 (x j).i1
    rw [← hpending.step hheld] at hdone hprod
    obtain ⟨hend, hstates, hproduct⟩ :=
      ih (hpending.succ hheld hpart) (hprod (Nat.succ_ne_zero k)) hdone
    rw [show j + 1 + k + 1 = j + (k + 1) + 1 by omega] at hend hproduct
    refine ⟨hend, fun i hlo hhi => ?_, hproduct⟩
    rcases Nat.eq_or_lt_of_le hlo with rfl | hlt
    · exact hpart.state
    · exact hstates i hlt (by omega)

end Held

end HfRisc.Rtl.Mul

namespace HfRisc.Results

open HfRisc.Rtl HfRisc.Rtl.Mul

/-- From the state `start`, whatever the other registers hold, a trigger with the operands and
`sig0` held until `rdy` returns leads to `done` after at most 33 cycles. The outputs are then
the product, signed or unsigned as `sig0` says, and stay for the cycle in which `rdy` is back. -/
theorem multiplier_product (m : Mul) (x : ℕ → Mul.Input) (sig0 : Bool) (i0 i1 : Word)
    (hstart : m.currentState = .start) (htrg : (x 0).trg = true)
    (hheld : ∀ k, m.Pending x k → (x k).sig0 = sig0 ∧ (x k).i0 = i0 ∧ (x k).i1 = i1) :
    ∃ n, 0 < n ∧ n ≤ 33 ∧
      (∀ k, 0 < k → k < n → (m.after x k).currentState = .multiply) ∧
      (m.after x n).currentState = .done ∧
      (m.after x n).o1 ++ (m.after x n).o0 = product sig0 i0 i1 ∧
      m.Pending x n ∧ (m.after x (n + 1)).rdySig = true ∧
      (m.after x (n + 1)).o1 ++ (m.after x (n + 1)).o0 = product sig0 i0 i1 := by
  have hpending₀ : m.Pending x 0 := fun j hj hle => by omega
  have hpending₁ : m.Pending x 1 := fun j hj hle => by omega
  obtain ⟨hsig, hi0, hi1⟩ := hheld 0 hpending₀
  have hpart : Partial (m.after x 1) sig0 i0 i1 := by
    rw [after_succ, htrg, hsig, hi0, hi1]
    exact partial_start hstart i0 i1
  obtain ⟨n, hpos, hle, hdone⟩ := hpart.doneIn (b := 32) (by omega)
  obtain ⟨n, rfl⟩ := Nat.exists_eq_add_of_lt hpos
  rw [Nat.zero_add] at hle hdone
  obtain ⟨hend, hstates, hproduct⟩ :=
    hpending₁.finish (fun k hk => (hheld k hk).1) hpart hdone
  have hlast : m.after x (1 + n + 1 + 1) =
      { m.after x (1 + n + 1) with
        currentState := (m.after x (1 + n + 1)).nextState (x (1 + n + 1)).trg
        rdySig := true } := by
    rw [after_succ, Mul.step, hproduct.state]
  refine ⟨1 + n + 1, by omega, by omega, fun k hk hlt => hstates k hk (by omega),
    hproduct.state, hproduct.outputs, hend, ?_, ?_⟩
  · rw [hlast]
  · rw [hlast]
    exact hproduct.outputs

/-- `-3 * 5` with its trigger in the first cycle. -/
def minusFifteen (k : ℕ) : Mul.Input := ⟨k == 0, true, -3, 5⟩

theorem multiplier_product_signed :
    ∃ n, 0 < n ∧ n ≤ 33 ∧
      (∀ k, 0 < k → k < n →
        (Mul.reset.after minusFifteen k).currentState = .multiply) ∧
      (Mul.reset.after minusFifteen n).currentState = .done ∧
      (Mul.reset.after minusFifteen n).o1 ++
        (Mul.reset.after minusFifteen n).o0 = product true (-3) 5 ∧
      Mul.reset.Pending minusFifteen n ∧
      (Mul.reset.after minusFifteen (n + 1)).rdySig = true ∧
      (Mul.reset.after minusFifteen (n + 1)).o1 ++
        (Mul.reset.after minusFifteen (n + 1)).o0 = product true (-3) 5 :=
  multiplier_product _ minusFifteen true (-3) 5 rfl rfl fun _ _ => ⟨rfl, rfl, rfl⟩

end HfRisc.Results

/-! ## The four multiplies -/

namespace HfRisc.Results

open HfRisc.Rtl HfRisc.Lib HfRisc.Pipe

/-! ## The instructions -/

/-- The multiply instructions. -/
inductive MulInstr
  | mul | mulh | mulhsu | mulhu
deriving DecidableEq, Repr

namespace MulInstr

/-- `funct3`. -/
def funct3 : MulInstr → BitVec 3
  | .mul => 0b000
  | .mulh => 0b001
  | .mulhsu => 0b010
  | .mulhu => 0b011

/-- The word is this instruction. -/
def Encodes (op : MulInstr) (w : Word) : Prop :=
  Isa.opcode w = 0b0110011 ∧ Isa.funct7 w = 0b0000001 ∧ Isa.funct3 w = op.funct3

instance (op : MulInstr) (w : Word) : Decidable (op.Encodes w) :=
  inferInstanceAs (Decidable (_ ∧ _))

/-- The code of the rv32im ALU. -/
def code : MulInstr → BitVec 4
  | .mul => 0b1100
  | .mulh => 0b1101
  | .mulhsu => 0b1110
  | .mulhu => 0b1111

/-- What the M extension defines: one half of the product, with the factors signed or
unsigned. -/
def spec (x y : Word) : MulInstr → Word
  | .mul => BitVec.ofInt 32 (x.toInt * y.toInt)
  | .mulh => BitVec.ofInt 32 (x.toInt * y.toInt / 2 ^ 32)
  | .mulhsu => BitVec.ofInt 32 (x.toInt * y.toNat / 2 ^ 32)
  | .mulhu => BitVec.ofInt 32 (x.toNat * y.toNat / 2 ^ 32)

/-- When the core computes it. -/
def Multiplies (x y : Word) (op : MulInstr) : Prop := op = .mulhsu → 0 ≤ x.toInt ∨ y = 0

instance (x y : Word) (op : MulInstr) : Decidable (op.Multiplies x y) :=
  inferInstanceAs (Decidable (_ → _))

/-- An unsigned first factor adds the second one to the upper half. -/
theorem mulhu_eq (x y : Word) :
    spec x y .mulhu = spec x y .mulhsu + if 0 ≤ x.toInt then 0 else y := by
  have hx : (x.toNat : ℤ) = x.toInt + if 0 ≤ x.toInt then 0 else 2 ^ 32 := by
    have hlt := x.isLt
    rw [BitVec.toInt_eq_toNat_cond]
    split_ifs <;> omega
  rw [spec, spec, hx]
  split_ifs
  · rw [add_zero]
    exact (BitVec.add_zero _).symm
  · rw [add_mul, Int.add_mul_ediv_left _ _ (by decide), BitVec.ofInt_add, BitVec.ofInt_natCast,
      BitVec.ofNat_toNat, BitVec.setWidth_eq]

/-- The multiplier leaves the specified value exactly for `Multiplies`. -/
theorem mulResult_eq_iff (op : MulInstr) (x y : Word) :
    mulResult x y op.code = op.spec x y ↔ op.Multiplies x y := by
  have hfree : op ≠ .mulhsu → op.Multiplies x y := fun hne h => absurd h hne
  cases op with
  | mul =>
    refine iff_of_true ?_ (hfree (by decide))
    rw [spec, BitVec.ofInt_mul, BitVec.ofInt_toInt, BitVec.ofInt_toInt]
    rfl
  | mulh => exact iff_of_true rfl (hfree (by decide))
  | mulhu => exact iff_of_true rfl (hfree (by decide))
  | mulhsu =>
    -- both factors go unsigned into the multiplier
    have hres : mulResult x y (code .mulhsu) = spec x y .mulhu := rfl
    rw [hres, mulhu_eq, Multiplies]
    by_cases hx : 0 ≤ x.toInt
    · rw [if_pos hx]
      exact ⟨fun _ _ => .inl hx, fun _ => BitVec.add_zero _⟩
    · rw [if_neg hx]
      constructor
      · intro h _
        right
        simpa using h
      · intro h
        rcases h rfl with hpos | hy
        · exact absurd hpos hx
        · rw [hy]
          exact BitVec.add_zero _

/-- The simulator writes the specified value. -/
theorem action_eq {op : MulInstr} {w : Word} (hw : op.Encodes w) (pc : Word) (o : Sim.Operands) :
    Sim.action w pc o = .write (op.spec o.x o.y) := by
  obtain ⟨ho, h7, h3⟩ := hw
  have hrow : Sim.action w pc o = Sim.actionMulDiv (op.funct3.setWidth 32) o := by
    have hop : Sim.opcode w = 0x33 := by
      rw [Sim.opcode_eq, ho]
      rfl
    have h7' : Sim.funct7 w = 0x1 := by
      rw [Sim.funct7_eq, h7]
      rfl
    rw [← h3, ← Sim.funct3_eq]
    simp [Sim.action, hop, Sim.actionOp, h7']
  rw [hrow]
  cases op with
  | mul =>
    refine congrArg Sim.Action.write ?_
    rw [Sim.setWidth_signExtend_mul, spec, BitVec.ofInt_mul, BitVec.ofInt_toInt,
      BitVec.ofInt_toInt]
  | mulh =>
    refine congrArg Sim.Action.write ?_
    rw [Sim.setWidth_sshiftRight_32, signExtend_mul_signExtend, extract_ofInt]
    rfl
  | mulhsu =>
    refine congrArg Sim.Action.write ?_
    rw [Sim.setWidth_shiftRight_32, signExtend_mul_setWidth, extract_ofInt]
    rfl
  | mulhu =>
    refine congrArg Sim.Action.write ?_
    rw [Sim.setWidth_shiftRight_32, setWidth_mul_setWidth, extract_ofInt]
    rfl

end MulInstr

/-! ## In the pipeline -/

section Pipeline

variable {n : ℕ} {s : System n MulAlu} {σ : Seq n} {op : MulInstr}

/-- The decoder gives the instruction its code. -/
theorem ctl_multiply (hop : op.Encodes σ.fetch) :
    (σ.ex rv32im).ctl = .compute 0b101 op.code := by
  obtain ⟨ho, h7, h3⟩ := hop
  rw [Isa.ctl_eq, ho, h7, h3]
  cases op <;> rfl

/-- The registers after a multiply. -/
theorem regs_multiply (hop : op.Encodes σ.fetch) (io : Word) :
    (σ.next rv32im contractRv32im io).regs = writeReg σ.regs (Isa.rd σ.fetch)
      (mulResult (readReg σ.regs (Isa.rs1 σ.fetch)) (readReg σ.regs (Isa.rs2 σ.fetch))
        op.code) := by
  have hslow : MulAlu.slow op.code = true := by cases op <;> rfl
  have heval : ∀ x y, (finalRv32im x y op.code).result = mulResult x y op.code :=
    fun x y => finalRv32im_slow hslow
  have hperf := Isa.performs_register (L := contractRv32im) (ctl_multiply hop) heval
  have hregs := congrArg Isa.State.regs (hperf io).1
  simp only [Isa.get_ofSeq] at hregs
  exact hregs

/-- A register file with one value written is the one with another exactly when the
values are equal, or the destination is `x0`. -/
theorem writeReg_eq_iff {regs : BitVec 5 → Word} {rd : BitVec 5} {u v : Word} :
    writeReg regs rd u = writeReg regs rd v ↔ rd = 0 ∨ u = v := by
  constructor
  · intro h
    by_cases hrd : rd = 0
    · exact .inl hrd
    · have hval := congrFun h rd
      rw [writeReg, writeReg, if_pos ⟨hrd, rfl⟩, if_pos ⟨hrd, rfl⟩] at hval
      exact .inr hval
  · rintro (rfl | rfl)
    · funext k
      rw [writeReg, writeReg, if_neg (fun h => h.1 rfl), if_neg (fun h => h.1 rfl)]
    · rfl

/-- From every state with a multiply in execute, after at most 34 cycles without an
external stall the instruction is released, its only final effect the write of its
destination. The register file then has the specified product there exactly for
`MulInstr.Multiplies`; the simulator writes it for all operands. -/
theorem rv32im_multiply (h : AtExecute contractRv32im s σ) (hop : op.Encodes σ.fetch)
    {x : ℕ → Input} (hstall : ∀ N, (x N).stall = false) :
    (∃ N ≤ 34,
      AtRelease contractRv32im ((System.machine rv32im).run s (Mealy.inputs x N))
        (σ.next rv32im contractRv32im 0) ∧
      (((System.machine rv32im).run s (Mealy.inputs x N)).core.regs =
          writeReg s.core.regs (Isa.rd σ.fetch)
            (op.spec (readReg s.core.regs (Isa.rs1 σ.fetch))
              (readReg s.core.regs (Isa.rs2 σ.fetch))) ↔
        Isa.rd σ.fetch = 0 ∨ op.Multiplies (readReg s.core.regs (Isa.rs1 σ.fetch))
          (readReg s.core.regs (Isa.rs2 σ.fetch)))) ∧
    ∀ pc o, Sim.action σ.fetch pc o = .write (op.spec o.x o.y) := by
  have hslow : contractRv32im.slow (σ.ex rv32im).ctl.aluOp = true := by
    rw [ctl_multiply hop]
    cases op <;> rfl
  obtain ⟨N, hN, hrel, -⟩ := h.run_slow hstall hslow 0
  refine ⟨⟨N, hN, hrel, ?_⟩, fun pc o => MulInstr.action_eq hop pc o⟩
  rw [hrel.regs, regs_multiply hop, h.regs, writeReg_eq_iff, MulInstr.mulResult_eq_iff]

end Pipeline

/-! ## Two multiplies -/

/-- A multiply of `x2` and `x3` into `x1`, at the start of the RAM. -/
def multiplying (w x y : Word) : Seq 14 where
  regs := fun k => if k = 2 then x else if k = 3 then y else 0
  pc := base
  ram := fun k => if k = 0 then swapBytes w else swapBytes nop

/-- `mulh x1, x2, x3`. -/
def mulhWord : Word := 0x023110b3

/-- `mulhsu x1, x2, x3`. -/
def mulhsuWord : Word := 0x023120b3

/-- The multiply has entered execute. -/
def started (w x y : Word) : System 14 MulAlu :=
  ((boot rv32im MulAlu.idle idleIntc (multiplying w x y)).step rv32im calmInput).step rv32im
    calmInput

theorem atExecute_started (w x y : Word) :
    AtExecute contractRv32im (started w x y) (multiplying w x y) :=
  atExecute_boot MulAlu.idle_idle (show ramSel base = true by decide) rfl rfl

/-- `mulh` of the most negative number with itself. -/
theorem rv32im_multiply_mulh :
    (∃ N ≤ 34,
      AtRelease contractRv32im ((System.machine rv32im).run
        (started mulhWord (BitVec.intMin 32) (BitVec.intMin 32))
        (Mealy.inputs (fun _ => calmInput) N))
        ((multiplying mulhWord (BitVec.intMin 32) (BitVec.intMin 32)).next rv32im
          contractRv32im 0) ∧
      ((System.machine rv32im).run (started mulhWord (BitVec.intMin 32) (BitVec.intMin 32))
        (Mealy.inputs (fun _ => calmInput) N)).core.regs 1 = 0x40000000) ∧
    ∀ pc o, Sim.action mulhWord pc o = .write (MulInstr.mulh.spec o.x o.y) := by
  have hop : MulInstr.mulh.Encodes
      (multiplying mulhWord (BitVec.intMin 32) (BitVec.intMin 32)).fetch := by
    decide +kernel
  obtain ⟨⟨N, hN, hrel, hiff⟩, hsim⟩ := rv32im_multiply
    (atExecute_started mulhWord (BitVec.intMin 32) (BitVec.intMin 32)) hop
    (x := fun _ => calmInput) (fun _ => rfl)
  have hword : (multiplying mulhWord (BitVec.intMin 32) (BitVec.intMin 32)).fetch = mulhWord := by
    decide +kernel
  rw [hword] at hiff hsim
  refine ⟨⟨N, hN, hrel, ?_⟩, hsim⟩
  rw [hiff.mpr (.inr (fun h => nomatch h))]
  decide +kernel

/-- `mulhsu` of -1 and 1 leaves 0 instead of -1. -/
theorem rv32im_multiply_mulhsu :
    MulInstr.mulhsu.Encodes (multiplying mulhsuWord (-1) 1).fetch ∧
    AtExecute contractRv32im (started mulhsuWord (-1) 1) (multiplying mulhsuWord (-1) 1) ∧
    MulInstr.mulhsu.spec (-1) 1 = -1 ∧
    ((System.machine rv32im).run (started mulhsuWord (-1) 1)
      (Mealy.inputs (fun _ => calmInput) 40)).core.regs 1 = 0 :=
  ⟨by decide +kernel, atExecute_started _ _ _, by decide, by decide +kernel⟩

end HfRisc.Results
