import HfRisc.Mips.AluSpec

/-!
# What the MIPS circuit does with an instruction

`circuitOutcome` is the outcome of the instruction set but for two rows: `SLTIU`
compares with an immediate extended by zeros, and `JALR` links in register 31
whatever its `rd` field says. `outcome_of_decodes` proves that the execute stage has
this outcome for every instruction of the core.
-/

namespace HfRisc.Mips

open HfRisc.Lib
open HfRisc.Rtl (readReg laneBytes writeRam wordIndex swapBytes commitMem)
open HfRisc.Isa (LoadOp StoreOp Aligned lane memOf byte_memOf byte_add offset_cases
  offset_of_aligned2 offset_of_aligned4)

variable {n : ℕ} {σ : Seq n}

/-- What the circuit does. -/
def circuitOutcome (a : Isa.State n) : Instr → Outcome
  | .jalr _ rs => ⟨written 31 (a.pc + 8), some (a.get rs), []⟩
  | .imm op rt rs imm => ⟨written rt (op.circuit (a.get rs) imm), none, []⟩
  | i => outcome a i

theorem get_toIsa (r : BitVec 5) : σ.toIsa.get r = readReg σ.regs r := by
  rw [Isa.State.get, readReg, ite_not]
  rfl

/-! ## Bytes and lanes -/

/-- The RISC-V execute stage with the data access of `e`. -/
def Execute.access (e : Execute) : Rtl.Execute :=
  { Rtl.decode Rtl.controlRv32i 0 with
    ctl := { Rtl.Control.others with
      memWrite := e.ctl.memWrite, memRead := e.ctl.memRead, sigRead := e.ctl.signedRd } }

section Lanes

variable (e : Execute)

theorem dataW_eq (a : Word) : e.dataW a = e.access.dataW a := rfl

theorem ext32b_eq (v : BitVec 8) :
    e.ext32b (0#24 ++ v) = if e.ctl.signedRd then v.signExtend 32 else v.setWidth 32 :=
  Isa.ext32b_eq e.access v

theorem ext32h_eq (v : BitVec 16) :
    e.ext32h (0#16 ++ v) = if e.ctl.signedRd then v.signExtend 32 else v.setWidth 32 :=
  Isa.ext32h_eq e.access v

variable {e}

theorem dataInS_byte (h : e.ctl.memRead = 0b01) (a d : Word) :
    e.dataInS a d = 0#24 ++ lane (Isa.offset a) d := by
  rw [Execute.dataInS, if_pos h]
  rcases offset_cases a with ho | ho | ho | ho <;>
    rw [ho] <;> rw [Isa.offset] at ho <;> simp [ho, lane]

/-- The lanes of a half word, the first byte highest. -/
theorem dataInS_half (h : e.ctl.memRead = 0b10) {a : Word} (ha : Aligned 2 a) (d : Word) :
    e.dataInS a d = 0#16 ++ (lane (Isa.offset a) d ++ lane (Isa.offset a + 1) d) := by
  have hbit : a.getLsbD 1 = (Isa.offset a).getLsbD 1 := by simp [Isa.offset]
  rw [Execute.dataInS, if_neg (by rw [h]; decide), if_pos h, hbit]
  rcases offset_of_aligned2 ha with ho | ho
  · rw [ho]
    apply BitVec.eq_of_toNat_eq
    simp only [lane]
    simp
    rw [toNat_append, toNat_append, toNat_append, toNat_extract, toNat_extract, toNat_extract]
    omega
  · rw [ho]
    apply BitVec.eq_of_toNat_eq
    simp only [lane]
    simp
    rw [toNat_append, toNat_append, toNat_append, toNat_extract, toNat_extract, toNat_extract]
    omega

end Lanes

/-- An aligned word, its first byte highest, is the bus word. -/
theorem loadValue_word {a : Word} (ha : Aligned 4 a) :
    loadValue σ.toIsa.byte a .lw = σ.ram (wordIndex n a) := by
  have h₀ : σ.toIsa.byte a = lane (Isa.offset a) (σ.ram (wordIndex n a)) :=
    byte_memOf σ.regs σ.pc σ.ram a
  have h₁ := byte_add σ.regs σ.pc σ.ram (.inr rfl) ha 1 (by omega)
  have h₂ := byte_add σ.regs σ.pc σ.ram (.inr rfl) ha 2 (by omega)
  have h₃ := byte_add σ.regs σ.pc σ.ram (.inr rfl) ha 3 (by omega)
  rw [offset_of_aligned4 ha] at h₀ h₁ h₂ h₃
  calc loadValue σ.toIsa.byte a .lw
      = lane 0 (σ.ram (wordIndex n a)) ++ lane 1 (σ.ram (wordIndex n a)) ++
          lane 2 (σ.ram (wordIndex n a)) ++ lane 3 (σ.ram (wordIndex n a)) := by
        rw [loadValue, h₀]
        exact congrArg₂ _ (congrArg₂ _ (congrArg₂ _ rfl h₁) h₂) h₃
    _ = σ.ram (wordIndex n a) := append_bytes _

/-- What a load writes back is the value of the instruction set. -/
theorem writeData_load {op : LoadOp} {e : Execute} (hctl : e.ctl = .load op.width (signedRd op))
    {a : Word} (ha : Aligned op.size a) (pc : Word) :
    e.writeData a (σ.ram (wordIndex n a)) pc = loadValue σ.toIsa.byte a op := by
  have hread : e.ctl.memRead = op.width := by rw [hctl]; rfl
  have hsign : e.ctl.signedRd = signedRd op := by rw [hctl]; rfl
  have hbyte : σ.toIsa.byte a = lane (Isa.offset a) (σ.ram (wordIndex n a)) :=
    byte_memOf σ.regs σ.pc σ.ram a
  have hsecond : Aligned 2 a →
      σ.toIsa.byte (a + 1) = lane (Isa.offset a + 1) (σ.ram (wordIndex n a)) := fun h =>
    byte_add σ.regs σ.pc σ.ram (.inl rfl) h 1 (by omega)
  rw [Execute.writeData]
  cases op with
  | lb =>
    replace hread : e.ctl.memRead = 0b01 := hread
    rw [if_neg (by rw [hread]; decide), if_pos hread, dataInS_byte hread, ext32b_eq, hsign, ← hbyte]
    rfl
  | lbu =>
    replace hread : e.ctl.memRead = 0b01 := hread
    rw [if_neg (by rw [hread]; decide), if_pos hread, dataInS_byte hread, ext32b_eq, hsign, ← hbyte]
    rfl
  | lh =>
    replace hread : e.ctl.memRead = 0b10 := hread
    rw [if_neg (by rw [hread]; decide), if_neg (by rw [hread]; decide), if_pos hread,
      dataInS_half hread ha, ext32h_eq, hsign, ← hbyte, ← hsecond ha]
    rfl
  | lhu =>
    replace hread : e.ctl.memRead = 0b10 := hread
    rw [if_neg (by rw [hread]; decide), if_neg (by rw [hread]; decide), if_pos hread,
      dataInS_half hread ha, ext32h_eq, hsign, ← hbyte, ← hsecond ha]
    rfl
  | lw =>
    replace hread : e.ctl.memRead = 0b11 := hread
    rw [if_pos hread, loadValue_word ha, Execute.dataInS, if_neg (by rw [hread]; decide),
      if_neg (by rw [hread]; decide)]

/-- The word a little endian machine stores with the same bytes. -/
def reversed (v : Word) : StoreOp → Word
  | .sb => v
  | .sh => 0#8 ++ 0#8 ++ v.extractLsb' 0 8 ++ v.extractLsb' 8 8
  | .sw => swapBytes v

theorem storeBytes_eq (op : StoreOp) (a v : Word) :
    storeBytes a v op = op.bytes a (reversed v op) := by
  cases op with
  | sb => rfl
  | sh => rw [storeBytes, StoreOp.bytes, reversed, byte0, byte1]
  | sw => rw [storeBytes, StoreOp.bytes, reversed, swapBytes, byte0, byte1, byte2, byte3]

theorem dataOut_eq {op : StoreOp} {e : Execute} (hctl : e.ctl = .store op.width) (v : Word) :
    e.dataOut v = e.access.dataOut (reversed v op) := by
  have hwrite : e.ctl.memWrite = op.width := by rw [hctl]; rfl
  have haccess : e.access.ctl.memWrite = op.width := hwrite
  rw [Execute.dataOut, Rtl.Execute.dataOut, hwrite, haccess]
  cases op with
  | sb => rw [if_pos (by rfl), if_pos (by rfl), reversed]
  | sh =>
    rw [if_neg (by decide), if_pos (by rfl), if_neg (by decide), if_pos (by rfl), reversed, byte0,
      byte1]
    apply BitVec.eq_of_toNat_eq
    simp only [toNat_append, toNat_extract]
    omega
  | sw =>
    rw [if_neg (by decide), if_neg (by decide), if_neg (by decide), if_neg (by decide)]
    exact (Rtl.swapBytes_swapBytes v).symm

/-- A store drives the bytes of the instruction set on their lanes. -/
theorem laneBytes_store {op : StoreOp} {e : Execute} (hctl : e.ctl = .store op.width) {a : Word}
    (ha : Aligned op.size a) (v : Word) :
    laneBytes a (e.dataW a) (e.dataOut v) = storeBytes a v op := by
  have hwrite : e.access.ctl.memWrite = op.width := by
    show e.ctl.memWrite = op.width
    rw [hctl]
    rfl
  have hst : Isa.Stores 0 a (reversed v op) op (e.dataW a) (e.dataOut v) := by
    rw [dataW_eq, dataOut_eq hctl]
    cases op with
    | sb => exact Isa.stores_sb _ hwrite a
    | sh => exact Isa.stores_sh _ hwrite ha
    | sw => exact Isa.stores_sw _ hwrite ha
  have heffect := hst.effect
  rw [storeBytes_eq]
  rw [commitMem] at heffect
  split at heffect
  · exact Commit.mem.inj (List.cons.inj heffect).1
  · cases heffect

/-! ## Rows without data access -/

section Quiet

/-- The register takes the result or the link. -/
theorem outcome_quiet (hread : σ.ex.ctl.memRead = 0) (hload : σ.ex.ctl.memToReg = false)
    (hstore : σ.ex.ctl.regToMem = false) :
    σ.outcome = ⟨if σ.ex.ctl.regWrite then
      written σ.ex.target (if σ.ex.ctl.brLink then σ.pc + 8 else σ.result) else none,
      σ.ex.redirect σ.regs (σ.pc + 4), []⟩ := by
  have hval : σ.value = if σ.ex.ctl.brLink then σ.pc + 8 else σ.result := by
    simp [Seq.value, Execute.writeData, hread]
  rw [Seq.outcome, Seq.writes, hload, Bool.or_false, Execute.writeReg, if_pos hload, hval, hstore]
  rfl

theorem redirect_straight {e : Execute} (hjump : e.ctl.jump = 0) (hbranch : e.ctl.branch = 0)
    (regs : BitVec 5 → Word) (pc : Word) : e.redirect regs pc = none := by
  simp [Execute.redirect, Execute.branchTaken, Execute.jumpTaken, hjump, hbranch]

theorem redirect_jump {e : Execute} (hjump : e.ctl.jump ≠ 0) (hbranch : e.ctl.branch = 0)
    (regs : BitVec 5 → Word) (pc : Word) : e.redirect regs pc = some (e.jump regs pc) := by
  have htaken : e.jumpTaken = true := bne_iff_ne.mpr hjump
  simp [Execute.redirect, Execute.branchTaken, hbranch, htaken]

theorem redirect_branch {e : Execute} (hjump : e.ctl.jump = 0) (regs : BitVec 5 → Word)
    (pc : Word) :
    e.redirect regs pc = if e.branchTaken regs then some (e.branch pc) else none := by
  have htaken : e.jumpTaken = false := by rw [Execute.jumpTaken, hjump]; rfl
  simp [Execute.redirect, htaken]

/-- A computation: the result goes to the target register. -/
theorem outcome_compute {c : Control} (hctl : σ.ex.ctl = c) (hread : c.memRead = 0)
    (hload : c.memToReg = false) (hstore : c.regToMem = false) (hwrite : c.regWrite = true)
    (hlink : c.brLink = false) (hjump : c.jump = 0) (hbranch : c.branch = 0) {k : BitVec 5}
    {v : Word} (hk : σ.ex.target = k) (hv : σ.result = v) :
    σ.outcome = ⟨written k v, none, []⟩ := by
  subst hctl
  rw [outcome_quiet hread hload hstore, redirect_straight hjump hbranch, hwrite, hlink, hk, hv]
  rfl

theorem branch_eq {e : Execute} (hsigned : e.ctl.signedImm = true) (pc : Word) :
    e.branch (pc + 4) = branchTarget pc e.imm := by
  rw [Execute.branch, ext32_eq, if_pos hsigned, append_zeros, branchTarget, BitVec.add_comm]

/-- The fields of a jump are its index. -/
theorem jump_eq {e : Execute} (hjump : e.ctl.jump ≠ 0b10) {w : Word} (hrs : e.rs = rs w)
    (hrt : e.rt = rt w) (himm : e.imm = imm w) (regs : BitVec 5 → Word) (pc : Word) :
    e.jump regs (pc + 4) = jumpTarget pc (jumpIndex w) := by
  rw [Execute.jump, if_neg hjump, jumpTarget, hrs, hrt, himm, rs, rt, imm, jumpIndex]
  apply BitVec.eq_of_toNat_eq
  simp only [toNat_append, toNat_extract]
  omega

end Quiet

/-! ## The instructions -/

section Rows

theorem ctl_ex (σ : Seq n) :
    σ.ex.ctl = control (opcode σ.fetch) (funct σ.fetch) (rt σ.fetch) := rfl

/-- A link goes to register 31. -/
theorem rd_ex (σ : Seq n) : σ.ex.rd = if σ.ex.ctl.brLink then 31 else rd σ.fetch := rfl

/-- The shift amount in the immediate, below the bits of the extension. -/
theorem shamt_ext32 (σ : Seq n) : σ.ex.ext32.extractLsb' 6 5 = shamt σ.fetch := by
  have himm : σ.ex.imm = σ.fetch.extractLsb' 0 16 := rfl
  have hlow : ∀ x : Word, x.setWidth 16 = σ.ex.imm → x.extractLsb' 6 5 = shamt σ.fetch := by
    intro x hx
    have hx' : x.toNat % 2 ^ 16 = σ.fetch.toNat % 2 ^ 16 := by
      have h := congrArg BitVec.toNat (hx.trans himm)
      rwa [BitVec.toNat_setWidth, toNat_extract, Nat.pow_zero, Nat.div_one] at h
    apply BitVec.eq_of_toNat_eq
    rw [shamt, toNat_extract, toNat_extract]
    omega
  rw [ext32_eq]
  split
  · exact hlow _ (setWidth_signExtend _ (by decide))
  · exact hlow _ (by rw [BitVec.setWidth_setWidth_of_le _ (by decide), BitVec.setWidth_eq])

theorem outcome_shift {op : ShiftOp} (hctl : σ.ex.ctl = .shiftRow true op.code) :
    σ.outcome = outcome σ.toIsa
      (.shift op (rd σ.fetch) (rt σ.fetch) (shamt σ.fetch)) := by
  have hread : σ.ex.readReg1 = rt σ.fetch := by
    rw [Execute.readReg1, hctl]
    rfl
  have hsrc : σ.ex.aluSrc σ.regs = σ.ex.ext32 := by
    rw [Execute.aluSrc, hctl]
    rfl
  have hres : σ.result = op.eval (shamt σ.fetch).toNat (σ.toIsa.get (rt σ.fetch)) := by
    rw [Seq.result, Execute.aluOut, hread, hsrc, hctl, ← shamt_ext32, get_toIsa]
    exact alu_shift _ _ op
  have htarget : σ.ex.target = rd σ.fetch := by
    rw [Execute.target, rd_ex, hctl]
    rfl
  exact outcome_compute hctl rfl rfl rfl rfl rfl rfl rfl htarget hres

theorem outcome_shiftV {op : ShiftOp} (hctl : σ.ex.ctl = .shiftRow false op.codeV) :
    σ.outcome = outcome σ.toIsa (.shiftV op (rd σ.fetch) (rt σ.fetch) (rs σ.fetch)) := by
  have hread₁ : σ.ex.readReg1 = rt σ.fetch := by
    rw [Execute.readReg1, hctl]
    rfl
  have hread₂ : σ.ex.readReg2 = rs σ.fetch := by
    rw [Execute.readReg2, hctl]
    rfl
  have hsrc : σ.ex.aluSrc σ.regs = readReg σ.regs (rs σ.fetch) := by
    rw [Execute.aluSrc, hread₂, hctl]
    rfl
  have hres : σ.result =
      op.eval ((σ.toIsa.get (rs σ.fetch)).toNat % 32) (σ.toIsa.get (rt σ.fetch)) := by
    rw [Seq.result, Execute.aluOut, hread₁, hsrc, hctl, get_toIsa, get_toIsa]
    exact alu_shiftV _ _ op
  have htarget : σ.ex.target = rd σ.fetch := by
    rw [Execute.target, rd_ex, hctl]
    rfl
  exact outcome_compute hctl rfl rfl rfl rfl rfl rfl rfl htarget hres

theorem outcome_reg {op : RegOp} (hctl : σ.ex.ctl = .register op.code) :
    σ.outcome = outcome σ.toIsa (.reg op (rd σ.fetch) (rs σ.fetch) (rt σ.fetch)) := by
  have hread₁ : σ.ex.readReg1 = rs σ.fetch := by
    rw [Execute.readReg1, hctl]
    rfl
  have hread₂ : σ.ex.readReg2 = rt σ.fetch := by
    rw [Execute.readReg2, hctl]
    rfl
  have hsrc : σ.ex.aluSrc σ.regs = readReg σ.regs (rt σ.fetch) := by
    rw [Execute.aluSrc, hread₂, hctl]
    rfl
  have hres : σ.result = op.eval (σ.toIsa.get (rs σ.fetch)) (σ.toIsa.get (rt σ.fetch)) := by
    rw [Seq.result, Execute.aluOut, hread₁, hsrc, hctl, get_toIsa, get_toIsa]
    exact alu_reg _ _ op
  have htarget : σ.ex.target = rd σ.fetch := by
    rw [Execute.target, rd_ex, hctl]
    rfl
  exact outcome_compute hctl rfl rfl rfl rfl rfl rfl rfl htarget hres

/-- With an immediate the destination is `rt`. -/
theorem outcome_imm {op : ImmOp} (hctl : σ.ex.ctl = .immediate op.signed op.code) :
    σ.outcome = circuitOutcome σ.toIsa (.imm op (rt σ.fetch) (rs σ.fetch) (imm σ.fetch)) := by
  have hread₁ : σ.ex.readReg1 = rs σ.fetch := by
    rw [Execute.readReg1, hctl]
    rfl
  have hsrc : σ.ex.aluSrc σ.regs = σ.ex.ext32 := by
    rw [Execute.aluSrc, hctl]
    rfl
  have hres : σ.result = op.circuit (σ.toIsa.get (rs σ.fetch)) (imm σ.fetch) := by
    rw [Seq.result, Execute.aluOut, hread₁, hsrc, ext32_eq, hctl, get_toIsa]
    exact alu_imm _ op _
  have htarget : σ.ex.target = rt σ.fetch := by
    rw [Execute.target, hctl]
    rfl
  exact outcome_compute hctl rfl rfl rfl rfl rfl rfl rfl htarget hres

/-- The first operand of a row that does not shift. -/
theorem readReg1_ex (h : σ.ex.ctl.shift = false) : σ.ex.readReg1 = rs σ.fetch := if_pos h

theorem outcome_jr (hctl : σ.ex.ctl = .jumpTo 0b10) :
    σ.outcome = circuitOutcome σ.toIsa (.jr (rs σ.fetch)) := by
  have hjump : σ.ex.jump σ.regs (σ.pc + 4) = σ.toIsa.get (rs σ.fetch) := by
    rw [Execute.jump, readReg1_ex (by rw [hctl]; rfl), hctl, get_toIsa]
    rfl
  rw [outcome_quiet (by rw [hctl]; rfl) (by rw [hctl]; rfl) (by rw [hctl]; rfl),
    redirect_jump (by rw [hctl]; decide) (by rw [hctl]; rfl), hjump, hctl]
  rfl

/-- The link goes to register 31 whatever `rd` says. -/
theorem outcome_jalr (hctl : σ.ex.ctl = .jumpLink 0b10) :
    σ.outcome = circuitOutcome σ.toIsa (.jalr (rd σ.fetch) (rs σ.fetch)) := by
  have hjump : σ.ex.jump σ.regs (σ.pc + 4) = σ.toIsa.get (rs σ.fetch) := by
    rw [Execute.jump, readReg1_ex (by rw [hctl]; rfl), hctl, get_toIsa]
    rfl
  have htarget : σ.ex.target = 31 := by
    rw [Execute.target, rd_ex, hctl]
    rfl
  rw [outcome_quiet (by rw [hctl]; rfl) (by rw [hctl]; rfl) (by rw [hctl]; rfl),
    redirect_jump (by rw [hctl]; decide) (by rw [hctl]; rfl), hjump, htarget, hctl]
  rfl

theorem outcome_j (hctl : σ.ex.ctl = .jumpTo 0b01) :
    σ.outcome = circuitOutcome σ.toIsa (.j (jumpIndex σ.fetch)) := by
  rw [outcome_quiet (by rw [hctl]; rfl) (by rw [hctl]; rfl) (by rw [hctl]; rfl),
    redirect_jump (by rw [hctl]; decide) (by rw [hctl]; rfl),
    jump_eq (by rw [hctl]; decide) rfl rfl rfl, hctl]
  rfl

theorem outcome_jal (hctl : σ.ex.ctl = .jumpLink 0b01) :
    σ.outcome = circuitOutcome σ.toIsa (.jal (jumpIndex σ.fetch)) := by
  have htarget : σ.ex.target = 31 := by
    rw [Execute.target, rd_ex, hctl]
    rfl
  rw [outcome_quiet (by rw [hctl]; rfl) (by rw [hctl]; rfl) (by rw [hctl]; rfl),
    redirect_jump (by rw [hctl]; decide) (by rw [hctl]; rfl),
    jump_eq (by rw [hctl]; decide) rfl rfl rfl, htarget, hctl]
  rfl

/-- The ALU in a branch, which subtracts. -/
theorem aluOut_branch {k : BitVec 3} (hctl : σ.ex.ctl = .branchOn k ∨ σ.ex.ctl = .branchLink k) :
    σ.ex.aluOut σ.regs =
      alu (σ.toIsa.get (rs σ.fetch)) (readReg σ.regs σ.ex.readReg2) 0b0101 := by
  rw [Execute.aluOut, get_toIsa]
  rcases hctl with hctl | hctl
  · rw [readReg1_ex (by rw [hctl]; rfl), Execute.aluSrc, hctl]
    rfl
  · rw [readReg1_ex (by rw [hctl]; rfl), Execute.aluSrc, hctl]
    rfl

theorem outcome_pair {op : PairOp} (hctl : σ.ex.ctl = .branchOn op.kind) :
    σ.outcome = circuitOutcome σ.toIsa
      (.branch op (rs σ.fetch) (rt σ.fetch) (imm σ.fetch)) := by
  have hread : σ.ex.readReg2 = rt σ.fetch := by
    rw [Execute.readReg2, hctl]
    cases op <;> rfl
  have hout := aluOut_branch (.inl hctl)
  rw [hread, ← get_toIsa] at hout
  have htaken : σ.ex.branchTaken σ.regs = _ := taken_pair (by rw [hctl]; rfl) hout
  rw [outcome_quiet (by rw [hctl]; rfl) (by rw [hctl]; rfl) (by rw [hctl]; rfl),
    redirect_branch (by rw [hctl]; rfl), htaken, branch_eq (by rw [hctl]; rfl), hctl]
  rfl

/-- The second operand of a comparison with zero. -/
theorem readReg2_zero {op : ZeroOp} {e : Execute} (h : e.ctl.branch = op.kind) :
    e.readReg2 = 0 := by
  rw [Execute.readReg2, h]
  cases op <;> rfl

theorem outcome_zero {op : ZeroOp} (hctl : σ.ex.ctl = .branchOn op.kind) :
    σ.outcome = circuitOutcome σ.toIsa (.branchZero op (rs σ.fetch) (imm σ.fetch)) := by
  have hout := aluOut_branch (.inl hctl)
  have hbranch : σ.ex.ctl.branch = op.kind := by rw [hctl]; rfl
  rw [readReg2_zero hbranch] at hout
  have htaken : σ.ex.branchTaken σ.regs = _ := taken_zero hbranch hout
  rw [outcome_quiet (by rw [hctl]; rfl) (by rw [hctl]; rfl) (by rw [hctl]; rfl),
    redirect_branch (by rw [hctl]; rfl), htaken, branch_eq (by rw [hctl]; rfl), hctl]
  rfl

/-- The link is written whether the branch is taken or not. -/
theorem outcome_link {op : ZeroOp} (hctl : σ.ex.ctl = .branchLink op.kind) :
    σ.outcome = circuitOutcome σ.toIsa (.branchLink op (rs σ.fetch) (imm σ.fetch)) := by
  have hout := aluOut_branch (.inr hctl)
  have hbranch : σ.ex.ctl.branch = op.kind := by rw [hctl]; rfl
  rw [readReg2_zero hbranch] at hout
  have htaken : σ.ex.branchTaken σ.regs = _ := taken_zero hbranch hout
  have htarget : σ.ex.target = 31 := by
    rw [Execute.target, rd_ex, hctl]
    rfl
  rw [outcome_quiet (by rw [hctl]; rfl) (by rw [hctl]; rfl) (by rw [hctl]; rfl),
    redirect_branch (by rw [hctl]; rfl), htaken, branch_eq (by rw [hctl]; rfl), htarget, hctl]
  rfl

/-! ### Loads and stores -/

/-- The address of a data access. -/
theorem result_access (hsrc : σ.ex.ctl.aluSrc = true) (hop : σ.ex.ctl.aluOp = 0b0100)
    (hsigned : σ.ex.ctl.signedImm = true) (hshift : σ.ex.ctl.shift = false) :
    σ.result = σ.toIsa.get (rs σ.fetch) + (imm σ.fetch).signExtend 32 := by
  have hext : σ.ex.aluSrc σ.regs = (imm σ.fetch).signExtend 32 := by
    rw [Execute.aluSrc, if_neg (by rw [hsrc]; decide), ext32_eq, if_pos hsigned]
    rfl
  rw [Seq.result, Execute.aluOut, readReg1_ex hshift, hext, hop, get_toIsa]
  exact Rtl.addsub_add _ _

theorem outcome_load {op : LoadOp} (hctl : σ.ex.ctl = .load op.width (signedRd op))
    (hok : AccessOk σ.toIsa (.load op (rt σ.fetch) (rs σ.fetch) (imm σ.fetch))) :
    σ.outcome = circuitOutcome σ.toIsa (.load op (rt σ.fetch) (rs σ.fetch) (imm σ.fetch)) := by
  have hres := result_access (σ := σ) (by rw [hctl]; rfl) (by rw [hctl]; rfl) (by rw [hctl]; rfl)
    (by rw [hctl]; rfl)
  have hwrites : σ.writes = true := by
    rw [Seq.writes, hctl]
    rfl
  have hreg : σ.ex.writeReg = rt σ.fetch := by
    rw [Execute.writeReg, hctl]
    rfl
  have hval : σ.value = loadValue σ.toIsa.byte σ.result op :=
    writeData_load hctl (by rw [hres]; exact hok.2) _
  rw [Seq.outcome, hwrites, hreg, hval, hres,
    redirect_straight (by rw [hctl]; rfl) (by rw [hctl]; rfl), hctl]
  rfl

theorem outcome_store {op : StoreOp} (hctl : σ.ex.ctl = .store op.width)
    (hok : AccessOk σ.toIsa (.store op (rt σ.fetch) (rs σ.fetch) (imm σ.fetch))) :
    σ.outcome = circuitOutcome σ.toIsa (.store op (rt σ.fetch) (rs σ.fetch) (imm σ.fetch)) := by
  have hres := result_access (σ := σ) (by rw [hctl]; rfl) (by rw [hctl]; rfl) (by rw [hctl]; rfl)
    (by rw [hctl]; rfl)
  have hwrites : σ.writes = false := by
    rw [Seq.writes, hctl]
    rfl
  have hread : σ.ex.readReg2 = rt σ.fetch := by
    rw [Execute.readReg2, hctl]
    rfl
  have hbytes : laneBytes σ.result σ.lanes σ.data =
      storeBytes σ.result (σ.toIsa.get (rt σ.fetch)) op := by
    rw [Seq.lanes, Seq.data, hread, get_toIsa]
    exact laneBytes_store hctl (by rw [hres]; exact hok.2) _
  rw [Seq.outcome, hwrites, hbytes, hres,
    redirect_straight (by rw [hctl]; rfl) (by rw [hctl]; rfl), hctl]
  rfl

/-- Every instruction of the core has the outcome of the circuit. -/
theorem outcome_of_decodes {i : Instr} (h : Decodes σ.fetch i) (hok : AccessOk σ.toIsa i) :
    σ.outcome = circuitOutcome σ.toIsa i := by
  cases h with
  | jr ho hf => exact outcome_jr (by rw [ctl_ex, ho, hf]; rfl)
  | jalr ho hf => exact outcome_jalr (by rw [ctl_ex, ho, hf]; rfl)
  | shift ho hf => exact outcome_shift (by rw [ctl_ex, ho, row_shift hf])
  | shiftV ho hf => exact outcome_shiftV (by rw [ctl_ex, ho, row_shiftV hf])
  | reg ho hf => exact outcome_reg (by rw [ctl_ex, ho, row_reg hf])
  | sign ho hf => exact outcome_zero (by rw [ctl_ex, ho, row_sign hf])
  | link ho hf => exact outcome_link (by rw [ctl_ex, ho, row_link hf])
  | j ho => exact outcome_j (by rw [ctl_ex, ho]; rfl)
  | jal ho => exact outcome_jal (by rw [ctl_ex, ho]; rfl)
  | pair ho => exact outcome_pair (by rw [ctl_ex, row_pair ho])
  | zero ho => exact outcome_zero (by rw [ctl_ex, row_zero ho])
  | imm ho => exact outcome_imm (by rw [ctl_ex, row_imm ho])
  | load ho => exact outcome_load (by rw [ctl_ex, row_load ho]) hok
  | store ho => exact outcome_store (by rw [ctl_ex, row_store ho]) hok

end Rows

end HfRisc.Mips
