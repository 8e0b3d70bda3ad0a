import HfRisc.Crt.Isr
import HfRisc.Pipe.CoreI
import HfRisc.Pipe.Straight

/-!
# From the vector to the call of a handler

The first half of the routine (`crt0.s` 46-74 and 100-107), executed on the rv32i pipeline
with interrupts off: it saves the registers and the rolled back `IRQ_EPC` in a frame of 17
words (`enter_read`), reads `IRQ_CAUSE` and `IRQ_MASK`, and calls `irq_handler` when an
enabled line is high in the cycle of the first read, `exception_handler` otherwise
(`enter_dispatch`). Behind the call the registers are restored up to the store of
`IRQ_STATUS` (`leave_store`, `crt0.s` 79-97). Each step of a run is one of the lemmas on
single instructions, and the rows of stores and loads are taken in one go by what all of
their words have in common (`Saves`, `Spares`).
-/

namespace HfRisc.Crt

open HfRisc.Rtl HfRisc.Lib HfRisc.Isa HfRisc.Pipe

variable {n : ℕ} {s : System n Unit} {x : ℕ → Input} {k m : ℕ} {σ : Seq n}
  {R : BitVec 5 → Word} {M : BitVec n → Word} {a w w' v f : Word} {l : List Word}

/-! ## Single instructions -/

/-- Register 0 is not written. -/
theorem writeReg_zero (u : Word) : writeReg R 0 u = R := by
  funext r
  exact if_neg fun h => h.1 rfl

/-- Straight, and no access to memory. -/
def Plain (w : Word) : Prop :=
  Straight contractRv32i (decode controlRv32i w) ∧ (decode controlRv32i w).dataAccess = false

instance (w : Word) : Decidable (Plain w) := inferInstanceAs (Decidable (_ ∧ _))

/-- The word fetched at position `m` of the code. -/
theorem fetch_at (hcode : Code M a l) (hw : l[m]? = some w) :
    Seq.fetch ⟨R, wordAt a m, M⟩ = w := (hcode.get hw).2

/-- And what the decoder makes of it. -/
theorem ex_at (hcode : Code M a l) (hw : l[m]? = some w) :
    Seq.ex rv32i ⟨R, wordAt a m, M⟩ = decode controlRv32i w := by
  rw [Seq.ex, fetch_at hcode hw]
  rfl

/-- The next word of the code lies in the RAM. -/
theorem ramSel_next (hcode : Code M a l) (hnext : l[m + 1]? = some w') :
    ramSel (wordAt a m + 4) = true := by
  rw [wordAt_succ]
  exact (hcode.get hnext).1

/-- An instruction that neither reads nor writes leaves the memory port alone. -/
theorem noAccess (hread : (σ.ex rv32i).ctl.memRead = 0) (hwrite : (σ.ex rv32i).ctl.memWrite = 0) :
    (σ.ex rv32i).dataAccess = false := by
  rw [Execute.dataAccess, Seq.memToReg_eq_false.mpr hread, Seq.regToMem_eq_false.mpr hwrite]
  rfl

/-- The address of a load. -/
theorem result_load {b : Bool} (hw : σ.fetch = w)
    (hctl : (decode controlRv32i w).ctl = .load 0b11 b) :
    (σ.out rv32i contractRv32i).result = readReg σ.regs (rs1 w) + immI w := by
  have hctl' : (σ.ex rv32i).ctl = .load 0b11 b := by rw [Seq.ex, hw]; exact hctl
  rw [Seq.out, hctl', op1_eq (by rw [hctl']; rfl), op2_immI (by rw [hctl']; rfl), hw, get_ofSeq]
  exact implementsRv32i.add _ _

/-- The address of a store. -/
theorem result_store (hw : σ.fetch = w) (hctl : (decode controlRv32i w).ctl = .store 0b11) :
    (σ.out rv32i contractRv32i).result = readReg σ.regs (rs1 w) + immS w := by
  have hctl' : (σ.ex rv32i).ctl = .store 0b11 := by rw [Seq.ex, hw]; exact hctl
  rw [Seq.out, hctl', op1_eq (by rw [hctl']; rfl), op2_immS (by rw [hctl']; rfl), hw, get_ofSeq]
  exact implementsRv32i.add _ _

section Steps

variable (h : Leads contractRv32i x s k ⟨R, wordAt a m, M⟩) (hstall : ∀ j, (x j).stall = false)
  (hcode : Code M a l) (hw : l[m]? = some w) (hnext : l[m + 1]? = some w')
include h hstall hcode hw hnext

/-- A computation writes its register. -/
theorem step_write (hplain : Plain w) {i : Instr} (hdec : Isa.decode false w = some i)
    (hok : i.AccessOk (ofSeq ⟨R, wordAt a m, M⟩)) (hjalr : ∀ rd rs1 imm, i ≠ .jalr rd rs1 imm)
    {r : BitVec 5} {u : Word}
    (hi : (ofSeq ⟨R, wordAt a m, M⟩).outcome i = ⟨some (r, u), wordAt a m + 4, []⟩) :
    Leads contractRv32i x s (k + 1) ⟨writeReg R r u, wordAt a (m + 1), M⟩ := by
  have hex := ex_at (R := R) hcode hw
  obtain ⟨⟨hfast, hjump, hbranch⟩, hacc⟩ := hplain
  rw [← hex] at hfast hjump hbranch hacc
  have hlead := h.plain hstall hfast hacc hjump (Execute.except_of_branch_zero hbranch)
    (Seq.taken_of_straight hjump hbranch) (ramSel_next hcode hnext) 0
  have hfetch := fetch_at (R := R) hcode hw
  have hperf := performs_outcome (L := contractRv32i) implementsRv32i
    (σ := ⟨R, wordAt a m, M⟩) (by rw [hfetch]; exact hdec) hok hjalr
  rw [hi] at hperf
  have hσ : Seq.next rv32i contractRv32i ⟨R, wordAt a m, M⟩ 0 =
      ⟨writeReg R r u, wordAt a (m + 1), M⟩ := by
    ext1
    · exact congrArg State.regs (hperf 0).1
    · exact (congrArg State.pc (hperf 0).1).trans (wordAt_succ a m)
    · exact Seq.next_ram_of_noStore (Seq.noStore hacc) 0
  rw [← hσ]
  exact hlead

/-- `lui`. -/
theorem step_lui (r : BitVec 5) (imm : Word) (hplain : Plain w)
    (hdec : Isa.decode false w = some (.lui r imm)) :
    Leads contractRv32i x s (k + 1) ⟨writeReg R r imm, wordAt a (m + 1), M⟩ :=
  step_write h hstall hcode hw hnext hplain hdec trivial nofun rfl

/-- A computation with an immediate. -/
theorem step_opImm (o : AluOp) (r r₁ : BitVec 5) (imm : Word) (hplain : Plain w)
    (hdec : Isa.decode false w = some (.opImm o r r₁ imm)) :
    Leads contractRv32i x s (k + 1)
      ⟨writeReg R r (o.eval (readReg R r₁) imm), wordAt a (m + 1), M⟩ := by
  refine step_write h hstall hcode hw hnext hplain hdec trivial nofun ?_
  rw [State.outcome, get_ofSeq]
  rfl

/-- A computation on two registers. -/
theorem step_op (o : AluOp) (r r₁ r₂ : BitVec 5) (hplain : Plain w)
    (hdec : Isa.decode false w = some (.op o r r₁ r₂)) :
    Leads contractRv32i x s (k + 1)
      ⟨writeReg R r (o.eval (readReg R r₁) (readReg R r₂)), wordAt a (m + 1), M⟩ := by
  refine step_write h hstall hcode hw hnext hplain hdec trivial nofun ?_
  rw [State.outcome, get_ofSeq, get_ofSeq]
  rfl

omit hnext in
/-- A branch on two registers that are equal. -/
theorem step_beq (m' : ℕ)
    (hctl : (decode controlRv32i w).ctl = .branchOn BranchOp.beq.code BranchOp.beq.kind)
    (heq : readReg R (rs1 w) = readReg R (rs2 w)) (himm : immB w = BitVec.ofNat 32 (4 * m'))
    (htarget : l[m + m']? = some w') :
    Leads contractRv32i x s (k + 3) ⟨R, wordAt a (m + m'), M⟩ := by
  have hfetch := fetch_at (R := R) hcode hw
  have hctl' : (Seq.ex rv32i ⟨R, wordAt a m, M⟩).ctl =
      .branchOn BranchOp.beq.code BranchOp.beq.kind := by
    rw [ex_at hcode hw, hctl]
  have hout : Seq.out rv32i contractRv32i ⟨R, wordAt a m, M⟩ =
      contractRv32i.final (readReg R (rs1 w)) (readReg R (rs2 w)) BranchOp.beq.code := by
    rw [Seq.out, hctl', op1_eq (by rw [hctl']; rfl), op2_rs2 (by rw [hctl']; rfl), hfetch,
      get_ofSeq, get_ofSeq]
    rfl
  have hbranch : (Seq.ex rv32i ⟨R, wordAt a m, M⟩).branchTaken
      (Seq.out rv32i contractRv32i ⟨R, wordAt a m, M⟩) = true := by
    rw [hout, branchTaken_eq implementsRv32i hctl', heq]
    exact decide_eq_true rfl
  have htaken : Seq.taken rv32i contractRv32i ⟨R, wordAt a m, M⟩ = true := by
    rw [Seq.taken, hbranch, Bool.true_or]
  have hperf := performs_branch (L := contractRv32i) hctl' 0
  rw [if_pos hbranch, hfetch, himm] at hperf
  have hσ : Seq.next rv32i contractRv32i ⟨R, wordAt a m, M⟩ 0 = ⟨R, wordAt a (m + m'), M⟩ := by
    ext1
    · exact congrArg State.regs hperf.1
    · exact (congrArg State.pc hperf.1).trans (wordAt_wordAt a m m')
    · exact Seq.next_ram_of_noStore (Seq.regToMem_eq_false.mpr (by rw [hctl']; rfl)) 0
  have hlead := h.taken hstall (by rw [hctl']; rfl)
    (noAccess (by rw [hctl']; rfl) (by rw [hctl']; rfl))
    (.inl (by rw [hctl']; rfl)) htaken 0
    (by rw [hσ]; exact (hcode.get htarget).1)
  rw [hσ] at hlead
  exact hlead

omit hnext in
/-- A jump that leaves no return address. -/
theorem step_jal {m' : ℕ} (hop : opcode w = 0b1101111) (hrd : rd w = 0)
    (htarget : wordAt a m + immJ w = wordAt a m') (hword : l[m']? = some w') :
    Leads contractRv32i x s (k + 3) ⟨R, wordAt a m', M⟩ := by
  have hfetch := fetch_at (R := R) hcode hw
  have hctl : (Seq.ex rv32i ⟨R, wordAt a m, M⟩).ctl = .jumpTo 0b10 := by
    rw [ctl_eq, hfetch, hop, implementsRv32i.rows _ _ _ (by decide) (by decide)]
    rfl
  have htaken : Seq.taken rv32i contractRv32i ⟨R, wordAt a m, M⟩ = true := by
    rw [Seq.taken, Execute.jumpTaken, hctl]
    exact Bool.or_true _
  have hperf := performs_jal (L := contractRv32i) implementsRv32i (σ := ⟨R, wordAt a m, M⟩)
    (by rw [hfetch, hop]) 0
  rw [hfetch, hrd] at hperf
  have hσ : Seq.next rv32i contractRv32i ⟨R, wordAt a m, M⟩ 0 = ⟨R, wordAt a m', M⟩ := by
    ext1
    · exact (congrArg State.regs hperf.1).trans (writeReg_zero (wordAt a m + 4))
    · exact (congrArg State.pc hperf.1).trans htarget
    · exact Seq.next_ram_of_noStore (Seq.regToMem_eq_false.mpr (by rw [hctl]; rfl)) 0
  have hlead := h.taken hstall (by rw [hctl]; rfl)
    (noAccess (by rw [hctl]; rfl) (by rw [hctl]; rfl))
    (.inr (by rw [ex_at hcode hw]; exact fun hone => absurd (hrd.symm.trans hone) (by decide)))
    htaken 0 (by rw [hσ]; exact (hcode.get hword).1)
  rw [hσ] at hlead
  exact hlead

omit hstall hnext in
/-- A load takes the memory port, with its address on the bus. -/
theorem port_of_load {b : Bool} {r₁ : BitVec 5} {A : Word}
    (hctl : (decode controlRv32i w).ctl = .load 0b11 b) (hr₁ : rs1 w = r₁)
    (haddr : readReg R r₁ + immI w = A) :
    (Seq.ex rv32i ⟨R, wordAt a m, M⟩).memToReg = true ∧
      (Seq.out rv32i contractRv32i ⟨R, wordAt a m, M⟩).result = A ∧
      (after rv32i s x k).core.mwait = true ∧ (after rv32i s x k).core.address rv32i = A := by
  have hload : (Seq.ex rv32i ⟨R, wordAt a m, M⟩).memToReg = true := by
    rw [Seq.memToReg_iff, ex_at hcode hw, hctl]
    exact (by decide : (0b11 : BitVec 2) ≠ 0)
  have hresult := result_load (fetch_at (R := R) hcode hw) hctl
  rw [hr₁, haddr] at hresult
  have hmwait : (after rv32i s x k).core.mwait = true := by
    rw [h.execute.mwait, Execute.dataAccess, hload, Bool.or_true]
  refine ⟨hload, hresult, hmwait, ?_⟩
  rw [Datapath.address_eq_result hmwait,
    h.execute.aluOut (Seq.fast_of_not_slowShape (L := contractRv32i) (.inl hload)), hresult]

omit hstall hnext in
/-- A load from outside the RAM takes the word on the bus. -/
theorem next_register {b : Bool} {r r₁ : BitVec 5} {A : Word}
    (hctl : (decode controlRv32i w).ctl = .load 0b11 b) (hr : rd w = r) (hr₁ : rs1 w = r₁)
    (haddr : readReg R r₁ + immI w = A) (hsel : ramSel A = false) (io : Word) :
    Seq.next rv32i contractRv32i ⟨R, wordAt a m, M⟩ io =
      ⟨writeReg R r (swapBytes io), wordAt a (m + 1), M⟩ := by
  have hex := ex_at (R := R) hcode hw
  have hctl' : (Seq.ex rv32i ⟨R, wordAt a m, M⟩).ctl = .load 0b11 b := by rw [hex, hctl]
  obtain ⟨hload, hresult, -, -⟩ := port_of_load h hcode hw hctl hr₁ haddr
  ext1
  · have hwrites : Seq.writes rv32i ⟨R, wordAt a m, M⟩ = true := by
      rw [Seq.writes, hload, Bool.or_true]
    have hread : (Seq.ex rv32i ⟨R, wordAt a m, M⟩).ctl.memRead = 0b11 := by rw [hctl']; rfl
    have hrd : (Seq.ex rv32i ⟨R, wordAt a m, M⟩).rd = r := by
      rw [hex, ← hr]
      rfl
    have hvalue : Seq.value rv32i contractRv32i ⟨R, wordAt a m, M⟩ io = swapBytes io := by
      rw [Seq.value, Seq.loadWord, hresult, hsel, if_neg Bool.false_ne_true, Execute.writeData,
        if_pos hread, dataInS_word hread]
    simp only [Seq.next, hwrites, if_true, hrd, hvalue]
  · have hfast := Seq.fast_of_not_slowShape (L := contractRv32i) (.inl hload)
    rw [Seq.next_pc_of_straight ⟨hfast, by rw [hctl']; rfl, by rw [hctl']; rfl⟩]
    exact wordAt_succ a m
  · exact Seq.next_ram_of_noStore (Seq.regToMem_eq_false.mpr (by rw [hctl']; rfl)) _

/-- A load from a register of the controller finds what it holds in the first cycle. -/
theorem step_register {b : Bool} (r r₁ : BitVec 5) (A u : Word)
    (hctl : (decode controlRv32i w).ctl = .load 0b11 b) (hr : rd w = r) (hr₁ : rs1 w = r₁)
    (haddr : readReg R r₁ + immI w = A) (hper : A.extractLsb' 27 5 = 0b11110)
    (hu : ∀ (b : CpuBus) (d : Word), b.address = A →
      swapBytes ((after rv32i s x k).intc.readReg b d (x k).extioIn) = u) :
    Leads contractRv32i x s (k + 3) ⟨writeReg R r u, wordAt a (m + 1), M⟩ := by
  obtain ⟨hload, -, hmwait, haddress⟩ := port_of_load h hcode hw hctl hr₁ haddr
  have hlead := h.load hstall hload (ramSel_next hcode hnext)
  have hacc : ((after rv32i s x k).bus rv32i).periphAccess = true := by
    show (((after rv32i s x k).core.address rv32i).extractLsb' 27 5 == _ && _) = true
    rw [haddress, hper, show ((after rv32i s x k).bus rv32i).dataAccess = true from hmwait]
    rfl
  -- The controller answers in the second cycle.
  have hword : (after rv32i s x (k + 1)).dataIn rv32i (x (k + 1)) =
      (after rv32i s x k).intc.readReg ((after rv32i s x k).bus rv32i)
        ((after rv32i s x k).dataRead rv32i (x k)) (x k).extioIn := by
    rw [after_succ]
    simp only [System.dataIn, System.step, IntControl.dataInCpu, IntControl.step, hstall k, hacc,
      if_true, Bool.true_eq_false, if_false]
  have hsel : ramSel A = false := by
    by_contra hsel
    rw [Bool.not_eq_false, ← haddress] at hsel
    rw [periphAccess_of_ramSel (b := (after rv32i s x k).bus rv32i) hsel] at hacc
    cases hacc
  have hσ := next_register (x := x) h hcode hw hctl hr hr₁ haddr hsel
  rw [hword, hσ, hu _ _ haddress] at hlead
  exact hlead

end Steps

/-! ## The frame -/

/-- The routine at `v` and its frame of 17 words at `f`, in the RAM and apart. -/
structure Placed (n : ℕ) (v f : Word) : Prop where
  frame : ∀ j < 17, ramSel (wordAt f j) = true
  apart : ∀ m < 59, ∀ j < 17, wordIndex n (wordAt v m) ≠ wordIndex n (wordAt f j)

/-- In the routine `l`, with its frame on the stack. -/
structure Within (v f : Word) (l : List Word) (σ : Seq n) : Prop where
  code : Code σ.ram v l
  sp : σ.regs 2 = f

/-- In the routine, with `u` in the last word of the frame. -/
structure Framed (v f u : Word) (l : List Word) (σ : Seq n) : Prop extends Within v f l σ where
  saved : swapBytes (σ.ram (wordIndex n (wordAt f 16))) = u

/-- A store of a register into the frame. -/
def Saves (w : Word) : Prop :=
  (decode controlRv32i w).ctl = .store 0b11 ∧ rs1 w = 2 ∧
    ∃ j < 17, immS w = BitVec.ofNat 32 (4 * j)

instance (w : Word) : Decidable (Saves w) := inferInstanceAs (Decidable (_ ∧ _ ∧ _))

/-- An instruction that leaves the stack pointer and the memory alone. -/
def Spares (w : Word) : Prop := (decode controlRv32i w).regToMem = false ∧ rd w ≠ 2

instance (w : Word) : Decidable (Spares w) := inferInstanceAs (Decidable (_ ∧ _))

/-- Storing in the frame keeps the routine. -/
theorem Within.saves (h : Within v f l σ) (hplaced : Placed n v f) (hl : l.length ≤ 59)
    (hw : σ.fetch = w) (hs : Saves w) :
    ramSel (σ.out rv32i contractRv32i).result = true ∧
      ∀ io, Within v f l (σ.next rv32i contractRv32i io) := by
  obtain ⟨hctl, hr, j, hj, himm⟩ := hs
  have haddr : (σ.out rv32i contractRv32i).result = wordAt f j := by
    rw [result_store hw hctl, hr, himm, wordAt, ← h.sp]
    rfl
  have hctl' : (σ.ex rv32i).ctl = .store 0b11 := by rw [Seq.ex, hw]; exact hctl
  have hwrites : σ.writes rv32i = false := by
    rw [Seq.writes, Seq.memToReg_eq_false.mpr (by rw [hctl']; rfl), hctl']
    rfl
  refine ⟨by rw [haddr]; exact hplaced.frame j hj, fun io => ⟨?_, ?_⟩⟩
  · show Code (if _ then _ else _) v l
    split
    · rw [haddr]
      exact h.code.write fun m hm => hplaced.apart m (by omega) j hj
    · exact h.code
  · show (if σ.writes rv32i then _ else σ.regs) 2 = f
    rw [hwrites]
    exact h.sp

/-- So does anything that leaves the stack pointer and the memory alone. -/
theorem Framed.spares {u : Word} (h : Framed v f u l σ) (hw : σ.fetch = w) (hs : Spares w)
    (io : Word) : Framed v f u l (σ.next rv32i contractRv32i io) := by
  have hstore : (σ.ex rv32i).regToMem = false := by rw [Seq.ex, hw]; exact hs.1
  have hrd : (σ.ex rv32i).rd ≠ 2 := by rw [Seq.ex, hw]; exact hs.2
  have hram := Seq.next_ram_of_noStore (L := contractRv32i) hstore io
  exact
    { code := by rw [hram]; exact h.code
      sp := by rw [Seq.next_regs_of_ne hrd, h.sp]
      saved := by rw [hram]; exact h.saved }

/-- Writing a register other than the stack pointer. -/
theorem Framed.write {u u' pc : Word} {r : BitVec 5} (h : Framed v f u l ⟨R, pc, M⟩) (pc' : Word)
    (hr : r ≠ 2) : Framed v f u l ⟨writeReg R r u', pc', M⟩ where
  code := h.code
  sp := (if_neg fun hw => hr hw.2.symm).trans h.sp
  saved := h.saved

/-- A block that leaves the frame alone. -/
theorem leads_framed {u w₀ : Word} {b : List Word} {j : ℕ} (h : Leads contractRv32i x s k σ)
    (hstall : ∀ j, (x j).stall = false)
    (hl : ∀ {M : BitVec n → Word}, Code M v l → Code M (wordAt v j) (b ++ [w₀]))
    (hb : ∀ w ∈ b, Straight contractRv32i (decode controlRv32i w) ∧ Spares w)
    (hpc : σ.pc = wordAt v j) (hf : Framed v f u l σ) :
    ∃ τ, Leads contractRv32i x s (k + times rv32i b) τ ∧ τ.pc = wordAt v (j + b.length) ∧
      Framed v f u l τ := by
  have hstep : ∀ w ∈ b, ∀ τ : Seq n, Framed v f u l τ → τ.fetch = w →
      ((τ.ex rv32i).regToMem = true → ramSel (τ.out rv32i contractRv32i).result = true) ∧
        ∀ io, Framed v f u l (τ.next rv32i contractRv32i io) := by
    intro w hw τ hτ hfetch
    refine ⟨fun hst => ?_, hτ.spares hfetch (hb w hw).2⟩
    have hno : (τ.ex rv32i).regToMem = false := by rw [Seq.ex, hfetch]; exact (hb w hw).2.1
    rw [hno] at hst
    cases hst
  obtain ⟨τ, hτ, hpcτ, hfτ⟩ := h.block hstall (fun τ hτ => hl hτ.code) (fun w hw => (hb w hw).1)
    hstep hpc hf
  exact ⟨τ, hτ, by rw [hpcτ, wordAt_wordAt], hfτ⟩

/-- A block of stores into the frame. -/
theorem leads_saves {w₀ : Word} {b : List Word} {j : ℕ} (h : Leads contractRv32i x s k σ)
    (hstall : ∀ j, (x j).stall = false) (hplaced : Placed n v f) (hlen : l.length ≤ 59)
    (hl : ∀ {M : BitVec n → Word}, Code M v l → Code M (wordAt v j) (b ++ [w₀]))
    (hb : ∀ w ∈ b, Straight contractRv32i (decode controlRv32i w) ∧ Saves w)
    (hpc : σ.pc = wordAt v j) (hf : Within v f l σ) :
    ∃ τ, Leads contractRv32i x s (k + times rv32i b) τ ∧ τ.pc = wordAt v (j + b.length) ∧
      Within v f l τ := by
  have hstep : ∀ w ∈ b, ∀ τ : Seq n, Within v f l τ → τ.fetch = w →
      ((τ.ex rv32i).regToMem = true → ramSel (τ.out rv32i contractRv32i).result = true) ∧
        ∀ io, Within v f l (τ.next rv32i contractRv32i io) := by
    intro w hw τ hτ hfetch
    obtain ⟨hsel, hkeep⟩ := hτ.saves hplaced hlen hfetch (hb w hw).2
    exact ⟨fun _ => hsel, hkeep⟩
  obtain ⟨τ, hτ, hpcτ, hfτ⟩ := h.block hstall (fun τ hτ => hl hτ.code) (fun w hw => (hb w hw).1)
    hstep hpc hf
  exact ⟨τ, hτ, by rw [hpcτ, wordAt_wordAt], hfτ⟩

/-- Writing every lane replaces the word. -/
theorem mergeLanes_full (data old : Word) : mergeLanes 0b1111 data old = data :=
  append_bytes data

/-- A store of a word into the RAM. -/
theorem next_store {r₁ r₂ : BitVec 5} {A : Word} (hcode : Code M a l) (hw : l[m]? = some w)
    (hctl : (decode controlRv32i w).ctl = .store 0b11) (hr₁ : rs1 w = r₁) (hr₂ : rs2 w = r₂)
    (haddr : readReg R r₁ + immS w = A) (hsel : ramSel A = true) (io : Word) :
    (Seq.ex rv32i ⟨R, wordAt a m, M⟩).regToMem = true ∧
      (Seq.out rv32i contractRv32i ⟨R, wordAt a m, M⟩).result = A ∧
      Seq.next rv32i contractRv32i ⟨R, wordAt a m, M⟩ io =
        ⟨R, wordAt a (m + 1), writeRam M A 0b1111 (swapBytes (readReg R r₂))⟩ := by
  have hfetch := fetch_at (R := R) hcode hw
  have hctl' : (Seq.ex rv32i ⟨R, wordAt a m, M⟩).ctl = .store 0b11 := by
    rw [ex_at hcode hw, hctl]
  have hst : (Seq.ex rv32i ⟨R, wordAt a m, M⟩).regToMem = true := by
    rw [Seq.regToMem_iff, hctl']
    exact (by decide : (0b11 : BitVec 2) ≠ 0)
  have hresult : (Seq.out rv32i contractRv32i ⟨R, wordAt a m, M⟩).result = A := by
    rw [result_store hfetch hctl, hr₁, haddr]
  refine ⟨hst, hresult, ?_⟩
  ext1
  · have hwrites : Seq.writes rv32i ⟨R, wordAt a m, M⟩ = false := by
      rw [Seq.writes, Seq.memToReg_eq_false.mpr (by rw [hctl']; rfl), hctl']
      rfl
    exact if_neg (by rw [hwrites]; exact Bool.false_ne_true)
  · rw [Seq.next_pc_of_straight ⟨by rw [hctl']; rfl, by rw [hctl']; rfl, by rw [hctl']; rfl⟩]
    exact wordAt_succ a m
  · refine (if_pos ⟨hst, hresult ▸ hsel⟩).trans ?_
    have hlanes : Seq.lanes rv32i contractRv32i ⟨R, wordAt a m, M⟩ = 0b1111 := by
      rw [Seq.lanes, Execute.dataW, hctl']
      rfl
    have hdata : Seq.data rv32i ⟨R, wordAt a m, M⟩ = swapBytes (readReg R r₂) := by
      rw [Seq.data, Execute.dataOut, hctl', ← hr₂, ← hfetch]
      rfl
    rw [hresult, hlanes, hdata]

/-- A store into the last word of the frame. -/
theorem step_save {r : BitVec 5} (h : Leads contractRv32i x s k ⟨R, wordAt v m, M⟩)
    (hstall : ∀ j, (x j).stall = false) (hplaced : Placed n v f) (hcode : Code M v l)
    (hlen : l.length ≤ 59) (hsp : R 2 = f) (hw : l[m]? = some w) (hnext : l[m + 1]? = some w')
    (hctl : (decode controlRv32i w).ctl = .store 0b11) (hr : rs1 w = 2) (himm : immS w = 64)
    (hr₂ : rs2 w = r) :
    ∃ M', Leads contractRv32i x s (k + 3) ⟨R, wordAt v (m + 1), M'⟩ ∧
      Framed v f (readReg R r) l ⟨R, wordAt v (m + 1), M'⟩ := by
  have haddr : readReg R 2 + immS w = wordAt f 16 := by
    rw [himm, ← hsp]
    rfl
  have hsel := hplaced.frame 16 (by omega)
  obtain ⟨hst, hresult, hσ⟩ := next_store hcode hw hctl hr hr₂ haddr hsel 0
  have hlead := h.store hstall hst (hresult ▸ hsel) (ramSel_next hcode hnext) 0
  rw [hσ] at hlead
  refine ⟨_, hlead, ⟨?_, hsp⟩, ?_⟩
  · exact hcode.write fun m hm => hplaced.apart m (by omega) 16 (by omega)
  · show swapBytes (writeRam _ _ _ _ _) = _
    rw [writeRam, if_pos rfl, mergeLanes_full, swapBytes_swapBytes]

/-! ## What the registers of the controller hold -/

section Registers

variable (r : IntControl) {b : CpuBus} (u : Word) (e : BitVec 8)

/-- `IRQ_EPC`, at offset 0x40. -/
theorem readReg_epc (h : b.address = 0xf0000040) : swapBytes (r.readReg b u e) = r.irqEpc := by
  have hepc : r.readReg b u e = swapBytes r.irqEpc := by
    rw [IntControl.readReg, CpuBus.periphReg, h]
    rfl
  rw [hepc, swapBytes_swapBytes]

/-- The 8-bit registers stand in the top byte, which a program reads as the lowest. -/
theorem swapBytes_top (e : BitVec 8) : swapBytes (e ++ 0x000000#24) = e.setWidth 32 := by
  revert e
  decide +kernel

/-- `IRQ_CAUSE`, at offset 0x10: the lines as they are in the cycle. -/
theorem readReg_cause (h : b.address = 0xf0000010) :
    swapBytes (r.readReg b u e) = e.setWidth 32 := by
  rw [← swapBytes_top, IntControl.readReg, CpuBus.periphReg, h]
  rfl

/-- `IRQ_MASK`, at offset 0x20. -/
theorem readReg_mask (h : b.address = 0xf0000020) :
    swapBytes (r.readReg b u e) = r.irqMask.setWidth 32 := by
  rw [← swapBytes_top, IntControl.readReg, CpuBus.periphReg, h]
  rfl

/-- Cause and mask have a bit in common exactly when an enabled line is high. -/
theorem cause_eq_zero_iff :
    e.setWidth 32 &&& r.irqMask.setWidth 32 = (0 : Word) ↔ r.interrupt e = false := by
  rw [← BitVec.setWidth_and, IntControl.interrupt, bne_eq_false_iff_eq]
  constructor
  · intro h
    have h' := congrArg (BitVec.setWidth 8) h
    rwa [BitVec.setWidth_setWidth_of_le _ (by omega), BitVec.setWidth_eq] at h'
  · intro h
    rw [h]
    rfl

end Registers

/-- The second of two writes to a register stays. -/
theorem writeReg_writeReg (r : BitVec 5) (u u' : Word) :
    writeReg (writeReg R r u) r u' = writeReg R r u' := by
  funext r'
  rw [writeReg, writeReg, writeReg]
  split <;> rfl

theorem readReg_zero : readReg R 0 = 0 := if_neg fun h => h rfl

theorem writeReg_self {r : BitVec 5} (hr : r ≠ 0) (u : Word) : writeReg R r u r = u :=
  if_pos ⟨hr, rfl⟩

theorem readReg_writeReg {r : BitVec 5} (hr : r ≠ 0) (u : Word) :
    readReg (writeReg R r u) r = u := by
  rw [readReg, if_pos hr, writeReg_self hr]

theorem writeReg_of_ne {r r' : BitVec 5} (hr : r' ≠ r) (u : Word) :
    writeReg R r u r' = R r' := if_neg fun h => hr h.2

theorem readReg_writeReg_of_ne {r r' : BitVec 5} (hr : r' ≠ r) (u : Word) :
    readReg (writeReg R r u) r' = readReg R r' := by
  rw [readReg, readReg, writeReg_of_ne hr]

/-! ## The routine up to the call -/

/-- The stores that save the registers. -/
def saves : List Word := (enter.drop 2).take 16

/-- Each of them stores to the frame. -/
theorem saves_spec : ∀ w ∈ saves, Straight contractRv32i (decode controlRv32i w) ∧ Saves w :=
  List.forall_iff_forall_mem.mp (by decide +kernel)

/-- The routine has 59 words, with the two calls. -/
theorem length_isr {callIrq callException : Word} : (isr callIrq callException).length = 59 := rfl

/-- A store takes three cycles. -/
theorem times_saves : times rv32i saves = 48 := by decide +kernel

section Entry

variable {callIrq callException : Word} (hstall : ∀ j, (x j).stall = false)
  (hplaced : Placed n v f)
include hstall hplaced

/-- From the vector, the registers are saved. -/
theorem enter_saves (h : Leads contractRv32i x s k ⟨R, v, M⟩)
    (hcode : Code M v (isr callIrq callException)) (hsp : R 2 - 68 = f) :
    ∃ τ, Leads contractRv32i x s (k + 50) τ ∧ τ.pc = wordAt v 18 ∧
      Within v f (isr callIrq callException) τ := by
  have h₀ : Leads contractRv32i x s k ⟨R, wordAt v 0, M⟩ := by rwa [wordAt_zero]
  have h₁ := step_opImm h₀ hstall hcode rfl rfl .add 0 0 0 (by decide) rfl
  have h₂ := step_opImm h₁ hstall hcode rfl rfl .add 2 2 (-68) (by decide) rfl
  have hslice : ∀ {M : BitVec n → Word}, Code M v (isr callIrq callException) →
      Code M (wordAt v 2) (saves ++ [Asm.lui 26 0xf0000]) :=
    fun hc => Code.slice (enter.take 2) _ _ hc
  rw [writeReg_zero] at h₁ h₂
  have hsp' : writeReg R 2 (readReg R 2 + -68) 2 = f := by
    rw [← hsp, BitVec.sub_eq_add_neg]
    rfl
  obtain ⟨τ, hτ, hpc, hf⟩ :=
    leads_saves (j := 2) h₂ hstall hplaced length_isr.le hslice saves_spec rfl ⟨hcode, hsp'⟩
  rw [times_saves, Nat.add_assoc, Nat.add_assoc] at hτ
  exact ⟨τ, hτ, hpc, hf⟩

/-- The rolled back `IRQ_EPC` is saved. -/
theorem enter_epc (h : Leads contractRv32i x s k ⟨R, wordAt v 18, M⟩)
    (hw : Within v f (isr callIrq callException) ⟨R, wordAt v 18, M⟩) :
    ∃ R' M', Leads contractRv32i x s (k + 10) ⟨R', wordAt v 24, M'⟩ ∧
      Framed v f (s.intc.irqEpc - 4) (isr callIrq callException) ⟨R', wordAt v 24, M'⟩ ∧
      R' 11 = 0xf0000000 := by
  have h₁ := step_lui h hstall hw.code rfl rfl 26 0xf0000000 (by decide) rfl
  have h₂ := step_opImm h₁ hstall hw.code rfl rfl .add 26 26 0x40 (by decide) rfl
  rw [readReg_writeReg (by decide), writeReg_writeReg] at h₂
  have h₃ := step_register h₂ hstall hw.code rfl rfl 26 26 0xf0000040 s.intc.irqEpc rfl rfl rfl
    (by rw [readReg_writeReg (by decide)]; rfl) rfl
    fun _ d hb => (readReg_epc _ d _ hb).trans h₂.off.epc
  rw [writeReg_writeReg] at h₃
  have h₄ := step_opImm h₃ hstall hw.code rfl rfl .add 26 26 (-4) (by decide) rfl
  rw [readReg_writeReg (by decide), writeReg_writeReg] at h₄
  have hsp : writeReg R 26 (AluOp.add.eval s.intc.irqEpc (-4)) 2 = f :=
    (writeReg_of_ne (by decide) _).trans hw.sp
  obtain ⟨M', h₅, hf⟩ := step_save (r := 26) h₄ hstall hplaced hw.code length_isr.le hsp rfl rfl
    rfl rfl rfl rfl
  rw [readReg_writeReg (by decide)] at hf
  have h₆ := step_lui h₅ hstall hf.code rfl rfl 11 0xf0000000 (by decide) rfl
  have hsaved : AluOp.add.eval s.intc.irqEpc (-4) = s.intc.irqEpc - 4 :=
    (BitVec.sub_eq_add_neg _ _).symm
  rw [hsaved] at hf h₆
  exact ⟨_, M', h₆, hf.write _ (by decide), writeReg_self (by decide) _⟩

omit hplaced in
/-- The bits of the cause that are enabled are in `a0`, in front of the branch. -/
theorem enter_cause {u : Word} (h : Leads contractRv32i x s k ⟨R, wordAt v 24, M⟩)
    (hf : Framed v f u (isr callIrq callException) ⟨R, wordAt v 24, M⟩)
    (hperiph : R 11 = 0xf0000000) :
    ∃ R', Leads contractRv32i x s (k + 8) ⟨R', wordAt v 28, M⟩ ∧
      Framed v f u (isr callIrq callException) ⟨R', wordAt v 28, M⟩ ∧
      R' 10 = (x k).extioIn.setWidth 32 &&& s.intc.irqMask.setWidth 32 := by
  have h₁ := step_register h hstall hf.code rfl rfl 10 11 0xf0000010 ((x k).extioIn.setWidth 32)
    rfl rfl rfl (by rw [readReg, if_pos (by decide), hperiph]; rfl) rfl
    fun _ d hb => readReg_cause _ d _ hb
  have h₂ := step_register h₁ hstall hf.code rfl rfl 12 11 0xf0000020 (s.intc.irqMask.setWidth 32)
    rfl rfl rfl
    (by rw [readReg_writeReg_of_ne (by decide), readReg, if_pos (by decide), hperiph]; rfl) rfl
    fun _ d hb => (readReg_mask _ d _ hb).trans (by rw [h₁.off.mask])
  have h₃ := step_op h₂ hstall hf.code rfl rfl .and 10 10 12 (by decide) rfl
  rw [readReg_writeReg (by decide), readReg_writeReg_of_ne (by decide),
    readReg_writeReg (by decide)] at h₃
  have h₄ := step_opImm h₃ hstall hf.code rfl rfl .add 11 2 0 (by decide) rfl
  have hf₂ : ∀ u₁ u₂ : Word, Framed v f u (isr callIrq callException)
      ⟨writeReg (writeReg R 10 u₁) 12 u₂, wordAt v 26, M⟩ := fun _ _ =>
    (hf.write (wordAt v 25) (by decide)).write _ (by decide)
  refine ⟨_, h₄, ?_, ?_⟩
  · exact ((hf₂ _ _).write (wordAt v 27) (by decide)).write _ (by decide)
  · rw [writeReg_of_ne (by decide), writeReg_self (by decide)]
    rfl

omit hplaced in
/-- With no bit set, the routine goes on to call `exception_handler`. -/
theorem enter_exception {u : Word} (h : Leads contractRv32i x s k ⟨R, wordAt v 28, M⟩)
    (hf : Framed v f u (isr callIrq callException) ⟨R, wordAt v 28, M⟩) (hzero : R 10 = 0) :
    ∃ τ, Leads contractRv32i x s (k + 13) τ ∧ τ.pc = wordAt v 57 ∧
      Framed v f u (isr callIrq callException) τ := by
  have h₁ := step_beq h hstall hf.code rfl 25 (by decide) hzero (by decide) rfl
  have hslice : ∀ {M : BitVec n → Word}, Code M v (isr callIrq callException) →
      Code M (wordAt v 53) (exception ++ [callException]) :=
    fun hc => Code.slice (enter ++ [callIrq] ++ restore) _ _ hc
  obtain ⟨τ, hτ, hpc, hfτ⟩ := leads_framed (b := exception) (j := 53) h₁ hstall hslice
    (List.forall_iff_forall_mem.mp (by decide +kernel)) rfl
    ⟨⟨hf.code, hf.sp⟩, hf.saved⟩
  exact ⟨τ, hτ, hpc, hfτ⟩

/-- From the vector to the load of `IRQ_CAUSE`. -/
theorem enter_read (h : Leads contractRv32i x s k ⟨R, v, M⟩)
    (hcode : Code M v (isr callIrq callException)) (hsp : R 2 - 68 = f) :
    ∃ R' M', Leads contractRv32i x s (k + 60) ⟨R', wordAt v 24, M'⟩ ∧
      Framed v f (s.intc.irqEpc - 4) (isr callIrq callException) ⟨R', wordAt v 24, M'⟩ ∧
      R' 11 = 0xf0000000 := by
  obtain ⟨⟨R₁, pc₁, M₁⟩, h₁, rfl, hw⟩ := enter_saves hstall hplaced h hcode hsp
  exact enter_epc hstall hplaced h₁ hw

omit hplaced in
/-- From there to the call of `exception_handler`, when no enabled line is high in the cycle
of the load. -/
theorem enter_dispatch {u : Word} (h : Leads contractRv32i x s k ⟨R, wordAt v 24, M⟩)
    (hf : Framed v f u (isr callIrq callException) ⟨R, wordAt v 24, M⟩)
    (hperiph : R 11 = 0xf0000000) (hline : s.intc.interrupt (x k).extioIn = false) :
    ∃ τ, Leads contractRv32i x s (k + 21) τ ∧ τ.pc = wordAt v 57 ∧
      Framed v f u (isr callIrq callException) τ := by
  obtain ⟨R', h₁, hf₁, hcause⟩ := enter_cause hstall h hf hperiph
  rw [(cause_eq_zero_iff s.intc _).mpr hline] at hcause
  exact enter_exception hstall h₁ hf₁ hcause

end Entry

/-! ## The routine behind the call -/

/-- In front of the store of the tail: `s10` has the address of `IRQ_STATUS`, and the stack
pointer is above the frame again, with `u` in its last word. -/
structure Restored (v f u : Word) (l : List Word) (σ : Seq n) : Prop where
  pc : σ.pc = wordAt v 50
  code : Code σ.ram v l
  saved : swapBytes (σ.ram (wordIndex n (wordAt f 16))) = u
  s10 : σ.regs 26 = 0xf0000030
  s11 : σ.regs 27 = 1
  sp : σ.regs 2 = f + 68

section Leave

variable {callIrq callException u : Word} (hstall : ∀ j, (x j).stall = false)
include hstall

/-- From the jump behind the call of `exception_handler` the registers are restored, up to the
store of the tail. -/
theorem leave_store (h : Leads contractRv32i x s k ⟨R, wordAt v 58, M⟩)
    (hf : Framed v f u (isr callIrq callException) ⟨R, wordAt v 58, M⟩) :
    ∃ τ, Leads contractRv32i x s (k + 49) τ ∧ Restored v f u (isr callIrq callException) τ := by
  have htarget : wordAt v 58 + immJ (Asm.jal Asm.zero (-104)) = wordAt v 32 := by
    rw [wordAt, wordAt, BitVec.add_assoc]
    rfl
  have h₁ := step_jal h hstall hf.code rfl rfl rfl htarget rfl
  have hslice : ∀ {M : BitVec n → Word}, Code M v (isr callIrq callException) →
      Code M (wordAt v 32) ((restore.drop 2).take 14 ++ [Asm.addi 2 2 68]) :=
    fun hc => Code.slice (enter ++ [callIrq] ++ restore.take 2) _ _ hc
  obtain ⟨⟨R₂, pc₂, M₂⟩, h₂, rfl, hf₂⟩ := leads_framed (j := 32) h₁ hstall hslice
    (List.forall_iff_forall_mem.mp (by decide +kernel)) rfl ⟨⟨hf.code, hf.sp⟩, hf.saved⟩
  have hcode := hf₂.code
  have h₃ := step_opImm (m := 46) h₂ hstall hcode rfl rfl .add 2 2 68 (by decide) rfl
  have h₄ := step_opImm h₃ hstall hcode rfl rfl .or 27 0 1 (by decide) rfl
  have h₅ := step_lui h₄ hstall hcode rfl rfl 26 0xf0000000 (by decide) rfl
  have h₆ := step_opImm h₅ hstall hcode rfl rfl .add 26 26 0x30 (by decide) rfl
  rw [readReg_writeReg (by decide), writeReg_writeReg] at h₆
  have hsp : readReg R₂ 2 + 68 = f + 68 := congrArg (· + 68) hf₂.sp
  refine ⟨_, h₆, rfl, hcode, hf₂.saved, ?_, ?_, ?_⟩ <;> dsimp only
  · rw [writeReg_self (by decide)]
    rfl
  · rw [writeReg_of_ne (by decide), writeReg_self (by decide), readReg_zero]
    rfl
  · rw [writeReg_of_ne (by decide), writeReg_of_ne (by decide), writeReg_self (by decide)]
    exact hsp

end Leave

end HfRisc.Crt
