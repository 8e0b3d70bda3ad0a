import HfRisc.Crt.Run
import HfRisc.Results.Rv32iRestore

/-!
# The calls of the handlers (`crt0.s`)

The core has one vector for interrupts and exceptions, and the routine there takes an entry
for an interrupt when an enabled line is high in the cycle in which it reads `IRQ_CAUSE`,
whatever the entry was and whether or not interrupts are enabled. An `ECALL` that meets such a
line is served as an interrupt, and lost.
-/

namespace HfRisc.Results

open HfRisc.Rtl HfRisc.Lib HfRisc.Isa HfRisc.Pipe HfRisc.Crt

variable {n : ℕ} {s : System n Unit} {σ τ : Seq n} {x : ℕ → Input} {k : ℕ}
  {v f ret callIrq callException : Word}

/-! ## An environment call -/

/-- The routine and its frame of 17 words are in the RAM, and apart. -/
structure Installed (f callIrq callException : Word) (s : System n Unit) : Prop where
  code : Code s.ram s.intc.irqVector (isr callIrq callException)
  call : opcode callException = 0b1101111 ∧ rd callException = 1
  placed : Placed n s.intc.irqVector f
  frame : s.core.regs 2 - 68 = f

/-- The routine reads `IRQ_CAUSE`. -/
structure ReadsCause (v : Word) (s : System n Unit) : Prop where
  place : s.core.pcLast2 = wordAt v 24
  port : s.core.mwait = true
  address : s.core.address rv32i = 0xf0000010

/-- An `ECALL` in execute is in no conflict with an interrupt: no request is in flight, unless
it is accepted along with the `ECALL`, and no enabled line is high when the routine reads
`IRQ_CAUSE`. -/
structure Undisputed (s : System n Unit) (x : ℕ → Input) : Prop where
  request : s.irqAck rv32i = true ∨ ¬ s.intc.InFlight false (x 0).extioIn
  line : ∀ j, (∀ i < j, ¬ Links (after rv32i s x i)) →
    ReadsCause s.intc.irqVector (after rv32i s x j) →
    (after rv32i s x j).intc.interrupt (x j).extioIn = false

/-- The call of `exception_handler` is in execute, and no other call was since `s`. The frame
has `ret` for the saved program counter. -/
structure CallsException (v f ret : Word) (s : System n Unit) (x : ℕ → Input) (k : ℕ) : Prop where
  first : ∀ j < k, ¬ Links (after rv32i s x j)
  call : Links (after rv32i s x k)
  place : (after rv32i s x k).core.pcLast2 = wordAt v 57
  saved : swapBytes ((after rv32i s x k).ram (wordIndex n (wordAt f 16))) = ret

/-- `exception_handler` has returned to the jump behind its call, with the routine and its
frame as they were, and interrupts off. -/
structure ExceptionReturned (v f ret callIrq callException : Word) (s : System n Unit)
    (σ : Seq n) : Prop extends Framed v f ret (isr callIrq callException) σ where
  execute : AtExecute contractRv32i s σ
  pc : σ.pc = wordAt v 58
  rest : s.intc.Resting
  master : s.intc.irqStatus.getLsbD 0 = false

/-- `k` cycles on the store of the restore tail is in execute, with `ret` for the saved program
counter, and no call was on the way. When the controller calms behind it, the program goes on
at `ret` without a call, too. -/
structure Resuming (ret : Word) (s : System n Unit) (x : ℕ → Input) (k : ℕ) (σ : Seq n) :
    Prop where
  execute : AtExecute contractRv32i (after rv32i s x k) σ
  tail : RestoreTail σ
  saved : savedPc σ = ret
  quiet : ∀ j < k, ¬ Links (after rv32i s x j)
  goes : (after rv32i s x k).intc.Calms (fun j => (x (k + j)).extioIn) →
    (after rv32i s x (k + 7)).core.pc = ret ∧ ∀ j < k + 7, ¬ Links (after rv32i s x j)

/-! ## Up to the call -/

theorem not_links_add {d : ℕ} (hd : ∀ j < d, ¬ Links (after rv32i s x j))
    (hk : ∀ j < k, ¬ Links (after rv32i (after rv32i s x d) (fun j => x (d + j)) j)) :
    ∀ j < d + k, ¬ Links (after rv32i s x j) := by
  intro j hj
  rcases Nat.lt_or_ge j d with hlt | hge
  · exact hd j hlt
  · obtain ⟨i, rfl⟩ := Nat.exists_eq_add_of_le hge
    rw [after_add]
    exact hk i (by omega)

/-- The routine's call in execute. -/
theorem links_of_call (h : AtExecute contractRv32i s σ) (hword : σ.fetch = callException)
    (hcall : opcode callException = 0b1101111 ∧ rd callException = 1) : Links s := by
  have hctl : (σ.ex rv32i).ctl = .jumpTo 0b10 := by
    rw [ctl_eq, hword, hcall.1, implementsRv32i.rows _ _ _ (by decide) (by decide)]
    rfl
  refine ⟨?_, ?_⟩
  · rw [h.ex, Execute.jumpTaken, hctl]
    rfl
  · rw [h.ex, Seq.ex, hword]
    exact hcall.2

theorem callsException_of_except (he : AtExecute contractRv32i s σ)
    (hi : Runnable contractRv32i s (x 0)) (hexc : s.core.ex.except = true)
    (hstall : ∀ j, (x j).stall = false) (hisr : Installed f callIrq callException s)
    (h : Undisputed s x) :
    ∃ k, CallsException s.intc.irqVector f (σ.pc + 4) s x k := by
  obtain ⟨d, k, hlead, hepc, hquiet⟩ := he.enter_except hi hexc hstall h.request
  have hstall' : ∀ j, (x (d + j)).stall = false := fun j => hstall (d + j)
  have hcode : Code σ.ram s.intc.irqVector (isr callIrq callException) := he.ram ▸ hisr.code
  have hsp : σ.regs 2 - 68 = f := he.regs ▸ hisr.frame
  obtain ⟨R, M, hread, hframed, hperiph⟩ := enter_read hstall' hisr.placed hlead hcode hsp
  have hcause : ReadsCause s.intc.irqVector (after rv32i s x (d + (k + 60))) := by
    rw [after_add]
    have hbase : rs1 (Asm.lw 10 11 0x10) = 11 := rfl
    have hsum : readReg R 11 + immI (Asm.lw 10 11 0x10) = 0xf0000010 := by
      rw [readReg, if_pos (by decide), hperiph]
      rfl
    obtain ⟨-, -, hport, haddress⟩ := port_of_load hread hframed.code rfl rfl hbase hsum
    exact ⟨hread.execute.pcs.pcLast2, hport, haddress⟩
  have hline := h.line _ (not_links_add hquiet hread.off.calls) hcause
  rw [after_add, IntControl.interrupt, hread.off.mask] at hline
  obtain ⟨τ, hcall, hpc, hτ⟩ := enter_dispatch hstall' hread hframed hperiph hline
  refine ⟨d + (k + 60 + 21), not_links_add hquiet hcall.off.calls, ?_, ?_, ?_⟩
  · rw [after_add]
    refine links_of_call hcall.execute ?_ hisr.call
    rw [Seq.fetch, hpc]
    exact (hτ.code.get rfl).2
  · rw [after_add, hcall.execute.pcs.pcLast2, hpc]
  · rw [after_add, hcall.execute.ram, hτ.saved, hepc]
    calc σ.pc + 8 - 4 = σ.pc + 4 + 4 - 4 := by rw [BitVec.add_assoc]; rfl
      _ = σ.pc + 4 := BitVec.add_sub_cancel _ _

/-! ## From the return on -/

theorem cycle_eq_after : cycle s x k = after rv32i s x k := by
  rw [cycle, after, System.machine_rv32i]

/-- The tail makes no call. -/
theorem RestoreTail.not_links (h : RestoreTail σ) (he : AtExecute contractRv32i s σ)
    (hstall : ∀ k < 7, (x k).stall = false)
    (hack : ∀ k < 7, (cycle s x k).irqAck rv32i = false) :
    ∀ k < 7, ¬ Links (cycle s x k) := by
  obtain ⟨h₁, h₂, -⟩ := h.cycle_two he (x := x) fun k hk => hstall k (by omega)
  obtain ⟨h₃, h₄, h₅, hload⟩ := h.cycle_five he (x := x) (fun k hk => hstall k (by omega))
    (hack 2 (by omega))
  have h₆ : AtExecute contractRv32i (cycle s x 6) (RestoreTail.loaded σ) :=
    h₅.step_execute (hstall 5 (by omega)) hload (hack 5 (by omega)) h.inRam.2
  have hnext : Seq.ex rv32i { σ with pc := σ.pc + 4 } = decode controlRv32i lwSaved := h.ex_load
  intro k hk
  obtain rfl | rfl | rfl | rfl | rfl | rfl | rfl :
    k = 0 ∨ k = 1 ∨ k = 2 ∨ k = 3 ∨ k = 4 ∨ k = 5 ∨ k = 6 := by omega
  · refine not_links_of_jump (s := s) ?_
    rw [he.ex, h.ex_store]
    rfl
  · exact not_links_of_jump h₁.jump
  · exact not_links_of_jump h₂.harmless.jump
  · refine not_links_of_jump ?_
    rw [h₃.ex, hnext]
    rfl
  · refine not_links_of_jump ?_
    rw [h₄.ex, hnext]
    rfl
  · exact not_links_of_jump h₅.harmless.jump
  · -- The jump of the tail leaves no return address.
    rintro ⟨-, hrd⟩
    rw [h₆.ex, h.ex_jump] at hrd
    exact absurd hrd (by decide)

theorem tail_of_restored (h : Restored v f ret (isr callIrq callException) σ)
    (hplaced : Placed n v f) : RestoreTail σ ∧ savedPc σ = ret := by
  have hload : σ.pc + 4 = wordAt v 51 := by rw [h.pc, wordAt_succ]
  have hjump : σ.pc + 8 = wordAt v 52 := by
    rw [h.pc, wordAt, wordAt, BitVec.add_assoc]
    rfl
  have hstack : σ.regs 2 - 4 = wordAt f 16 := by
    rw [h.sp]
    calc f + 68 - 4 = f + 64 + 4 - 4 := by rw [BitVec.add_assoc]; rfl
      _ = f + 64 := BitVec.add_sub_cancel _ _
  refine ⟨?_, by rw [savedPc, hstack, h.saved]⟩
  exact
    { store := by
        rw [Seq.fetch, h.pc]
        exact (h.code.get rfl).2
      load := by
        rw [hload]
        exact (h.code.get rfl).2
      jump := by
        rw [hjump]
        exact (h.code.get rfl).2
      inRam := by
        rw [hload, hjump]
        exact ⟨(h.code.get rfl).1, (h.code.get rfl).1⟩
      s10 := h.s10
      s11 := h.s11
      stack := by
        rw [hstack]
        exact hplaced.frame 16 (by omega) }

theorem resuming_of_returned (h : ExceptionReturned v f ret callIrq callException s σ)
    (hplaced : Placed n v f) (hstall : ∀ j, (x j).stall = false) :
    ∃ k τ, Resuming ret s x k τ := by
  have hframed := h.toFramed
  obtain ⟨R, pc, M⟩ := σ
  have hpc : pc = wordAt v 58 := h.pc
  subst hpc
  have hlead : Leads contractRv32i x s 0 ⟨R, wordAt v 58, M⟩ :=
    ⟨h.execute, .start h.rest h.master⟩
  obtain ⟨τ, hstore, hrestored⟩ := leave_store hstall hlead hframed
  obtain ⟨htail, hsaved⟩ := tail_of_restored hrestored hplaced
  refine ⟨_, τ, hstore.execute, htail, hsaved, hstore.off.calls, fun hcalms => ?_⟩
  obtain ⟨hack, hresumes⟩ := (htail.atomic_iff hstore.execute fun j _ => hstall _).mpr hcalms
  refine ⟨?_, not_links_add hstore.off.calls ?_⟩
  · rw [after_add, ← cycle_eq_after, hresumes.pc, hsaved]
  · simp only [← cycle_eq_after]
    exact htail.not_links hstore.execute (fun j _ => hstall _) hack

/-- In a run with whatever interrupts and exceptions before, an undisputed `ECALL` leads to the
call of `exception_handler`, with the address of the instruction behind it for the saved
program counter, and to no call before. From the handler's return on there is no other call
until the program goes on there. -/
theorem rv32i_ecall_served {s₀ s : System n Unit} {σ₀ : Seq n} {x : ℕ → Input} {T : ℕ}
    (hstart : Start contractRv32i s₀ σ₀)
    (hx : ∀ N ≤ T, Runnable contractRv32i (after rv32i s₀ x N) (x N))
    (hs : s = after rv32i s₀ x T) (hexc : s.core.ex.except = true)
    (hstall : ∀ j, (x (T + j)).stall = false) (hisr : Installed f callIrq callException s)
    (h : Undisputed s fun j => x (T + j)) :
    ∃ k, CallsException s.intc.irqVector f (s.core.pcLast2 + 4) s (fun j => x (T + j)) k ∧
      ∀ m σ, k < m →
        ExceptionReturned s.intc.irqVector f (s.core.pcLast2 + 4) callIrq callException
          (after rv32i s (fun j => x (T + j)) m) σ →
        ∃ l τ, Resuming (s.core.pcLast2 + 4) (after rv32i s (fun j => x (T + j)) m)
          (fun j => x (T + (m + j))) l τ := by
  have halong := (System.machine rv32i).along_inputs_of_lt fun N hN =>
    hx N (Nat.le_of_lt hN)
  have hlive : Live contractRv32i s := hs ▸ hstart.live.run prompt_rv32i halong
  have hrun : Runnable contractRv32i s (x (T + 0)) := hs ▸ hx T (Nat.le_refl T)
  rcases hlive with ⟨ht⟩ | ⟨hre⟩
  · have he := ht.atExecute_of_except hexc
    obtain ⟨k, hserved⟩ := callsException_of_except he hrun hexc hstall hisr h
    rw [← he.pcs.pcLast2] at hserved
    exact ⟨k, hserved, fun m σ _ hreturned =>
      resuming_of_returned hreturned hisr.placed fun j => hstall (m + j)⟩
  · rw [hre.harmless.system] at hexc
    cases hexc

/-! ## A call with interrupts off -/

/-- `callIsr` with line 0 unmasked, and interrupts off. -/
def maskedStart : System 14 Unit :=
  boot rv32i () { armedIntc with irqVector := base + 256, irqStatus := 0 } callIsr

/-- Line 0 is high for `m` cycles. -/
def lineUntil (m N : ℕ) : Input := if N < m then tickInput else calmInput

/-- The run of `callIsr` with line 0 high for `m` cycles. -/
def maskedRun (m N : ℕ) : System 14 Unit := after rv32i maskedStart (lineUntil m) N

theorem start_maskedStart : Start contractRv32i maskedStart callIsr :=
  start_boot trivial List.mem_cons_self _

theorem runnable_maskedRun {m : ℕ} (hm : m = 0 ∨ m = 100) :
    ∀ N ≤ 2, Runnable contractRv32i (maskedRun m N) (lineUntil m N) := by
  intro N hN
  have hfacts : (lineUntil m N).stall = false ∧
      ((maskedRun m N).core.bubble rv32i (maskedRun m N).intc.irq = false →
        ramSel (maskedRun m N).core.pcLast = true) ∧
      ((maskedRun m N).irqAck rv32i = true ∨ (maskedRun m N).core.ex.except = true →
        ramSel (maskedRun m N).intc.irqVector = true ∧
          swapBytes ((maskedRun m N).ram (wordIndex 14 (maskedRun m N).intc.irqVector)) = nop) ∧
      ((maskedRun m N).core.ex.except = true → ramSel (maskedRun m N).core.pc = true ∧
        swapBytes ((maskedRun m N).ram (wordIndex 14 (maskedRun m N).core.pc)) = nop) := by
    revert N
    rcases hm with rfl | rfl <;> decide +kernel
  obtain ⟨hstall, hcode, hhandler, hbehind⟩ := hfacts
  refine ⟨hstall, hcode, hhandler, fun hexc => ?_⟩
  obtain ⟨hram, hword⟩ := hbehind hexc
  rw [hword]
  exact ⟨hram, harmless_nop contractRv32i _⟩

theorem installed_maskedRun {m : ℕ} (hm : m = 0 ∨ m = 100) :
    Installed (base + 0x1000 - 68) (Asm.jal Asm.ra 120) (Asm.jal Asm.ra 8) (maskedRun m 2) where
  code := by rcases hm with rfl | rfl <;> decide +kernel
  call := by decide
  placed := by rcases hm with rfl | rfl <;> exact ⟨by decide +kernel, by decide +kernel⟩
  frame := by rcases hm with rfl | rfl <;> decide +kernel

theorem rv32i_ecall_served_calm :
    ∃ k, CallsException (base + 256) (base + 0x1000 - 68) (base + 4) (maskedRun 0 2)
        (fun j => lineUntil 0 (2 + j)) k ∧
      ∀ m σ, k < m →
        ExceptionReturned (base + 256) (base + 0x1000 - 68) (base + 4) (Asm.jal Asm.ra 120)
          (Asm.jal Asm.ra 8) (after rv32i (maskedRun 0 2) (fun j => lineUntil 0 (2 + j)) m) σ →
        ∃ l τ, Resuming (base + 4) (after rv32i (maskedRun 0 2) (fun j => lineUntil 0 (2 + j)) m)
          (fun j => lineUntil 0 (2 + (m + j))) l τ :=
  rv32i_ecall_served (T := 2) start_maskedStart (runnable_maskedRun (.inl rfl)) rfl
    (by decide +kernel) (fun _ => rfl) (installed_maskedRun (.inl rfl))
    ⟨.inr (by decide +kernel), fun _ _ _ => by simp [IntControl.interrupt, lineUntil, calmInput]⟩

/-- Line 0 is high when the routine reads `IRQ_CAUSE`: it calls `irq_handler`, and the program
goes on behind the `ECALL` without a call of `exception_handler`. -/
theorem rv32i_ecall_lost :
    Start contractRv32i maskedStart callIsr ∧
      (∀ N ≤ 2, Runnable contractRv32i (maskedRun 100 N) (lineUntil 100 N)) ∧
      (maskedRun 100 2).core.ex.except = true ∧ (∀ N, (lineUntil 100 N).stall = false) ∧
      Installed (base + 0x1000 - 68) (Asm.jal Asm.ra 120) (Asm.jal Asm.ra 8) (maskedRun 100 2) ∧
      (¬ ∃ k, CallsException (base + 256) (base + 0x1000 - 68) (base + 4) (maskedRun 100 2)
        (fun j => lineUntil 100 (2 + j)) k) ∧
      (∀ j < 141, ¬ (Links (maskedRun 100 j) ∧
        (maskedRun 100 j).core.pcLast2 = wordAt (base + 256) 57)) ∧
      (maskedRun 100 141).core.pcLast2 = base + 4 := by
  refine ⟨start_maskedStart, runnable_maskedRun (.inr rfl), by decide +kernel, fun N => ?_,
    installed_maskedRun (.inr rfl), ?_, by decide +kernel, by decide +kernel⟩
  · rw [lineUntil]
    split <;> rfl
  · rintro ⟨k, h⟩
    have hquiet : ∀ j < 72, ¬ Links (maskedRun 100 (2 + j)) := by decide +kernel
    have hirq : Links (maskedRun 100 (2 + 72)) ∧
        (maskedRun 100 (2 + 72)).core.pcLast2 = wordAt (base + 256) 29 := by decide +kernel
    have hrun : ∀ j, after rv32i (maskedRun 100 2) (fun j => lineUntil 100 (2 + j)) j =
        maskedRun 100 (2 + j) := fun j => (after_add 2).symm
    rcases Nat.lt_trichotomy k 72 with hlt | rfl | hgt
    · exact hquiet k hlt (hrun k ▸ h.call)
    · have hplace := h.place
      rw [hrun, hirq.2] at hplace
      exact absurd hplace (by decide)
    · exact h.first 72 hgt ((hrun 72).symm ▸ hirq.1)

end HfRisc.Results
