import HfRisc.Pipe.Mixed
import HfRisc.Pipe.Traps
import HfRisc.Rtl.Pulse

/-!
# Straight-line code with interrupts off

While nothing is in flight and the master bit is clear, the pipeline executes one
instruction after another: one cycle for a computation, three for a load or a store.
`Leads` says how far a run has come, and that no call was in execute on the way
(`Leads.plain`, `Leads.store`, `Leads.load`, `Leads.taken`). `Leads.block` carries an
invariant through a block of code.
-/

namespace HfRisc.Pipe

open HfRisc.Rtl HfRisc.Lib

variable {n : ℕ} {α : Type} {c : Core α} {L : Contract c} {s : System n α} {σ : Seq n} {i : Input}
  {x : ℕ → Input} {k : ℕ}

/-! ## The run -/

/-- The state `k` cycles on. -/
def after (c : Core α) (s : System n α) (x : ℕ → Input) (k : ℕ) : System n α :=
  (System.machine c).run s (Mealy.inputs x k)

theorem after_succ : after c s x (k + 1) = (after c s x k).step c (x k) :=
  (System.machine c).run_inputs_succ s x k

theorem after_add (T : ℕ) :
    after c s x (T + k) = after c (after c s x T) (fun j => x (T + j)) k := by
  rw [after, Mealy.inputs_add, Mealy.run_append]
  rfl

/-- A call is in execute: a jump that leaves its return address in `ra`. -/
def Links (s : System n α) : Prop := s.core.ex.jumpTaken = true ∧ s.core.ex.rd = 1

instance (s : System n α) : Decidable (Links s) := inferInstanceAs (Decidable (_ ∧ _))

/-! ## The controller meanwhile -/

/-- What is in execute leaves the controller alone, and is no call. -/
structure Inert (c : Core α) (s : System n α) : Prop where
  writes : ∀ k, IntControl.writes (s.bus c) k = false
  except : s.core.ex.except = false
  jump : ¬ Links s

theorem not_links_of_jump (h : s.core.ex.ctl.jump = 0) : ¬ Links s := by
  rintro ⟨hj, -⟩
  rw [Execute.jumpTaken, h] at hj
  cases hj

/-- Without the memory port no register of the controller is written. -/
theorem writes_of_noPort (h : s.core.mwait = false) (k : BitVec 4) :
    IntControl.writes (s.bus c) k = false := by
  simp [IntControl.writes, CpuBus.periphAccess, System.bus, h]

/-- Nor by an access that drives no lane. -/
theorem writes_of_noLane (h : s.core.dataW c = 0) (k : BitVec 4) :
    IntControl.writes (s.bus c) k = false := by
  simp [IntControl.writes, CpuBus.periphAccessWe, System.bus, h]

/-- Nor by one that addresses the RAM. -/
theorem writes_of_ram (h : ramSel (s.core.address c) = true) (k : BitVec 4) :
    IntControl.writes (s.bus c) k = false := by
  have hper : (s.bus c).periphAccess = false := periphAccess_of_ramSel h
  simp [IntControl.writes, hper]

theorem Calm.inert (h : Calm L s σ) (hload : s.core.ex.memToReg = false) : Inert c s where
  writes := writes_of_noPort (h.mwait_of_noLoad hload)
  except := h.harmless.system
  jump := not_links_of_jump h.harmless.jump

theorem AtAccess.inert (h : AtAccess L s σ) : Inert c s where
  writes := writes_of_noPort h.mwait
  except := Execute.except_of_branch_zero h.branch
  jump := not_links_of_jump h.jump

theorem AtLoad.inert (h : AtLoad L s σ) : Inert c s := by
  obtain ⟨-, hjump, hbranch⟩ := load_shape (σ.exclusive L) (Seq.memToReg_iff.mp h.load)
  exact
    { writes := writes_of_noPort h.mwait
      except := Execute.except_of_branch_zero (by rw [h.ex, hbranch])
      jump := not_links_of_jump (by rw [h.ex, hjump]) }

/-- Nothing is in flight, the master bit is clear, and no call was in execute in the
`k` cycles since `s`. -/
structure Off (c : Core α) (x : ℕ → Input) (s : System n α) (k : ℕ) : Prop where
  rest : (after c s x k).intc.Resting
  master : (after c s x k).intc.irqStatus.getLsbD 0 = false
  epc : (after c s x k).intc.irqEpc = s.intc.irqEpc
  mask : (after c s x k).intc.irqMask = s.intc.irqMask
  calls : ∀ j < k, ¬ Links (after c s x j)

theorem Off.start (hrest : s.intc.Resting) (hmaster : s.intc.irqStatus.getLsbD 0 = false) :
    Off c x s 0 where
  rest := hrest
  master := hmaster
  epc := rfl
  mask := rfl
  calls := fun _ hj => absurd hj (Nat.not_lt_zero _)

theorem Off.irqAck (h : Off c x s k) : (after c s x k).irqAck c = false :=
  irqAck_of_resting h.rest

/-- An inert cycle keeps interrupts off. -/
theorem Off.succ (h : Off c x s k) (hin : Inert c (after c s x k)) : Off c x s (k + 1) where
  rest := by
    rw [after_succ]
    exact h.rest.step (.inr h.master)
  master := by
    rw [after_succ]
    refine IntControl.master_step (.inr ⟨h.master, ?_⟩)
    rintro ⟨hw, -⟩
    rw [hin.writes] at hw
    cases hw
  epc := by rw [after_succ, System.step_irqEpc_hold (.inl h.rest.irq) hin.except, h.epc]
  mask := by
    rw [after_succ, ← h.mask]
    exact if_neg (by rw [hin.writes]; exact Bool.false_ne_true)
  calls := fun j hj => by
    rcases Nat.lt_succ_iff_lt_or_eq.mp hj with hj | rfl
    · exact h.calls j hj
    · exact hin.jump

/-! ## One instruction -/

/-- `k` cycles on, the instruction of `σ` is in execute with interrupts off. -/
structure Leads (L : Contract c) (x : ℕ → Input) (s : System n α) (k : ℕ) (σ : Seq n) : Prop where
  execute : AtExecute L (after c s x k) σ
  off : Off c x s k

namespace Leads

variable (h : Leads L x s k σ) (hstall : ∀ j, (x j).stall = false)
include h

/-- What `σ` executes is inert if it is no jump, no exception, and stores to the RAM. -/
theorem inert (hjump : (σ.ex c).ctl.jump = 0 ∨ (σ.ex c).rd ≠ 1) (hexc : (σ.ex c).except = false)
    (hstore : (σ.ex c).regToMem = true → ramSel (σ.out c L).result = true) :
    Inert c (after c s x k) where
  writes j := by
    have he := h.execute
    by_cases hport : (after c s x k).core.mwait = true
    · by_cases hst : (σ.ex c).regToMem = true
      · have hfast := Seq.fast_of_not_slowShape (L := L) (.inr (.inl hst))
        refine writes_of_ram ?_ j
        rw [Datapath.address_eq_result hport, he.aluOut hfast]
        exact hstore hst
      · refine writes_of_noLane ?_ j
        rw [Datapath.dataW, he.ex]
        exact dataW_of_noStore (Seq.regToMem_eq_false.mp (by simpa using hst)) _
    · exact writes_of_noPort (by simpa using hport) j
  except := by rw [h.execute.ex, hexc]
  jump := by
    rcases hjump with hjump | hrd
    · exact not_links_of_jump (by rw [h.execute.ex, hjump])
    · rintro ⟨-, hr⟩
      rw [h.execute.ex] at hr
      exact hrd hr

include hstall

/-- A computation. -/
theorem plain (hfast : L.slow (σ.ex c).ctl.aluOp = false) (hplain : (σ.ex c).dataAccess = false)
    (hjump : (σ.ex c).ctl.jump = 0) (hexc : (σ.ex c).except = false)
    (htaken : σ.taken c L = false) (hram : ramSel (σ.pc + 4) = true) (io : Word) :
    Leads L x s (k + 1) (σ.next c L io) where
  execute := by
    rw [after_succ]
    exact h.execute.step_next (hstall k) hfast hplain io hexc htaken h.off.irqAck hram
  off := h.off.succ (h.inert (.inl hjump) hexc fun hst => by
    rw [Seq.noStore hplain] at hst
    cases hst)

omit h in
/-- From decode on, with nothing left in execute. -/
theorem of_decode (hd : AtDecode L (after c s x k) σ)
    (hload : (after c s x k).core.ex.memToReg = false) (hoff : Off c x s k)
    (hram : ramSel σ.pc = true) : Leads L x s (k + 1) σ where
  execute := by
    rw [after_succ]
    exact hd.step_execute (hstall k) hload hoff.irqAck hram
  off := hoff.succ (hd.toCalm.inert hload)

omit h in
/-- The same with a harmless load in execute, which takes its two cycles first. -/
theorem of_atDecode (hd : AtDecode L (after c s x k) σ) (hoff : Off c x s k)
    (hram : ramSel σ.pc = true) : ∃ d, Leads L x s (k + d) σ := by
  cases hload : (after c s x k).core.ex.memToReg with
  | false => exact ⟨1, of_decode hstall hd hload hoff hram⟩
  | true =>
    have hin : Inert c (after c s x k) :=
      { writes := writes_of_noLane (by
          obtain ⟨w, hw⟩ := hd.decoded
          rw [Datapath.dataW, hw]
          exact dataW_of_noStore (by simpa [decode_regToMem, hw] using hd.harmless.store) _)
        except := hd.harmless.system
        jump := not_links_of_jump hd.harmless.jump }
    have ha : AtAccess L (after c s x (k + 1)) σ := by
      rw [after_succ]
      exact (hd.step_stray (hstall k) hload).1
    have hd' := ha.step (hstall (k + 1))
    rw [← after_succ] at hd'
    exact ⟨3, of_decode hstall hd'.1 hd'.2 ((hoff.succ hin).succ ha.inert) hram⟩

/-- A store to the RAM. -/
theorem store (hst : (σ.ex c).regToMem = true) (hsel : ramSel (σ.out c L).result = true)
    (hram : ramSel (σ.pc + 4) = true) (io : Word) : Leads L x s (k + 3) (σ.next c L io) := by
  obtain ⟨hjump, hbranch, -, -⟩ := (σ.exclusive L).ofStore (Seq.regToMem_iff.mp hst)
  have ha : AtAccess L (after c s x (k + 1)) (σ.next c L io) := by
    rw [after_succ]
    exact (h.execute.step_store io (hstall k) hst).1
  have hoff := h.off.succ (h.inert (.inl hjump) (Execute.except_of_branch_zero hbranch)
    fun _ => hsel)
  have hd := ha.step (hstall (k + 1))
  rw [← after_succ] at hd
  refine of_decode hstall hd.1 hd.2 (hoff.succ ha.inert) ?_
  show ramSel (if σ.taken c L then _ else σ.pc + 4) = true
  rw [Seq.taken_of_straight hjump hbranch]
  exact hram

/-- The word a load of `σ` finds on the bus, `k` cycles on. -/
theorem load (hld : (σ.ex c).memToReg = true) (hram : ramSel (σ.pc + 4) = true) :
    Leads L x s (k + 3)
      (σ.next c L ((after c s x (k + 1)).dataIn c (x (k + 1)))) := by
  obtain ⟨hstore, hjump, hbranch⟩ := load_shape (σ.exclusive L) (Seq.memToReg_iff.mp hld)
  have hl : AtLoad L (after c s x (k + 1)) σ := by
    rw [after_succ]
    exact (h.execute.step_load (hstall k) hld).1
  have hoff := h.off.succ (h.inert (.inl hjump) (Execute.except_of_branch_zero hbranch)
    fun hst => by
      rw [hl.noStore] at hst
      cases hst)
  have hd := hl.step (hstall (k + 1))
  rw [← after_succ] at hd
  refine of_decode hstall hd.1 hd.2 (hoff.succ hl.inert) ?_
  show ramSel (if σ.taken c L then _ else σ.pc + 4) = true
  rw [Seq.taken_of_straight hjump hbranch]
  exact hram

/-- A jump that is no call, or a taken branch. -/
theorem taken (hfast : L.slow (σ.ex c).ctl.aluOp = false) (hplain : (σ.ex c).dataAccess = false)
    (hjump : (σ.ex c).ctl.jump = 0 ∨ (σ.ex c).rd ≠ 1) (htaken : σ.taken c L = true) (io : Word)
    (hram : ramSel (σ.next c L io).pc = true) : Leads L x s (k + 3) (σ.next c L io) := by
  have hoff := h.off.succ (h.inert hjump (Seq.not_except_of_taken L htaken) fun hst => by
    rw [Seq.noStore hplain] at hst
    cases hst)
  obtain ⟨hf, hbds, hdly⟩ := h.execute.step_taken (hstall k) hfast hplain io htaken
  have hset := System.step_settled (c := c) (hstall k) h.execute.settled h.execute.ack
  rw [← after_succ] at hf hbds hdly hset
  have hb : (after c s x (k + 1)).core.bubble c (after c s x (k + 1)).intc.irq = true := by
    simp [Datapath.bubble, hbds]
  have hd := hf.step_decode hset hdly (hstall (k + 1)) hoff.irqAck (inert_of_bubble hb _ _)
  have hex := hf.step_ex_bubble (hstall (k + 1)) (hf.mwait_of_noLoad hf.noLoad) hb
  rw [← after_succ] at hd hex
  refine of_decode hstall hd ?_ (hoff.succ (hf.toCalm.inert hf.noLoad)) hram
  rw [hex]
  exact bubble_noLoad L

end Leads

/-! ## Behind an exception -/

/-- An exception clears the master bit. -/
theorem master_of_except (hexc : s.core.ex.except = true) :
    (s.step c i).intc.irqStatus.getLsbD 0 = false := by
  have hclear : ((s.bus c).irqAck || (s.bus c).exception) = true := by
    show (_ || s.core.ex.except) = true
    rw [hexc, Bool.or_true]
  show (s.intc.statusStep (s.bus c)).getLsbD 0 = false
  rw [IntControl.statusStep, if_pos hclear, BitVec.getLsbD_and]
  simp

/-- A calm cycle without an access keeps a cleared master bit. -/
theorem Calm.master (h : Calm L s σ) (hload : s.core.ex.memToReg = false)
    (hmaster : s.intc.irqStatus.getLsbD 0 = false) :
    (s.step c i).intc.irqStatus.getLsbD 0 = false := by
  refine IntControl.master_step (.inr ⟨hmaster, ?_⟩)
  rintro ⟨hw, -⟩
  rw [(h.inert hload).writes] at hw
  cases hw

section Except

variable (h : AtExecute L s σ) (hi : Runnable L s (x 0)) (hexc : s.core.ex.except = true)
include h hexc

theorem AtExecute.not_links_of_except : ¬ Links s := by
  rintro ⟨hjump, -⟩
  have htaken : σ.taken c L = true := by rw [Seq.taken, ← h.ex, hjump, Bool.or_true]
  rw [h.ex, Seq.not_except_of_taken L htaken] at hexc
  cases hexc

include hi

/-- With a request that is accepted along with the exception, and answered in the two cycles
behind. -/
theorem AtExecute.enter_except_ack (hstall : ∀ j, (x j).stall = false)
    (hack : s.irqAck c = true) :
    ∃ k, Leads L (fun j => x (2 + j)) (after c s x 2) k { σ with pc := s.intc.irqVector } ∧
      (after c s x 2).intc.irqEpc = σ.pc + 8 ∧ ∀ j < 2, ¬ Links (after c s x j) := by
  obtain ⟨hvec, hnop⟩ := hi.handler (.inr hexc)
  obtain ⟨-, hepc, -⟩ := h.step_except_runnable hi hexc
  have ha := h.step_except_ack hi hexc hack
  have hv := ha.step (i := x 1) (hstall 1)
  have hword : Seq.fetch { σ with pc := s.intc.irqVector } = nop := by
    rw [← hnop, h.ram]
    rfl
  have hd := hv.step (i := x 2) (hstall 2) hvec hword
  have hone : after c s x 1 = s.step c (x 0) := after_succ
  have htwo : after c s x 2 = (s.step c (x 0)).step c (x 1) := by rw [after_succ, hone]
  have hmaster := ha.toCalm.master (i := x 1) ha.noLoad (master_of_except hexc)
  have hepc₂ := ha.step_irqEpc (i := x 1)
  rw [← htwo] at hv hd hmaster hepc₂
  have hstate : (after c s x 2).intc.pulseState ≠ .int := by
    rw [hv.req.1]
    decide
  have hnext : (after c s x 2).intc.pulseNextState ≠ .int := by
    rw [hv.req.2.1]
    decide
  have hoff : Off c (fun j => x (2 + j)) (after c s x 2) 0 :=
    .start ⟨hv.req.2.2, hstate, hnext⟩ hmaster
  obtain ⟨d, hlead⟩ := Leads.of_atDecode (k := 1) (fun j => hstall (2 + j)) hd
    (hoff.succ (hv.toCalm.inert hv.noLoad)) hvec
  refine ⟨1 + d, hlead, hepc₂.trans hepc, fun j hj => ?_⟩
  obtain rfl | rfl : j = 0 ∨ j = 1 := by omega
  · exact h.not_links_of_except hexc
  · rw [hone]
    exact not_links_of_jump ha.harmless.jump

/-- With no request in flight. -/
theorem AtExecute.enter_except_rest (hstall : ∀ j, (x j).stall = false)
    (hrest : ¬ s.intc.InFlight false (x 0).extioIn) :
    ∃ k, Leads L (fun j => x (1 + j)) (after c s x 1) k { σ with pc := s.intc.irqVector } ∧
      (after c s x 1).intc.irqEpc = σ.pc + 8 ∧ ∀ j < 1, ¬ Links (after c s x j) := by
  obtain ⟨hvec, -⟩ := hi.handler (.inr hexc)
  obtain ⟨hf, hepc, hdly, -, hbehind⟩ := h.step_except_runnable hi hexc
  have hresting : (s.step c (x 0)).intc.Resting := by
    have hstep : (s.step c (x 0)).intc = s.intc.step false (s.bus c) (s.dataRead c (x 0))
        (x 0).extioIn := by
      rw [← hstall 0]
      rfl
    rw [hstep]
    exact IntControl.resting_step hrest
  have hack : s.irqAck c = false := irqAck_of_resting (IntControl.resting_of_not_inFlight hrest)
  have hone : after c s x 1 = s.step c (x 0) := after_succ
  have hd := hf.step_decode (System.step_settled (hstall 0) h.settled h.ack)
    (hdly.trans hack) (hstall 1) (irqAck_of_resting hresting) (hbehind (x 1))
  have hmaster := master_of_except (c := c) (i := x 0) hexc
  rw [← hone] at hd hf hepc hresting hmaster
  have hoff : Off c (fun j => x (1 + j)) (after c s x 1) 0 := .start hresting hmaster
  obtain ⟨d, hlead⟩ := Leads.of_atDecode (k := 1) (fun j => hstall (1 + j)) hd
    (hoff.succ (hf.toCalm.inert hf.noLoad)) hvec
  refine ⟨1 + d, hlead, hepc, fun j hj => ?_⟩
  obtain rfl : j = 0 := by omega
  exact h.not_links_of_except hexc

/-- An exception with no request in flight, or with one that is accepted along with it: the
handler is entered once, with interrupts off. -/
theorem AtExecute.enter_except (hstall : ∀ j, (x j).stall = false)
    (hreq : s.irqAck c = true ∨ ¬ s.intc.InFlight false (x 0).extioIn) :
    ∃ d k, Leads L (fun j => x (d + j)) (after c s x d) k { σ with pc := s.intc.irqVector } ∧
      (after c s x d).intc.irqEpc = σ.pc + 8 ∧ ∀ j < d, ¬ Links (after c s x j) := by
  rcases hreq with hack | hrest
  · exact ⟨2, h.enter_except_ack hi hexc hstall hack⟩
  · exact ⟨1, h.enter_except_rest hi hexc hstall hrest⟩

end Except

/-! ## Blocks of code -/

namespace Seq

theorem next_regs_of_ne {r : BitVec 5} (h : (σ.ex c).rd ≠ r) (io : Word) :
    (σ.next c L io).regs r = σ.regs r := by
  show (if σ.writes c then writeReg σ.regs (σ.ex c).rd (σ.value c L io) else σ.regs) r = _
  split
  · exact if_neg fun hr => h hr.2.symm
  · rfl

theorem next_ram_of_noStore (h : (σ.ex c).regToMem = false) (io : Word) :
    (σ.next c L io).ram = σ.ram := by simp [next, h]

end Seq

/-- The words `ws` are in the RAM, from `a` on. -/
def Code (ram : BitVec n → Word) : Word → List Word → Prop
  | _, [] => True
  | a, w :: ws => (ramSel a = true ∧ swapBytes (ram (wordIndex n a)) = w) ∧ Code ram (a + 4) ws

/-- Whether they are there, word by word. -/
def decideCode (ram : BitVec n → Word) : (a : Word) → (l : List Word) → Decidable (Code ram a l)
  | _, [] => isTrue trivial
  | a, _ :: ws => @instDecidableAnd _ _ inferInstance (decideCode ram (a + 4) ws)

instance (ram : BitVec n → Word) (a : Word) (l : List Word) : Decidable (Code ram a l) :=
  decideCode ram a l

/-- The address `m` words behind `a`. -/
def wordAt (a : Word) (m : ℕ) : Word := a + BitVec.ofNat 32 (4 * m)

theorem wordAt_zero (a : Word) : wordAt a 0 = a := BitVec.add_zero a

theorem wordAt_add_four (a : Word) (m : ℕ) : wordAt (a + 4) m = wordAt a (m + 1) := by
  rw [wordAt, wordAt, BitVec.add_assoc, show 4 * (m + 1) = 4 + 4 * m by omega, BitVec.ofNat_add]
  rfl

theorem wordAt_succ (a : Word) (m : ℕ) : wordAt a m + 4 = wordAt a (m + 1) := by
  rw [wordAt, wordAt, BitVec.add_assoc, show 4 * (m + 1) = 4 * m + 4 by omega, BitVec.ofNat_add]
  rfl

theorem wordAt_wordAt (a : Word) (i j : ℕ) : wordAt (wordAt a i) j = wordAt a (i + j) := by
  rw [wordAt, wordAt, wordAt, BitVec.add_assoc, ← BitVec.ofNat_add, Nat.mul_add]

theorem code_append {ram : BitVec n → Word} {a : Word} {l₁ l₂ : List Word} :
    Code ram a (l₁ ++ l₂) ↔ Code ram a l₁ ∧ Code ram (wordAt a l₁.length) l₂ := by
  induction l₁ generalizing a with
  | nil => simp [Code, wordAt_zero]
  | cons w l ih =>
    rw [List.cons_append, Code, Code, ih, wordAt_add_four]
    exact and_assoc.symm

/-- A piece of the code. -/
theorem Code.slice {ram : BitVec n → Word} {a : Word} (l₁ l l₂ : List Word)
    (h : Code ram a (l₁ ++ (l ++ l₂))) : Code ram (wordAt a l₁.length) l :=
  (code_append.mp (code_append.mp h).2).1

/-- The word with index `m`. -/
theorem Code.get {ram : BitVec n → Word} {a w : Word} {l : List Word} {m : ℕ} (h : Code ram a l)
    (hm : l[m]? = some w) :
    ramSel (wordAt a m) = true ∧ swapBytes (ram (wordIndex n (wordAt a m))) = w := by
  induction l generalizing a m with
  | nil => cases hm
  | cons w₀ l ih =>
    cases m with
    | zero =>
      cases hm
      rw [wordAt_zero]
      exact h.1
    | succ m =>
      rw [← wordAt_add_four]
      exact ih h.2 hm

/-- A write elsewhere keeps the code. -/
theorem Code.write {ram : BitVec n → Word} {a d v : Word} {l : List Word} {lanes : BitVec 4}
    (h : Code ram a l) (hne : ∀ m < l.length, wordIndex n (wordAt a m) ≠ wordIndex n d) :
    Code (writeRam ram d lanes v) a l := by
  induction l generalizing a with
  | nil => trivial
  | cons w l ih =>
    refine ⟨⟨h.1.1, ?_⟩, ih h.2 fun m hm => ?_⟩
    · have hne₀ := hne 0 (Nat.succ_pos _)
      rw [wordAt_zero] at hne₀
      rw [writeRam, if_neg hne₀]
      exact h.1.2
    · rw [wordAt_add_four]
      exact hne (m + 1) (Nat.succ_lt_succ hm)

/-- The cycles an instruction of a block is in execute or decode behind. -/
def time (e : Execute) : ℕ := if e.dataAccess then 3 else 1

/-- The cycles of a block. -/
def times (c : Core α) (l : List Word) : ℕ := (l.map fun w => time (decode c.control w)).sum

theorem times_cons (w : Word) (l : List Word) :
    times c (w :: l) = time (decode c.control w) + times c l := rfl

/-- An instruction that stays on the straight line, and does not hold the ALU. -/
def Straight (L : Contract c) (e : Execute) : Prop :=
  L.slow e.ctl.aluOp = false ∧ e.ctl.jump = 0 ∧ e.ctl.branch = 0

instance (L : Contract c) (e : Execute) : Decidable (Straight L e) :=
  inferInstanceAs (Decidable (_ ∧ _ ∧ _))

theorem Seq.next_pc_of_straight (h : Straight L (σ.ex c)) (io : Word) :
    (σ.next c L io).pc = σ.pc + 4 := by
  show (if σ.taken c L then _ else σ.pc + 4) = _
  rw [Seq.taken_of_straight h.2.1 h.2.2]
  rfl

/-- A straight instruction, whatever it is. -/
theorem Leads.next (h : Leads L x s k σ) (hstall : ∀ j, (x j).stall = false)
    (hs : Straight L (σ.ex c)) (hsel : (σ.ex c).regToMem = true → ramSel (σ.out c L).result = true)
    (hram : ramSel (σ.pc + 4) = true) :
    ∃ io, Leads L x s (k + time (σ.ex c)) (σ.next c L io) := by
  obtain ⟨hfast, hjump, hbranch⟩ := hs
  rw [time]
  cases hload : (σ.ex c).memToReg with
  | true =>
    rw [if_pos (by rw [Execute.dataAccess, hload, Bool.or_true])]
    exact ⟨_, h.load hstall hload hram⟩
  | false =>
    cases hstore : (σ.ex c).regToMem with
    | true =>
      rw [if_pos (by rw [Execute.dataAccess, hstore, Bool.true_or])]
      exact ⟨0, h.store hstall hstore (hsel hstore) hram 0⟩
    | false =>
      have hplain : (σ.ex c).dataAccess = false := by rw [Execute.dataAccess, hload, hstore]; rfl
      rw [if_neg (by rw [hplain]; exact Bool.false_ne_true)]
      exact ⟨0, h.plain hstall hfast hplain hjump (Execute.except_of_branch_zero hbranch)
        (Seq.taken_of_straight hjump hbranch) hram 0⟩

/-- A block of straight code keeps what each of its instructions keeps. -/
theorem Leads.block {P : Seq n → Prop} {a w₀ : Word} {l : List Word}
    (h : Leads L x s k σ) (hstall : ∀ j, (x j).stall = false)
    (hcode : ∀ τ, P τ → Code τ.ram a (l ++ [w₀]))
    (hs : ∀ w ∈ l, Straight L (decode c.control w))
    (hstep : ∀ w ∈ l, ∀ τ : Seq n, P τ → τ.fetch = w →
      ((τ.ex c).regToMem = true → ramSel (τ.out c L).result = true) ∧ ∀ io, P (τ.next c L io))
    (hpc : σ.pc = a) (hP : P σ) :
    ∃ τ, Leads L x s (k + times c l) τ ∧ τ.pc = wordAt a l.length ∧ P τ := by
  induction l generalizing a k σ with
  | nil => exact ⟨σ, h, by rw [hpc]; exact (wordAt_zero a).symm, hP⟩
  | cons w l ih =>
    have hfetch : σ.fetch = w := by
      rw [Seq.fetch, hpc]
      exact (hcode σ hP).1.2
    have hex : σ.ex c = decode c.control w := by rw [Seq.ex, hfetch]
    have hnext : ramSel (a + 4) = true := by
      have htail := (hcode σ hP).2
      cases l with
      | nil => exact htail.1.1
      | cons _ _ => exact htail.1.1
    have hs₀ : Straight L (σ.ex c) := by
      rw [hex]
      exact hs w List.mem_cons_self
    obtain ⟨hsel, hkeep⟩ := hstep w List.mem_cons_self σ hP hfetch
    obtain ⟨io, h'⟩ := h.next hstall hs₀ hsel (by rw [hpc]; exact hnext)
    obtain ⟨τ, hτ, hpcτ, hPτ⟩ := ih h' (fun τ hτ => (hcode τ hτ).2)
      (fun w hw => hs w (List.mem_cons_of_mem _ hw))
      (fun w hw => hstep w (List.mem_cons_of_mem _ hw))
      (by rw [Seq.next_pc_of_straight hs₀, hpc]) (hkeep io)
    refine ⟨τ, ?_, by rw [hpcτ, wordAt_add_four]; rfl, hPτ⟩
    rw [times_cons, ← hex, ← Nat.add_assoc]
    exact hτ

end HfRisc.Pipe
