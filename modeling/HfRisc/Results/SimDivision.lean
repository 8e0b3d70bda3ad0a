import HfRisc.Results.SimStep
import HfRisc.Sim.Lockstep

/-!
# Division in the simulators

The M extension defines a result for every divisor. The simulators leave zero where
the divisor is zero, and divide the most negative number by -1 on the host, where
the quotient is out of range.
-/

namespace HfRisc.Results

open HfRisc.Sim

/-! ## The instructions -/

/-- The division instructions. -/
inductive DivOp
  | div | divu | rem | remu
deriving DecidableEq, Repr

namespace DivOp

/-- `funct3`. -/
def funct3 : DivOp → Word
  | .div => 4
  | .divu => 5
  | .rem => 6
  | .remu => 7

/-- The word is this instruction. -/
def Encodes (op : DivOp) (w : Word) : Prop :=
  opcode w = 0x33 ∧ funct7 w = 0x1 ∧ Sim.funct3 w = op.funct3

instance (op : DivOp) (w : Word) : Decidable (op.Encodes w) := inferInstanceAs (Decidable (_ ∧ _))

/-- What the M extension defines: truncating division, and by zero the quotient with
all bits set and the dividend as the remainder. -/
def spec (x y : Word) : DivOp → Word
  | .div => if y = 0 then BitVec.allOnes 32 else BitVec.ofInt 32 (x.toInt.tdiv y.toInt)
  | .divu => if y = 0 then BitVec.allOnes 32 else BitVec.ofNat 32 (x.toNat / y.toNat)
  | .rem => if y = 0 then x else BitVec.ofInt 32 (x.toInt.tmod y.toInt)
  | .remu => if y = 0 then x else BitVec.ofNat 32 (x.toNat % y.toNat)

/-- The signed instructions. -/
def Signed (op : DivOp) : Prop := op = .div ∨ op = .rem

instance (op : DivOp) : Decidable op.Signed := inferInstanceAs (Decidable (_ ∨ _))

/-- When the simulators leave that: by zero only the remainders of zero, and no
quotient out of range. -/
def Divides (x y : Word) (op : DivOp) : Prop :=
  if y = 0 then (op = .rem ∨ op = .remu) ∧ x = 0
  else ¬ (op.Signed ∧ x = BitVec.intMin 32 ∧ y = -1)

instance (x y : Word) (op : DivOp) : Decidable (op.Divides x y) :=
  inferInstanceAs (Decidable (ite _ _ _))

/-- A quotient in range is the one of the integers. -/
theorem ofInt_tdiv {x y : Word} (h : ¬ (x = BitVec.intMin 32 ∧ y = -1)) :
    BitVec.ofInt 32 (x.toInt.tdiv y.toInt) = x.sdiv y := by
  have hne : x ≠ BitVec.intMin 32 ∨ y ≠ -1#32 := by
    by_contra hc
    rw [not_or, not_not, not_not] at hc
    exact h hc
  rw [← BitVec.toInt_sdiv_of_ne_or_ne x y hne, BitVec.ofInt_toInt]

theorem ofInt_tmod (x y : Word) : BitVec.ofInt 32 (x.toInt.tmod y.toInt) = x.srem y := by
  rw [← BitVec.toInt_srem, BitVec.ofInt_toInt]

/-- What the row of the instruction does. -/
theorem action_eq {op : DivOp} {w : Word} (hw : op.Encodes w) (pc : Word) (o : Operands) :
    action w pc o =
      if o.y = 0 then .write 0
      else if op.Signed ∧ o.x = BitVec.intMin 32 ∧ o.y = -1 then .undefined
      else .write (op.spec o.x o.y) := by
  obtain ⟨hop, h7, h3⟩ := hw
  have hrow : action w pc o = actionMulDiv op.funct3 o := by
    simp [action, hop, actionOp, h7, h3]
  rw [hrow]
  by_cases hy : o.y = 0
  · rw [if_pos hy]
    cases op <;> simp [actionMulDiv, funct3, hy]
  rw [if_neg hy]
  cases op with
  | div =>
    show (if o.y ≠ 0 then signedDivision (o.x.sdiv o.y) o.x o.y else Action.write 0) = _
    rw [if_pos hy, signedDivision]
    by_cases hr : o.x = BitVec.intMin 32 ∧ o.y = -1
    · rw [if_pos hr, if_pos ⟨.inl rfl, hr⟩]
    · rw [if_neg hr, if_neg (fun h => hr h.2), spec, if_neg hy, ofInt_tdiv hr]
  | divu =>
    show (if o.y ≠ 0 then Action.write (o.x / o.y) else Action.write 0) = _
    rw [if_pos hy, if_neg (by rintro ⟨h | h, -⟩ <;> cases h), spec, if_neg hy]
    congr 1
    apply BitVec.eq_of_toNat_eq
    rw [BitVec.toNat_udiv, BitVec.toNat_ofNat,
      Nat.mod_eq_of_lt (Nat.lt_of_le_of_lt (Nat.div_le_self _ _) o.x.isLt)]
  | rem =>
    show (if o.y ≠ 0 then signedDivision (o.x.srem o.y) o.x o.y else Action.write 0) = _
    rw [if_pos hy, signedDivision]
    by_cases hr : o.x = BitVec.intMin 32 ∧ o.y = -1
    · rw [if_pos hr, if_pos ⟨.inr rfl, hr⟩]
    · rw [if_neg hr, if_neg (fun h => hr h.2), spec, if_neg hy, ofInt_tmod]
  | remu =>
    show (if o.y ≠ 0 then Action.write (o.x % o.y) else Action.write 0) = _
    rw [if_pos hy, if_neg (by rintro ⟨h | h, -⟩ <;> cases h), spec, if_neg hy]
    congr 1
    apply BitVec.eq_of_toNat_eq
    rw [BitVec.toNat_umod, BitVec.toNat_ofNat,
      Nat.mod_eq_of_lt (Nat.lt_of_le_of_lt (Nat.mod_le _ _) o.x.isLt)]

/-- A division writes a value or is undefined. -/
theorem action_cases {op : DivOp} {w : Word} (hw : op.Encodes w) (pc : Word) (o : Operands) :
    (∃ v, action w pc o = .write v) ∨ action w pc o = .undefined := by
  rw [action_eq hw]
  split_ifs
  · exact .inl ⟨_, rfl⟩
  · exact .inr rfl
  · exact .inl ⟨_, rfl⟩

/-- The row leaves the defined value exactly when the simulators divide. -/
theorem action_eq_iff {op : DivOp} {w : Word} (hw : op.Encodes w) (pc : Word) (o : Operands) :
    action w pc o = .write (op.spec o.x o.y) ↔ op.Divides o.x o.y := by
  rw [action_eq hw, Divides]
  by_cases hy : o.y = 0
  · rw [if_pos hy, if_pos hy, Action.write.injEq]
    cases op with
    | div =>
      rw [spec, if_pos hy]
      exact ⟨fun h => absurd h (by decide), fun h => by rcases h.1 with h | h <;> cases h⟩
    | divu =>
      rw [spec, if_pos hy]
      exact ⟨fun h => absurd h (by decide), fun h => by rcases h.1 with h | h <;> cases h⟩
    | rem =>
      rw [spec, if_pos hy]
      exact ⟨fun h => ⟨.inl rfl, h.symm⟩, fun h => h.2.symm⟩
    | remu =>
      rw [spec, if_pos hy]
      exact ⟨fun h => ⟨.inr rfl, h.symm⟩, fun h => h.2.symm⟩
  · rw [if_neg hy, if_neg hy]
    by_cases hr : op.Signed ∧ o.x = BitVec.intMin 32 ∧ o.y = -1
    · rw [if_pos hr]
      exact ⟨fun h => (nomatch h), fun h => absurd hr h⟩
    · rw [if_neg hr]
      exact ⟨fun _ => hr, fun _ => rfl⟩

end DivOp

/-! ## Cycles -/

/-- The result of a cycle that executes a division: it does not stop, and the
destination has the value the specification defines for what the sources hold. -/
def Leaves (op : DivOp) (b : Base) (w : Word) (r : Except Stop Base) : Prop :=
  ∃ t, r = .ok t ∧ t.r (index (rd w)) = op.spec (b.operands w).x (b.operands w).y

section Cycle

variable {op : DivOp} {w : Word}

/-- A cycle that performs what the row says. -/
structure Performs (b : Base) (w : Word) (r : Except Stop Base) : Prop where
  write : ∀ v, action w b.pc (b.operands w) = .write v →
    ∃ t, r = .ok t ∧ t.r (index (rd w)) = v
  undefined : action w b.pc (b.operands w) = .undefined → ∃ e, r = .error e

theorem Performs.leaves_iff {b : Base} {r : Except Stop Base} (h : Performs b w r)
    (hw : op.Encodes w) :
    Leaves op b w r ↔ op.Divides (b.operands w).x (b.operands w).y := by
  rw [← DivOp.action_eq_iff hw b.pc]
  constructor
  · rintro ⟨t, ht, hv⟩
    rcases DivOp.action_cases hw b.pc (b.operands w) with ⟨v, hact⟩ | hact
    · obtain ⟨t', ht', hv'⟩ := h.write v hact
      have htt : t = t' := by
        rw [ht] at ht'
        exact Except.ok.inj ht'
      rw [hact, ← hv, htt, hv']
    · obtain ⟨e, he⟩ := h.undefined hact
      rw [he] at ht
      cases ht
  · intro hact
    exact h.write _ hact

theorem performs_state {s : State} (hf : s.takeInterrupt.memFetch s.takeInterrupt.pc = .ok w) :
    Performs s.takeInterrupt.toBase w (s.cycle.map fun t => t.toBase) := by
  have hc : s.cycle = (s.takeInterrupt.execute w >>= fun t => .ok t.advance) := by
    show (s.takeInterrupt.memFetch s.takeInterrupt.pc >>= fun inst =>
      s.takeInterrupt.execute inst >>= fun t => .ok t.advance) = _
    rw [hf]
    rfl
  rw [hc, State.execute]
  refine ⟨fun v hv => ?_, fun hu => ?_⟩
  · rw [hv]
    -- the tail of the cycle leaves the registers alone
    exact ⟨_, rfl, if_pos rfl⟩
  · rw [hu]
    exact ⟨_, rfl⟩

theorem performs_cacheState {c : CacheState}
    (hf : c.takeInterrupt.fetch c.takeInterrupt.pc = .ok w) :
    Performs c.takeInterrupt.toBase w (c.cycle.map fun t => t.toBase) := by
  have hc : c.cycle = ((c.takeInterrupt.fetched c.takeInterrupt.pc).execute w >>= fun t =>
      .ok t.advance) := by
    show (c.takeInterrupt.memFetch c.takeInterrupt.pc >>= fun p =>
      p.2.execute p.1 >>= fun t => .ok t.advance) = _
    rw [CacheState.memFetch_eq, hf]
    rfl
  rw [hc, CacheState.execute]
  refine ⟨fun v hv => ?_, fun hu => ?_⟩
  · have hv' : action w (c.takeInterrupt.fetched c.takeInterrupt.pc).pc
        ((c.takeInterrupt.fetched c.takeInterrupt.pc).operands w) = .write v := hv
    rw [hv']
    exact ⟨_, rfl, if_pos rfl⟩
  · have hu' : action w (c.takeInterrupt.fetched c.takeInterrupt.pc).pc
        ((c.takeInterrupt.fetched c.takeInterrupt.pc).operands w) = .undefined := hu
    rw [hu']
    exact ⟨_, rfl⟩

/-- In both simulators and every state, the cycle that executes a division leaves the
value of the specification, with no undefined operation, exactly for `DivOp.Divides`. -/
theorem sim_division (hw : op.Encodes w) :
    (∀ s : State, s.takeInterrupt.memFetch s.takeInterrupt.pc = .ok w →
      (Leaves op s.takeInterrupt.toBase w (s.cycle.map fun t => t.toBase) ↔
        op.Divides (s.takeInterrupt.operands w).x (s.takeInterrupt.operands w).y)) ∧
    (∀ c : CacheState, c.takeInterrupt.fetch c.takeInterrupt.pc = .ok w →
      (Leaves op c.takeInterrupt.toBase w (c.cycle.map fun t => t.toBase) ↔
        op.Divides (c.takeInterrupt.operands w).x (c.takeInterrupt.operands w).y)) :=
  ⟨fun _ hf => (performs_state hf).leaves_iff hw,
    fun _ hf => (performs_cacheState hf).leaves_iff hw⟩

end Cycle

/-! ## Three divisions -/

/-- `div x1, x2, x3`. -/
def divWord : Word := 0x023140b3

/-- The program of one division, with the operands in `x2` and `x3`. -/
def dividing (x y : Word) : State :=
  .start (.start (fun k => if k = 2 then x else if k = 3 then y else 0) 0x40000000 0x40000004
    (fun k => imageByte [divWord] k.toNat) [] false)

/-- `-7 / 2` is `-3`. -/
theorem sim_division_trunc :
    Leaves .div (dividing (-7) 2).toBase divWord ((dividing (-7) 2).cycle.map fun t => t.toBase) :=
  ((sim_division (show DivOp.div.Encodes divWord by decide)).1 (dividing (-7) 2)
    (by decide +kernel)).mpr (by decide +kernel)

/-- `7 / 0` leaves 0 instead of -1, and `-2 ^ 31 / -1` is left to the host. -/
theorem sim_division_zero :
    ¬ Leaves .div (dividing 7 0).toBase divWord ((dividing 7 0).cycle.map fun t => t.toBase) ∧
      (dividing 7 0).cycle.map (fun t => t.r 1) = .ok 0 ∧ DivOp.div.spec 7 0 = -1 ∧
      (dividing (BitVec.intMin 32) (-1)).cycle.map (fun t => t.r 1) = .error .undefined := by
  have hzero : (dividing 7 0).cycle.map (fun t => t.r 1) = .ok 0 := by decide +kernel
  refine ⟨?_, hzero, by decide, by decide +kernel⟩
  rintro ⟨t, ht, hv⟩
  cases hc : (dividing 7 0).cycle with
  | error e =>
    rw [hc] at ht
    cases ht
  | ok t' =>
    rw [hc] at ht hzero
    cases ht
    have h1 : t'.r 1 = 0 := Except.ok.inj hzero
    have h2 : t'.r 1 = BitVec.allOnes 32 := hv
    rw [h1] at h2
    exact absurd h2 (by decide)

end HfRisc.Results
