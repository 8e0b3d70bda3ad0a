import HfRisc.Results.XteaCore
import HfRisc.Soft.XteaHw

/-!
# The driver of the XTEA core and the core

Between two requests the driver leaves `start` down for more cycles than the core needs to take
`ready` back, so no poll sees the `ready` of the request before, however the accesses are spaced. A
program that uses the driver computes what it would compute with the functions of `xtea.c`.
-/

namespace HfRisc.Rtl.Xtea

/-! ## The core at rest -/

/-- The core has not been started for `n` cycles. -/
structure Rested (n : ℕ) (c : Xtea) : Prop where
  state : c.state = .idle ∨ n = 0 ∧ c.state = .done
  ready : 2 ≤ n → c.ready = false

theorem Rested.mono {m n : ℕ} {c : Xtea} (h : Rested n c) (hle : m ≤ n) : Rested m c where
  state := h.state.imp_right fun ⟨hzero, hdone⟩ => ⟨by omega, hdone⟩
  ready := fun hm => h.ready (Nat.le_trans hm hle)

theorem Rested.step {n : ℕ} {c : Xtea} {i : XteaIn} (h : Rested n c) (hi : i.start = false) :
    Rested (n + 1) (c.step i) := by
  obtain hidle | ⟨rfl, hdone⟩ := h.state
  · have hstep : c.step i = { c with state := .idle, ready := false, counter := 0 } := by
      rw [Xtea.step, hidle]
      simp only [hi, Bool.false_eq_true, if_false]
    rw [hstep]
    exact ⟨.inl rfl, fun _ => rfl⟩
  · have hstep : c.step i =
        { c with state := .idle, output := c.v0 ++ c.v1, ready := true } := by
      rw [Xtea.step, hdone]
      simp only [hi, Bool.false_eq_true, if_false]
    rw [hstep]
    exact ⟨.inl rfl, fun hn => absurd hn (by decide)⟩

/-- The result stays on the output until the core is started again. -/
structure Delivered (result : BitVec 64) (c : Xtea) : Prop where
  output : c.output = result
  state : c.state = .idle ∨ c.state = .done ∧ c.v0 ++ c.v1 = result

theorem Delivered.step {result : BitVec 64} {c : Xtea} {i : XteaIn} (h : Delivered result c)
    (hi : i.start = false) : Delivered result (c.step i) := by
  obtain hidle | ⟨hdone, hblock⟩ := h.state
  · have hstep : c.step i = { c with state := .idle, ready := false, counter := 0 } := by
      rw [Xtea.step, hidle]
      simp only [hi, Bool.false_eq_true, if_false]
    rw [hstep]
    exact ⟨h.output, .inl rfl⟩
  · have hstep : c.step i =
        { c with state := .idle, output := c.v0 ++ c.v1, ready := true } := by
      rw [Xtea.step, hdone]
      simp only [hi, Bool.false_eq_true, if_false]
    rw [hstep]
    exact ⟨hblock, .inl rfl⟩

/-! ## A request whose inputs are held -/

section Held

variable {s : Xtea} {encrypt : Bool} {key : BitVec 128} {input : BitVec 64} {k : ℕ}
  (hidle : s.state = .idle)
include hidle

theorem ready_held (hready : s.ready = false) (hk : k ≤ 130) :
    (s.after (fun _ => ⟨true, encrypt, key, input⟩) k).ready = false := by
  have hheld : ∀ j, s.Pending (fun _ => ⟨true, encrypt, key, input⟩) j →
      Held (⟨true, encrypt, key, input⟩ : XteaIn) encrypt key input := fun _ _ => ⟨rfl, rfl, rfl⟩
  rcases Nat.eq_zero_or_pos k with rfl | hpos
  · exact hready
  · exact (after_rounds hidle rfl hheld).2 k hpos hk

theorem finished_held (hk : 131 ≤ k) :
    Finished (s.after (fun _ => ⟨true, encrypt, key, input⟩) k) (result encrypt key input) ∧
      (s.after (fun _ => ⟨true, encrypt, key, input⟩) k).state = .done := by
  have hheld : ∀ j, s.Pending (fun _ => ⟨true, encrypt, key, input⟩) j →
      Held (⟨true, encrypt, key, input⟩ : XteaIn) encrypt key input := fun _ _ => ⟨rfl, rfl, rfl⟩
  have hfinish := (after_rounds hidle rfl hheld).1.finish ⟨true, encrypt, key, input⟩
  rw [← after_succ s (fun _ => ⟨true, encrypt, key, input⟩), ← result_eq] at hfinish
  obtain ⟨d, rfl⟩ : ∃ d, k = 130 + 1 + d := ⟨k - 131, by omega⟩
  have hwhile := finished_while (k := d) hfinish.1 hfinish.2 fun _ _ _ => rfl
  exact ⟨hwhile.1, hwhile.2 rfl⟩

end Held

end HfRisc.Rtl.Xtea

namespace HfRisc.Rtl.XteaPort

open Xtea (Rested Delivered keyWords)

variable {p : XteaPort} {b : ExtBus} {n k : ℕ} {key : BitVec 128} {input result : BitVec 64}
  {encrypt : Bool}

/-! ## Phases of a request -/

/-- `start` has been down for `n` cycles. -/
structure AtRest (n : ℕ) (key : BitVec 128) (input : BitVec 64) (p : XteaPort) : Prop where
  start : p.control.getLsbD 0 = false
  core : Rested n p.core
  key : p.key = key
  input : p.input = input

/-- The request has been with the core for `k` cycles. -/
structure Serving (encrypt : Bool) (key : BitVec 128) (input : BitVec 64) (k : ℕ)
    (p : XteaPort) : Prop where
  coreIn : p.coreIn = ⟨true, encrypt, key, input⟩
  core : ∃ s : Xtea, s.state = .idle ∧ s.ready = false ∧
    p.core = s.after (fun _ => ⟨true, encrypt, key, input⟩) k

/-- The request has been taken back. -/
structure Done (key : BitVec 128) (result : BitVec 64) (p : XteaPort) : Prop where
  start : p.control.getLsbD 0 = false
  core : Delivered result p.core
  key : p.key = key

theorem AtRest.step (h : AtRest n key input p) (hb : b.writesXtea = false) :
    AtRest (n + 1) key input (p.step b) where
  start := by rw [step_control hb, h.start]
  core := h.core.step h.start
  key := by rw [step_key hb, h.key]
  input := by rw [step_input hb, h.input]

theorem AtRest.mono {m : ℕ} (h : AtRest n key input p) (hle : m ≤ n) : AtRest m key input p :=
  ⟨h.start, h.core.mono hle, h.key, h.input⟩

theorem Serving.step_core (h : Serving encrypt key input k p) (b : ExtBus) :
    ∃ s : Xtea, s.state = .idle ∧ s.ready = false ∧
      (p.step b).core = s.after (fun _ => ⟨true, encrypt, key, input⟩) (k + 1) := by
  obtain ⟨s, hstate, hready, hcore⟩ := h.core
  refine ⟨s, hstate, hready, ?_⟩
  rw [XteaPort.step_core, h.coreIn, hcore, Xtea.after_succ]

theorem Serving.step (h : Serving encrypt key input k p) (hb : b.writesXtea = false) :
    Serving encrypt key input (k + 1) (p.step b) where
  coreIn := by
    have hsame : (p.step b).coreIn = p.coreIn := by
      rw [XteaPort.coreIn, step_control hb, step_key hb, step_input hb]
      rfl
    exact hsame.trans h.coreIn
  core := h.step_core b

theorem Done.step (h : Done key result p) (hb : b.writesXtea = false) :
    Done key result (p.step b) where
  start := by rw [step_control hb, h.start]
  core := h.core.step h.start
  key := by rw [step_key hb, h.key]

theorem Done.atRest (h : Done key result p) : AtRest 0 key p.input p where
  start := h.start
  core := ⟨h.core.state.imp_right fun hdone => ⟨rfl, hdone.1⟩, fun hn => absurd hn (by decide)⟩
  key := h.key
  input := rfl

/-- `ready` is what the number of the cycles says. -/
theorem Serving.ready_eq (h : Serving encrypt key input k p) :
    p.core.ready = decide (131 ≤ k) := by
  obtain ⟨s, hstate, hready, hcore⟩ := h.core
  rw [hcore]
  rcases Nat.lt_or_ge k 131 with hlt | hge
  · rw [decide_eq_false (Nat.not_le_of_lt hlt)]
    exact Xtea.ready_held hstate hready (Nat.le_of_lt_succ hlt)
  · rw [decide_eq_true hge]
    exact (Xtea.finished_held hstate hge).1.ready

/-! ## Stores -/

/-- The bus in the cycle of a store. -/
def storeBus (address value : Word) : ExtBus := ⟨address, swapBytes value, 0b1111⟩

theorem step_storeBus {address : Word} (value : Word) (h : address.extractLsb' 24 8 = 0xfa) :
    (p.step (storeBus address value)).key =
        (p.writeRegister (address.extractLsb' 4 4) value).key ∧
      (p.step (storeBus address value)).input =
        (p.writeRegister (address.extractLsb' 4 4) value).input ∧
      (p.step (storeBus address value)).control =
        (p.writeRegister (address.extractLsb' 4 4) value).control := by
  have hwrites : (storeBus address value).writesXtea = true := by
    simp [ExtBus.writesXtea, ExtBus.extPeriph, storeBus, h]
  have hdata : (storeBus address value).dataWritePeriph = value := swapBytes_swapBytes value
  rw [step, hwrites, if_pos rfl, hdata]
  exact ⟨rfl, rfl, rfl⟩

/-- A word of the key is replaced: the others stay. -/
theorem keyWords_replace (key : BitVec 128) (value : Word) {j : ℕ} (hj : j < 4) :
    keyWords (value ++ key.extractLsb' 0 96) j = (if j = 0 then value else keyWords key j) ∧
      keyWords (key.extractLsb' 96 32 ++ (value ++ key.extractLsb' 0 64)) j =
        (if j = 1 then value else keyWords key j) ∧
      keyWords (key.extractLsb' 64 64 ++ (value ++ key.extractLsb' 0 32)) j =
        (if j = 2 then value else keyWords key j) ∧
      keyWords (key.extractLsb' 32 96 ++ value) j = (if j = 3 then value else keyWords key j) := by
  rcases (show j = 0 ∨ j = 1 ∨ j = 2 ∨ j = 3 by omega) with rfl | rfl | rfl | rfl <;>
    refine ⟨?_, ?_, ?_, ?_⟩ <;> ext b hb <;> simp [keyWords] <;> grind

theorem keyWords_writeRegister {i j : ℕ} (hi : i < 4) (hj : j < 4) (value : Word) :
    keyWords (p.writeRegister (BitVec.ofNat 4 (i + 1)) value).key j =
      if j = i then value else keyWords p.key j := by
  obtain ⟨h0, h1, h2, h3⟩ := keyWords_replace p.key value hj
  rcases (show i = 0 ∨ i = 1 ∨ i = 2 ∨ i = 3 by omega) with rfl | rfl | rfl | rfl
  · exact h0
  · exact h1
  · exact h2
  · exact h3

theorem AtRest.store_key (h : AtRest n key input p) {i : ℕ} (hi : i < 4) (value : Word) :
    ∃ key', AtRest (n + 1) key' input
        (p.step (storeBus (BitVec.ofNat 32 (0xfa000010 + 16 * i)) value)) ∧
      ∀ j < 4, keyWords key' j = if j = i then value else keyWords key j := by
  have hplace : (BitVec.ofNat 32 (0xfa000010 + 16 * i)).extractLsb' 24 8 = 0xfa ∧
      (BitVec.ofNat 32 (0xfa000010 + 16 * i)).extractLsb' 4 4 = BitVec.ofNat 4 (i + 1) := by
    revert i
    decide
  obtain ⟨hkey, hinput, hcontrol⟩ := step_storeBus (p := p) value hplace.1
  rw [hplace.2] at hkey hinput hcontrol
  have hframe : (p.writeRegister (BitVec.ofNat 4 (i + 1)) value).input = p.input ∧
      (p.writeRegister (BitVec.ofNat 4 (i + 1)) value).control = p.control := by
    rcases (show i = 0 ∨ i = 1 ∨ i = 2 ∨ i = 3 by omega) with rfl | rfl | rfl | rfl <;>
      exact ⟨rfl, rfl⟩
  refine ⟨_, ⟨?_, h.core.step h.start, rfl, ?_⟩, fun j hj => ?_⟩
  · rw [hcontrol, hframe.2, h.start]
  · rw [hinput, hframe.1, h.input]
  · rw [hkey, keyWords_writeRegister hi hj, h.key]

/-- The word in front of the block. -/
theorem AtRest.store_in0 (h : AtRest n key input p) (value : Word) :
    AtRest (n + 1) key (value ++ input.extractLsb' 0 32)
      (p.step (storeBus 0xfa000050 value)) where
  start := by rw [(step_storeBus value rfl).2.2]; exact h.start
  core := h.core.step h.start
  key := by rw [(step_storeBus value rfl).1]; exact h.key
  input := by rw [(step_storeBus value rfl).2.1, ← h.input]; rfl

theorem AtRest.store_in1 (h : AtRest n key input p) (value : Word) :
    AtRest (n + 1) key (input.extractLsb' 32 32 ++ value)
      (p.step (storeBus 0xfa000060 value)) where
  start := by rw [(step_storeBus value rfl).2.2]; exact h.start
  core := h.core.step h.start
  key := by rw [(step_storeBus value rfl).1]; exact h.key
  input := by rw [(step_storeBus value rfl).2.1, ← h.input]; rfl

/-- `XTEA_CONTROL = 0x2` and the like. -/
theorem AtRest.store_control (h : AtRest n key input p) {value : Word}
    (hvalue : (value.extractLsb' 0 2).getLsbD 0 = false) :
    AtRest (n + 1) key input (p.step (storeBus 0xfa000000 value)) where
  start := by rw [(step_storeBus value rfl).2.2]; exact hvalue
  core := h.core.step h.start
  key := by rw [(step_storeBus value rfl).1]; exact h.key
  input := by rw [(step_storeBus value rfl).2.1]; exact h.input

/-- The request is made once the core has been at rest for a cycle. -/
theorem AtRest.store_start (h : AtRest n key input p) (hn : 0 < n) {value : Word}
    (hvalue : (value.extractLsb' 0 2).getLsbD 0 = true)
    (hencrypt : (value.extractLsb' 0 2).getLsbD 1 = encrypt) :
    Serving encrypt key input 0 (p.step (storeBus 0xfa000000 value)) where
  coreIn := by
    obtain ⟨hkey, hinput, hcontrol⟩ :=
      step_storeBus (p := p) value (show (0xfa000000 : Word).extractLsb' 24 8 = 0xfa from rfl)
    rw [coreIn, hkey, hinput, hcontrol, ← h.key, ← h.input, ← hvalue, ← hencrypt]
    rfl
  core := by
    have hcore : Rested (n + 1) (p.core.step p.coreIn) := h.core.step h.start
    refine ⟨(p.step (storeBus 0xfa000000 value)).core, ?_, hcore.ready (by omega), rfl⟩
    exact hcore.state.resolve_right fun hzero => absurd hzero.1 (Nat.succ_ne_zero n)

/-- The request is taken back when the result is out. -/
theorem Serving.store_stop (h : Serving encrypt key input k p) (hk : 131 ≤ k) {value : Word}
    (hvalue : (value.extractLsb' 0 2).getLsbD 0 = false) :
    Done key (Xtea.result encrypt key input) (p.step (storeBus 0xfa000000 value)) where
  start := by rw [(step_storeBus value rfl).2.2]; exact hvalue
  core := by
    obtain ⟨s, hstate, -, hcore⟩ := h.step_core (storeBus 0xfa000000 value)
    have hheld := @Xtea.finished_held s encrypt key input (k + 1) hstate (by omega)
    rw [← hcore] at hheld
    obtain ⟨hfinished, hdone⟩ := hheld
    exact ⟨hfinished.output, .inr ⟨hdone, hfinished.block⟩⟩
  key := by
    rw [(step_storeBus value rfl).1]
    exact congrArg XteaIn.key h.coreIn

end HfRisc.Rtl.XteaPort

namespace HfRisc.Soft.XteaHw

open HfRisc.Rtl (ExtBus XteaPort swapBytes_swapBytes)
open HfRisc.Rtl.XteaPort (AtRest Serving Done storeBus)
open HfRisc.Rtl.Xtea (keyWords)

/-- No request is made, and these are the words of the key. -/
structure Resting (words : ℕ → Word) (p : XteaPort) : Prop where
  start : p.control.getLsbD 0 = false
  state : p.core.state = .idle ∨ p.core.state = .done
  key : ∀ j < 4, keyWords p.key j = words j

theorem Resting.atRest {words : ℕ → Word} {p : XteaPort} (h : Resting words p) :
    AtRest 0 p.key p.input p :=
  ⟨h.start, ⟨h.state.imp_right fun hdone => ⟨rfl, hdone⟩, fun hn => absurd hn (by decide)⟩, rfl,
    rfl⟩

theorem resting_of_atRest {n : ℕ} {key : BitVec 128} {input : BitVec 64} {words : ℕ → Word}
    {p : XteaPort} (h : AtRest n key input p) (hkey : ∀ j < 4, keyWords key j = words j) :
    Resting words p :=
  ⟨h.start, h.core.state.imp_right And.right, fun j hj => by rw [h.key, hkey j hj]⟩

/-- What a request gives back. -/
def cipher (encrypt : Bool) (key : BitVec 128) (v : Word × Word) : Word × Word :=
  if encrypt then encipher 32 v (keyWords key) else decipher 32 v (keyWords key)

theorem extract_append {n m : ℕ} (x : BitVec n) (y : BitVec m) :
    (x ++ y).extractLsb' m n = x ∧ (x ++ y).extractLsb' 0 m = y := by
  constructor
  · ext i hi
    simp [BitVec.getLsbD_append, BitVec.getLsbD_eq_getElem hi]
  · ext i hi
    simp [BitVec.getLsbD_append, hi]

theorem result_append (encrypt : Bool) (key : BitVec 128) (v : Word × Word) :
    Rtl.Xtea.result encrypt key (v.1 ++ v.2) =
      (cipher encrypt key v).1 ++ (cipher encrypt key v).2 := by
  obtain ⟨hhigh, hlow⟩ := extract_append v.1 v.2
  rw [Rtl.Xtea.result, hhigh, hlow]
  rfl

/-- Only four words of the key are read. -/
theorem cipher_congr {key : BitVec 128} {words : ℕ → Word} (h : ∀ j < 4, keyWords key j = words j)
    (encrypt : Bool) (v : Word × Word) :
    cipher encrypt key v = if encrypt then encipher 32 v words else decipher 32 v words := by
  have hlow : ∀ sum : Word, Xtea.lowKey (keyWords key) sum = Xtea.lowKey words sum := by
    intro sum
    have hlt : (sum &&& 3).toNat < 4 := by
      rw [BitVec.toNat_and]
      exact Nat.lt_succ_of_le Nat.and_le_right
    rw [Xtea.lowKey, Xtea.lowKey, h _ hlt]
  have hhigh : ∀ sum : Word, Xtea.highKey (keyWords key) sum = Xtea.highKey words sum := by
    intro sum
    have hlt : ((sum >>> 11) &&& 3).toNat < 4 := by
      rw [BitVec.toNat_and]
      exact Nat.lt_succ_of_le Nat.and_le_right
    rw [Xtea.highKey, Xtea.highKey, h _ hlt]
  have henc : Xtea.encipherRound (keyWords key) = Xtea.encipherRound words := by
    funext s
    rw [Xtea.encipherRound, Xtea.encipherRound, hlow]
    simp only [hhigh]
  have hdec : Xtea.decipherRound (keyWords key) = Xtea.decipherRound words := by
    funext s
    rw [Xtea.decipherRound, Xtea.decipherRound, hhigh]
    simp only [hlow]
  rw [cipher, encipher, encipher, decipher, decipher, henc, hdec]

namespace Machine

variable {env : World} {m : Machine} {n k : ℕ} {key : BitVec 128} {input result : BitVec 64}
  {encrypt : Bool}

/-! ## Between two accesses -/

section Quiet

variable (hother : ∀ t, (env.bus t).writesXtea = false)
include hother

/-- What a cycle without a write keeps, the cycles before an access keep. -/
theorem wait_phase (phase : ℕ → XteaPort → Prop)
    (hstep : ∀ {n p b}, phase n p → b.writesXtea = false → phase (n + 1) (p.step b))
    (h : phase n m.port) : phase (n + env.gap m.time) (m.wait env).port := by
  rw [wait]
  induction env.gap m.time with
  | zero => exact h
  | succ g ih =>
    rw [Function.iterate_succ_apply']
    exact hstep ih (hother _)

theorem wait_atRest (h : AtRest n key input m.port) : AtRest n key input (m.wait env).port :=
  AtRest.mono (wait_phase hother (AtRest · key input) AtRest.step h) (Nat.le_add_right n _)

theorem wait_done (h : Done key result m.port) : Done key result (m.wait env).port :=
  wait_phase hother (fun _ => Done key result) (fun h hb => h.step hb) (n := 0) h

/-! ## The phases of a request -/

theorem setkey_atRest (h : AtRest n key input m.port) (words : ℕ → Word) :
    ∃ key', AtRest (n + 1) key' input (m.xteaHwSetkey env words).port ∧
      ∀ j < 4, keyWords key' j = words j := by
  have hstore : ∀ {m : Machine} {key : BitVec 128} {n : ℕ}, AtRest n key input m.port →
      ∀ {i : ℕ}, i < 4 → ∃ key', AtRest (n + 1) key' input
          (m.store env (BitVec.ofNat 32 (0xfa000010 + 16 * i)) (words i)).port ∧
        ∀ j < 4, keyWords key' j = if j = i then words i else keyWords key j :=
    fun h _ hi => (wait_atRest hother h).store_key hi _
  obtain ⟨key0, h0, hkey0⟩ := hstore h (show 0 < 4 by decide)
  obtain ⟨key1, h1, hkey1⟩ := hstore h0 (show 1 < 4 by decide)
  obtain ⟨key2, h2, hkey2⟩ := hstore h1 (show 2 < 4 by decide)
  obtain ⟨key3, h3, hkey3⟩ := hstore h2 (show 3 < 4 by decide)
  refine ⟨key3, h3.mono (by omega), fun j hj => ?_⟩
  rw [hkey3 j hj, hkey2 j hj, hkey1 j hj, hkey0 j hj]
  rcases (show j = 0 ∨ j = 1 ∨ j = 2 ∨ j = 3 by omega) with rfl | rfl | rfl | rfl <;> rfl

/-- The polls end, and they end behind the last round: before it `ready` is low. -/
theorem poll_serving {fuel : ℕ} (h : Serving encrypt key input k m.port) (hfuel : 131 - k < fuel) :
    ∃ m' k', poll env fuel m = some m' ∧ Serving encrypt key input k' m'.port ∧ 131 ≤ k' := by
  induction fuel generalizing m k with
  | zero => exact absurd hfuel (Nat.not_lt_zero _)
  | succ fuel ih =>
    have hwait := wait_phase hother (Serving encrypt key input) Serving.step h
    have hnext := hwait.step (b := ⟨xteaControl, 0, 0b0000⟩) rfl
    have hread : (m.load env xteaControl).1 &&& 0x4 =
        if (m.wait env).port.core.ready then 0x4 else 0 := by
      rw [load, XteaPort.dataReadXtea, swapBytes_swapBytes]
      show (0#29 ++ (BitVec.ofBool (m.wait env).port.core.ready ++ (m.wait env).port.control)) &&&
        0x4 = _
      generalize (m.wait env).port.control = control
      cases (m.wait env).port.core.ready <;> revert control <;> decide
    unfold poll
    dsimp only
    rw [hread, hwait.ready_eq]
    rcases Nat.lt_or_ge (k + env.gap m.time) 131 with hlt | hge
    · rw [decide_eq_false (Nat.not_le_of_lt hlt)]
      exact ih hnext (by omega)
    · rw [decide_eq_true hge]
      exact ⟨_, _, rfl, hnext, Nat.le_succ_of_le hge⟩

theorem load_done (h : Done key result m.port) :
    (m.load env xteaOut0).1 = result.extractLsb' 32 32 ∧
      (m.load env xteaOut1).1 = result.extractLsb' 0 32 ∧
      Done key result (m.load env xteaOut0).2.port ∧
      Done key result (m.load env xteaOut1).2.port := by
  have hwait := wait_done hother h
  have houtput := hwait.core.output
  refine ⟨?_, ?_, hwait.step rfl, hwait.step rfl⟩
  · rw [load, XteaPort.dataReadXtea, swapBytes_swapBytes, ← houtput]
    rfl
  · rw [load, XteaPort.dataReadXtea, swapBytes_swapBytes, ← houtput]
    rfl

/-- A request, from the stores of the block on. -/
theorem process_eq {fuel : ℕ} (h : AtRest 1 key input m.port) (hfuel : 131 < fuel) {control : Word}
    (hstart : (control.extractLsb' 0 2).getLsbD 0 = true)
    (hencrypt : (control.extractLsb' 0 2).getLsbD 1 = encrypt) (v : Word × Word) :
    ∃ m' input', m.process env fuel control v = some (cipher encrypt key v, m') ∧
      AtRest 0 key input' m'.port := by
  -- the block is in place after two stores, in which the core comes to rest
  have hin0 := (wait_atRest hother h).store_in0 v.1
  have hin1 := (wait_atRest (m := m.store env xteaIn0 v.1) hother hin0).store_in1 v.2
  rw [(extract_append v.1 (input.extractLsb' 0 32)).1] at hin1
  have hserve := (wait_atRest (m := (m.store env xteaIn0 v.1).store env xteaIn1 v.2) hother
    hin1).store_start (by decide) hstart hencrypt
  obtain ⟨m₁, k, hpoll, hserve', hk⟩ := poll_serving
    (m := ((m.store env xteaIn0 v.1).store env xteaIn1 v.2).store env xteaControl control) hother
    hserve (show 131 - 0 < fuel by omega)
  -- `start` is taken back, and the result stays
  have hwait := wait_phase hother (Serving encrypt key (v.1 ++ v.2)) Serving.step hserve'
  have hdone := hwait.store_stop (by omega)
    (show ((0x0 : Word).extractLsb' 0 2).getLsbD 0 = false from rfl)
  obtain ⟨hout0, -, hdone0, -⟩ := load_done (m := m₁.store env xteaControl 0x0) hother hdone
  obtain ⟨-, hout1, -, hdone1⟩ := load_done hother hdone0
  rw [result_append] at hout0 hout1
  rw [(extract_append _ _).1] at hout0
  rw [(extract_append _ _).2] at hout1
  refine ⟨_, _, ?_, hdone1.atRest⟩
  unfold process
  dsimp only
  rw [hpoll]
  exact congrArg (fun w => some (w, _)) (Prod.ext hout0 hout1)

/-! ## The calls -/

/-- The functions that set the key. -/
theorem process_setkey {fuel : ℕ} {old : ℕ → Word} (h : Resting old m.port)
    (hfuel : 131 < fuel) (words : ℕ → Word) (control : Word)
    (hstart : (control.extractLsb' 0 2).getLsbD 0 = true)
    (hencrypt : (control.extractLsb' 0 2).getLsbD 1 = encrypt) (v : Word × Word) :
    ∃ m', ((m.store env xteaControl 0x2).xteaHwSetkey env words).process env fuel control v =
        some (if encrypt then encipher 32 v words else decipher 32 v words, m') ∧
      Resting words m'.port := by
  have hcontrol := (wait_atRest hother h.atRest).store_control
    (show ((0x2 : Word).extractLsb' 0 2).getLsbD 0 = false from rfl)
  obtain ⟨key, hrest, hkey⟩ :=
    setkey_atRest (m := m.store env xteaControl 0x2) hother hcontrol words
  obtain ⟨m', input', hprocess, hrest'⟩ :=
    process_eq hother (hrest.mono (by omega)) hfuel hstart hencrypt v
  rw [cipher_congr hkey] at hprocess
  exact ⟨m', hprocess, resting_of_atRest hrest' hkey⟩

/-- The functions that use the key there is. -/
theorem process_fast {fuel : ℕ} {words : ℕ → Word} (h : Resting words m.port)
    (hfuel : 131 < fuel) (control : Word) (hstart : (control.extractLsb' 0 2).getLsbD 0 = true)
    (hencrypt : (control.extractLsb' 0 2).getLsbD 1 = encrypt) (v : Word × Word) :
    ∃ m', (m.store env xteaControl 0x2).process env fuel control v =
        some (if encrypt then encipher 32 v words else decipher 32 v words, m') ∧
      Resting words m'.port := by
  have hcontrol := (wait_atRest hother h.atRest).store_control
    (show ((0x2 : Word).extractLsb' 0 2).getLsbD 0 = false from rfl)
  obtain ⟨m', input', hprocess, hrest'⟩ :=
    process_eq (m := m.store env xteaControl 0x2) hother hcontrol hfuel hstart hencrypt v
  rw [cipher_congr h.key] at hprocess
  exact ⟨m', hprocess, resting_of_atRest hrest' h.key⟩

/-- A call is the step of the device. -/
theorem call_eq {fuel : ℕ} {words : ℕ → Word} (h : Resting words m.port) (hfuel : 131 < fuel)
    (r : Request) :
    ∃ m', m.call env fuel r = some ((reference words r).1, m') ∧
      Resting (reference words r).2 m'.port := by
  cases r with
  | encipher v key =>
    obtain ⟨m', hprocess, hrest⟩ := process_setkey hother h hfuel key 0x3 rfl rfl v
    exact ⟨m', congrArg (Option.map _) hprocess, hrest⟩
  | decipher v key =>
    obtain ⟨m', hprocess, hrest⟩ := process_setkey hother h hfuel key 0x1 rfl rfl v
    exact ⟨m', congrArg (Option.map _) hprocess, hrest⟩
  | setkey key =>
    obtain ⟨key', hrest, hkey⟩ := setkey_atRest hother h.atRest key
    exact ⟨_, rfl, resting_of_atRest hrest hkey⟩
  | encipherFast v =>
    obtain ⟨m', hprocess, hrest⟩ := process_fast hother h hfuel 0x3 rfl rfl v
    exact ⟨m', congrArg (Option.map _) hprocess, hrest⟩
  | decipherFast v =>
    obtain ⟨m', hprocess, hrest⟩ := process_fast hother h hfuel 0x1 rfl rfl v
    exact ⟨m', congrArg (Option.map _) hprocess, hrest⟩

theorem serve_eq {fuel : ℕ} (hfuel : 131 < fuel) (rs : List Request) {m : Machine}
    {words : ℕ → Word} (h : Resting words m.port) :
    ∃ m' words', serve env fuel rs m = some (references words rs, m') ∧ Resting words' m'.port := by
  induction rs generalizing m words with
  | nil => exact ⟨m, words, rfl, h⟩
  | cons r rs ih =>
    obtain ⟨m₁, hcall, hrest⟩ := call_eq hother h hfuel r
    obtain ⟨m', words', hserve, hrest'⟩ := ih hrest
    refine ⟨m', words', ?_, hrest'⟩
    rw [serve, hcall]
    show (serve env fuel rs m₁).bind _ = _
    rw [hserve]
    rfl

end Quiet

end Machine

end HfRisc.Soft.XteaHw

namespace HfRisc.Results

open HfRisc.Rtl HfRisc.Soft.XteaHw
open HfRisc.Soft (encipher decipher)

/-- For every program of calls, every spacing of the accesses and whatever else is on the bus
between them, as long as it does not write the registers: from every state in which no request is
made the calls return, and what they give back is what the functions of `xtea.c` compute with the
key set last. -/
theorem xtea_driver_refines (env : World) (m : Machine) (words : ℕ → Word) (rs : List Request)
    (fuel : ℕ) (hother : ∀ t, (env.bus t).writesXtea = false) (hrest : Resting words m.port)
    (hfuel : 131 < fuel) :
    ∃ m' words', m.serve env fuel rs = some (references words rs, m') ∧
      Resting words' m'.port :=
  Machine.serve_eq hother hfuel rs hrest

/-- After `reset`, with the next instruction on the bus in between. -/
theorem xtea_driver_refines_reset :
    ∃ m' words', Machine.serve ⟨fun t => ⟨0x40000000 + BitVec.ofNat 32 t, 0, 0⟩, fun t => t % 3⟩ 132
        [.encipher (0x12345678, 0x90123456) (fun k => BitVec.ofNat 32 k),
          .decipherFast (0x12345678, 0x90123456)] ⟨.reset, 0⟩ =
      some ([some (encipher 32 (0x12345678, 0x90123456) (fun k => BitVec.ofNat 32 k)),
        some (decipher 32 (0x12345678, 0x90123456) (fun k => BitVec.ofNat 32 k))], m') ∧
      Resting words' m'.port :=
  xtea_driver_refines ⟨fun t => ⟨0x40000000 + BitVec.ofNat 32 t, 0, 0⟩, fun t => t % 3⟩ ⟨.reset, 0⟩
    (fun _ => 0)
    [.encipher (0x12345678, 0x90123456) (fun k => BitVec.ofNat 32 k),
      .decipherFast (0x12345678, 0x90123456)] 132
    (fun t => by
      show ((_ == _) && (0 : BitVec 4) != 0) = false
      rw [show ((0 : BitVec 4) != 0) = false from rfl, Bool.and_false])
    ⟨rfl, .inl rfl, by decide⟩ (by decide)

end HfRisc.Results
