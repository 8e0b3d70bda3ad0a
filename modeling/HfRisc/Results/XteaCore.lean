import HfRisc.Lib.Bits
import HfRisc.Rtl.Xtea
import HfRisc.Soft.Xtea

/-!
# The XTEA core and its reference

Four cycles of the core are one round of `encipher` or `decipher`. The result is on the output
131 cycles behind the start, with `ready`, which is low until then from the cycle behind the
start on. In the cycle of the start `ready` may still be high from the request before.
-/

namespace HfRisc.Rtl.Xtea

open HfRisc.Soft.Xtea (Vars encipherRound decipherRound lowKey highKey)

/-- The words of a key in the order of the ports, as the array of the reference. -/
def keyWords (key : BitVec 128) (k : ℕ) : Word := key.extractLsb' (96 - 32 * k) 32

variable {key : BitVec 128} {s : Xtea} {v : Vars} {encrypt : Bool} {r : ℕ}

theorem mix_eq (v : Word) : mix v = Soft.Xtea.mix v := by
  have hleft : v.extractLsb' 0 28 ++ 0#4 = v <<< 4 := by
    refine BitVec.eq_of_toNat_eq ?_
    rw [Lib.toNat_append, Lib.toNat_extract, BitVec.toNat_shiftLeft, Nat.shiftLeft_eq]
    simp only [BitVec.toNat_ofNat]
    omega
  have hright : 0#5 ++ v.extractLsb' 5 27 = v >>> 5 := by
    have hlt := v.isLt
    refine BitVec.eq_of_toNat_eq ?_
    rw [Lib.toNat_append, Lib.toNat_extract, BitVec.toNat_ushiftRight,
      Nat.shiftRight_eq_div_pow]
    simp only [BitVec.toNat_ofNat]
    omega
  rw [mix, hleft, hright, Soft.Xtea.mix]

theorem keyWord_eq (k : BitVec 2) : keyWord key k = keyWords key k.toNat := by
  have hcases : k = 0 ∨ k = 1 ∨ k = 2 ∨ k = 3 := by
    revert k
    decide
  rcases hcases with rfl | rfl | rfl | rfl <;> rfl

/-- The key is selected by the low bits of the sum. -/
theorem add_keyWord_low (sum : Word) :
    sum + keyWord key (sum.extractLsb' 0 2) = lowKey (keyWords key) sum := by
  have hbits : (sum.extractLsb' 0 2).toNat = (sum &&& 3).toNat := by
    rw [Lib.toNat_extract, BitVec.toNat_and, Nat.pow_zero, Nat.div_one]
    exact (Nat.and_two_pow_sub_one_eq_mod _ 2).symm
  rw [keyWord_eq, hbits, lowKey]

/-- And by bits 11 and 12. -/
theorem add_keyWord_high (sum : Word) :
    sum + keyWord key (sum.extractLsb' 11 2) = highKey (keyWords key) sum := by
  have hbits : (sum.extractLsb' 11 2).toNat = ((sum >>> 11) &&& 3).toNat := by
    rw [Lib.toNat_extract, BitVec.toNat_and, BitVec.toNat_ushiftRight,
      Nat.shiftRight_eq_div_pow]
    exact (Nat.and_two_pow_sub_one_eq_mod _ 2).symm
  rw [keyWord_eq, hbits, highKey]

/-! ## A round -/

/-- The variables of the reference. -/
def vars (s : Xtea) : Vars := ⟨s.v0, s.v1, s.sum⟩

/-- The state in which a round begins. -/
def entry (encrypt : Bool) : XteaState := if encrypt then .keySel1 else .keySel2

/-- The round of the direction. -/
def round (encrypt : Bool) (key : BitVec 128) : Vars → Vars :=
  if encrypt then encipherRound (keyWords key) else decipherRound (keyWords key)

/-- `r` rounds are done. -/
structure Between (encrypt : Bool) (v : Vars) (r : ℕ) (s : Xtea) : Prop where
  state : s.state = if r < 32 then entry encrypt else .done
  counter : s.counter = BitVec.ofNat 8 r
  vars : s.vars = v
  ready : s.ready = false

/-- Four cycles with the key and the direction held are a round. -/
theorem Between.round (h : Between encrypt v r s) (hr : r < 32) {a b c d : XteaIn}
    (ha : a.key = key ∧ a.encrypt = encrypt) (hc : c.key = key ∧ c.encrypt = encrypt) :
    (s.step a).ready = false ∧ ((s.step a).step b).ready = false ∧
      (((s.step a).step b).step c).ready = false ∧
      Between encrypt (round encrypt key v) (r + 1) ((((s.step a).step b).step c).step d) := by
  obtain ⟨state, v0, v1, sum, keySel, counter, output, ready⟩ := s
  obtain ⟨hstate, hcounter, hvars, hready⟩ := h
  dsimp only at hstate hcounter hready
  rw [if_pos hr] at hstate
  subst hstate hcounter hready hvars
  have hlast : (BitVec.ofNat 8 r).toNat < rounds - 1 ↔ r + 1 < 32 := by
    rw [BitVec.toNat_ofNat, rounds]
    omega
  have hcount : BitVec.ofNat 8 r + 1 = BitVec.ofNat 8 (r + 1) := by
    rw [BitVec.ofNat_add]
    rfl
  -- the two directions begin with different halves of the key selection
  cases encrypt with
  | true =>
    simp only [entry, step, ha, hc, if_true, hlast, hcount, add_keyWord_low, add_keyWord_high,
      mix_eq]
    exact ⟨trivial, trivial, trivial, rfl, rfl, rfl, rfl⟩
  | false =>
    simp only [entry, step, ha, hc, Bool.false_eq_true, if_false, hlast, hcount,
      add_keyWord_low, add_keyWord_high, mix_eq]
    exact ⟨trivial, trivial, trivial, rfl, rfl, rfl, rfl⟩

/-! ## A request -/

/-- The inputs of a request. -/
structure Held (i : XteaIn) (encrypt : Bool) (key : BitVec 128) (input : BitVec 64) : Prop where
  encrypt : i.encrypt = encrypt
  key : i.key = key
  input : i.input = input

/-- The variables at the start of a request. -/
def initial (encrypt : Bool) (input : BitVec 64) : Vars where
  v0 := input.extractLsb' 32 32
  v1 := input.extractLsb' 0 32
  sum := if encrypt then 0 else 0xc6ef3720

/-- The block of the result, under the word order of the ports. -/
def result (encrypt : Bool) (key : BitVec 128) (input : BitVec 64) : BitVec 64 :=
  let v := (input.extractLsb' 32 32, input.extractLsb' 0 32)
  let w := if encrypt then Soft.encipher 32 v (keyWords key)
    else Soft.decipher 32 v (keyWords key)
  w.1 ++ w.2

theorem result_eq (encrypt : Bool) (key : BitVec 128) (input : BitVec 64) :
    result encrypt key input = ((round encrypt key)^[32] (initial encrypt input)).v0 ++
      ((round encrypt key)^[32] (initial encrypt input)).v1 := by
  have hsum : Soft.Xtea.delta * BitVec.ofNat 32 32 = 0xc6ef3720 := by decide
  cases encrypt with
  | true => simp only [result, Soft.encipher, round, initial, if_true]
  | false =>
    simp only [result, Soft.decipher, round, initial, hsum, Bool.false_eq_true, if_false]

/-- The first two cycles of a request. -/
theorem between_start {i j : XteaIn} {input : BitVec 64} (hidle : s.state = .idle)
    (hstart : i.start = true) (hi : i.encrypt = encrypt) (hj : j.input = input) :
    (s.step i).ready = false ∧
      Between encrypt (initial encrypt input) 0 ((s.step i).step j) := by
  subst hi hj
  have hfirst : s.step i = { s with
      state := if i.encrypt then .encStep1 else .decStep1
      ready := false
      counter := 0 } := by
    rw [step, hidle]
    simp only [hstart, if_true]
  rw [hfirst]
  cases i.encrypt with
  | true => exact ⟨rfl, rfl, rfl, rfl, rfl⟩
  | false => exact ⟨rfl, rfl, rfl, rfl, rfl⟩

section Request

variable {x : ℕ → XteaIn} {input : BitVec 64} (hidle : s.state = .idle)
  (hstart : (x 0).start = true)
include hidle hstart

/-- After `r` rounds of a request whose inputs are held. -/
theorem between_round (hheld : ∀ k, Held (x k) encrypt key input) (hr : r ≤ 32) :
    Between encrypt ((Xtea.round encrypt key)^[r] (initial encrypt input)) r
        (s.after x (2 + 4 * r)) ∧
      ∀ k, 0 < k → k ≤ 2 + 4 * r → (s.after x k).ready = false := by
  induction r with
  | zero =>
    obtain ⟨hfirst, hbetween⟩ :=
      between_start hidle hstart (hheld 0).encrypt (hheld 1).input
    refine ⟨hbetween, fun k hpos hle => ?_⟩
    obtain rfl | rfl : k = 1 ∨ k = 2 := by omega
    · exact hfirst
    · exact hbetween.ready
  | succ r ih =>
    obtain ⟨hbetween, hready⟩ := ih (by omega)
    have hround := fun j => (⟨(hheld j).key, (hheld j).encrypt⟩ :
      (x j).key = key ∧ (x j).encrypt = encrypt)
    obtain ⟨h₁, h₂, h₃, hnext⟩ := hbetween.round (Nat.lt_of_succ_le hr)
      (b := x (2 + 4 * r + 1)) (d := x (2 + 4 * r + 3)) (hround (2 + 4 * r))
      (hround (2 + 4 * r + 2))
    rw [← after_succ] at h₁ h₂ h₃ hnext
    rw [← after_succ] at h₂ h₃ hnext
    rw [← after_succ] at h₃ hnext
    rw [← after_succ, ← Function.iterate_succ_apply' (Xtea.round encrypt key)] at hnext
    refine ⟨hnext, fun k hpos hle => ?_⟩
    rcases Nat.lt_or_ge (2 + 4 * r) k with hlt | hge
    · obtain rfl | rfl | rfl | rfl : k = 2 + 4 * r + 1 ∨ k = 2 + 4 * r + 1 + 1 ∨
          k = 2 + 4 * r + 1 + 1 + 1 ∨ k = 2 + 4 * r + 1 + 1 + 1 + 1 := by omega
      · exact h₁
      · exact h₂
      · exact h₃
      · exact hnext.ready
    · exact hready k hpos hge

end Request

/-- `ready` has not come by cycle `k`. It is low from the cycle behind the start on. -/
def Pending (s : Xtea) (x : ℕ → XteaIn) (k : ℕ) : Prop :=
  ∀ j, 0 < j → j ≤ k → (s.after x j).ready = false

/-- The stream with the inputs of the request in every cycle. -/
def hold (x : ℕ → XteaIn) (encrypt : Bool) (key : BitVec 128) (input : BitVec 64) (k : ℕ) :
    XteaIn :=
  { x k with encrypt := encrypt, key := key, input := input }

variable {x : ℕ → XteaIn} {input : BitVec 64} {k : ℕ}

theorem held_hold : Held (hold x encrypt key input k) encrypt key input := ⟨rfl, rfl, rfl⟩

theorem hold_of_held (h : Held (x k) encrypt key input) : hold x encrypt key input k = x k := by
  rw [hold, ← h.encrypt, ← h.key, ← h.input]

section Request

variable (hidle : s.state = .idle) (hstart : (x 0).start = true)
  (hheld : ∀ k, Pending s x k → Held (x k) encrypt key input)
include hidle hstart hheld

/-- Up to `ready` it makes no difference whether the inputs are held any longer. -/
theorem after_hold (hk : k ≤ 131) : s.after x k = s.after (hold x encrypt key input) k := by
  induction k using Nat.strong_induction_on with
  | _ k ih =>
    cases k with
    | zero => rfl
    | succ k =>
      -- so far the held stream gives the same registers, and there `ready` is low
      have hpending : Pending s x k := fun j hpos hle => by
        rw [ih j (Nat.lt_succ_of_le hle) (by omega)]
        exact (between_round (r := 32) hidle (x := hold x encrypt key input) hstart
          (fun _ => held_hold) (Nat.le_refl 32)).2 j hpos (by omega)
      rw [after_succ, after_succ, ih k (Nat.lt_succ_self k) (by omega),
        hold_of_held (hheld k hpending)]

/-- The core is done 130 cycles behind the start. -/
theorem after_rounds :
    Between encrypt ((Xtea.round encrypt key)^[32] (initial encrypt input)) 32 (s.after x 130) ∧
      Pending s x 130 := by
  obtain ⟨hbetween, hready⟩ := between_round (r := 32) hidle (x := hold x encrypt key input)
    hstart (fun _ => held_hold) (Nat.le_refl 32)
  rw [after_hold hidle hstart hheld (by omega)]
  refine ⟨hbetween, fun j hpos hle => ?_⟩
  rw [after_hold hidle hstart hheld (by omega)]
  exact hready j hpos hle

end Request

/-- The result is out, and the core waits for `start` to be taken back. -/
structure Finished (s : Xtea) (result : BitVec 64) : Prop where
  block : s.v0 ++ s.v1 = result
  output : s.output = result
  ready : s.ready = true

theorem Between.finish (h : Between encrypt v 32 s) (i : XteaIn) :
    Finished (s.step i) (v.v0 ++ v.v1) ∧ (i.start = true → (s.step i).state = .done) := by
  have hstate : s.state = .done := h.state
  have hvars := h.vars
  subst hvars
  have hstep : s.step i = { s with
      state := if i.start then .done else .idle
      output := s.v0 ++ s.v1
      ready := true } := by rw [step, hstate]
  rw [hstep]
  exact ⟨⟨rfl, rfl, rfl⟩, fun hstart => if_pos hstart⟩

theorem Finished.step {result : BitVec 64} (h : Finished s result) (hstate : s.state = .done)
    (i : XteaIn) :
    Finished (s.step i) result ∧ (i.start = true → (s.step i).state = .done) := by
  have hstep : s.step i = { s with
      state := if i.start then .done else .idle
      output := s.v0 ++ s.v1
      ready := true } := by rw [Xtea.step, hstate]
  rw [hstep]
  exact ⟨⟨h.block, h.block, rfl⟩, fun hstart => if_pos hstart⟩

/-- While `start` stays up, the result does. -/
theorem finished_while {result : BitVec 64} {n : ℕ} (h : Finished (s.after x (n + 1)) result)
    (hstate : (x n).start = true → (s.after x (n + 1)).state = .done)
    (hstart : ∀ j, n ≤ j → j < n + k → (x j).start = true) :
    Finished (s.after x (n + 1 + k)) result ∧
      ((x (n + k)).start = true → (s.after x (n + 1 + k)).state = .done) := by
  induction k with
  | zero => exact ⟨h, hstate⟩
  | succ k ih =>
    obtain ⟨hfinished, hdone⟩ := ih fun j hle hlt => hstart j hle (by omega)
    have hstep := hfinished.step (hdone (hstart (n + k) (by omega) (by omega))) (x (n + 1 + k))
    rw [← after_succ] at hstep
    have hlast : n + 1 + k = n + (k + 1) := by omega
    rw [← hlast]
    exact hstep

end HfRisc.Rtl.Xtea

namespace HfRisc.Results

open HfRisc.Rtl

/-- The request that starts in cycle 0 is served: the core comes to `ready`, then with the
result on its output, and while the request is pending, until then and as long as `start` stays
up behind it, `ready` is not high with anything else there. -/
def Served (s : Xtea) (x : ℕ → XteaIn) (result : BitVec 64) : Prop :=
  ∃ n, (s.after x (n + 1)).ready = true ∧ (s.after x (n + 1)).output = result ∧
    ∀ k, (∀ j, n ≤ j → j + 1 < k → (x j).start = true) →
      (s.after x k).ready = true → (s.after x k).output = result

/-- For every key, block and direction, from every idle state: a request whose inputs are held
until `ready` is served if and only if `ready` is low in the cycle in which it starts, or the
output happens to be the result already. -/
theorem xtea_served_iff (s : Xtea) (x : ℕ → XteaIn) (encrypt : Bool) (key : BitVec 128)
    (input : BitVec 64) (hidle : s.state = .idle) (hstart : (x 0).start = true)
    (hheld : ∀ k, s.Pending x k → Xtea.Held (x k) encrypt key input) :
    Served s x (Xtea.result encrypt key input) ↔
      s.ready = false ∨ s.output = Xtea.result encrypt key input := by
  constructor
  · rintro ⟨n, -, -, hnever⟩
    cases hready : s.ready with
    | false => exact .inl rfl
    -- in cycle 0 the request is pending and the old result is out
    | true => exact .inr (hnever 0 (fun j _ hlt => absurd hlt (Nat.not_lt_zero _)) hready)
  · intro hclear
    obtain ⟨hbetween, hpending⟩ := Xtea.after_rounds hidle hstart hheld
    have hfinish := hbetween.finish (x 130)
    rw [← Xtea.after_succ, ← Xtea.result_eq] at hfinish
    obtain ⟨hfinished, hdone⟩ := hfinish
    refine ⟨130, hfinished.ready, hfinished.output, fun k hk hready => ?_⟩
    rcases Nat.lt_or_ge 130 k with hlt | hle
    · obtain ⟨d, rfl⟩ : ∃ d, k = 130 + 1 + d := ⟨k - 131, by omega⟩
      exact (Xtea.finished_while hfinished hdone
        fun j hle hlt => hk j hle (by omega)).1.output
    · rcases Nat.eq_zero_or_pos k with rfl | hpos
      · rcases hclear with hlow | houtput
        · rw [show s.after x 0 = s from rfl, hlow] at hready
          cases hready
        · exact houtput
      · rw [hpending k hpos hle] at hready
        cases hready

/-- The inputs of a request to encrypt a block under the key 0. -/
def encryptRequest (start : Bool) (input : BitVec 64) : XteaIn where
  start := start
  encrypt := true
  key := 0
  input := input

theorem xtea_served_after_reset :
    Served Xtea.reset (fun _ => encryptRequest true 5) (Xtea.result true 0 5) :=
  (xtea_served_iff Xtea.reset (fun _ => encryptRequest true 5) true 0 5 rfl rfl
    (fun _ _ => ⟨rfl, rfl, rfl⟩)).mpr (.inl rfl)

/-- `start` is taken back once `ready` is seen, and raised again with another block in the next
cycle: `ready` is still high then, with the first block's result. -/
theorem xtea_ready_stale :
    ¬∀ (before x : ℕ → XteaIn) (j : ℕ) (encrypt : Bool) (key : BitVec 128)
        (input : BitVec 64),
      (Xtea.reset.after before j).state = .idle → (x 0).start = true →
      (∀ k, (Xtea.reset.after before j).Pending x k → Xtea.Held (x k) encrypt key input) →
      Served (Xtea.reset.after before j) x (Xtea.result encrypt key input) := by
  intro h
  have hstate : (Xtea.reset.after (fun k => encryptRequest (decide (k < 131)) 5) 132).state =
      .idle := by decide +kernel
  have hready : (Xtea.reset.after (fun k => encryptRequest (decide (k < 131)) 5) 132).ready =
      true := by decide +kernel
  have houtput : (Xtea.reset.after (fun k => encryptRequest (decide (k < 131)) 5) 132).output ≠
      Xtea.result true 0 6 := by decide +kernel
  obtain ⟨_, -, -, hnever⟩ := h (fun k => encryptRequest (decide (k < 131)) 5)
    (fun _ => encryptRequest true 6) 132 true 0 6 hstate rfl (fun _ _ => ⟨rfl, rfl, rfl⟩)
  generalize Xtea.reset.after (fun k => encryptRequest (decide (k < 131)) 5) 132 = s at *
  exact houtput (hnever 0 (fun _ _ hlt => absurd hlt (Nat.not_lt_zero _)) hready)

end HfRisc.Results
