import HfRisc.Lib.Bits
import HfRisc.Sim.Cache
import Mathlib.Logic.Function.Iterate

/-!
# The cache model refines a direct-mapped cache

For powers of two the loops of `cache_init` compute masks and shift counts that cut
an address into tag, set and offset: the set is the block number modulo the number
of sets, and the tag is the quotient, also where the shift count of the tag wraps
around. `Represents` relates a cache to the history of its accesses.
-/

namespace HfRisc.Sim

open HfRisc.Lib HfRisc.Lib.DirectMapped

/-! ## The loops of `cache_init` -/

/-- The test of `main` lets through the powers of two. -/
theorem exists_pow_of_ispowerof2 {x : Word} (h : ispowerof2 x = true) :
    ∃ k < 32, x.toNat = 2 ^ k := by
  rw [ispowerof2, Bool.and_eq_true, bne_iff_ne, beq_iff_eq] at h
  obtain ⟨hne, hand⟩ := h
  have hne' : x.toNat ≠ 0 := fun h0 => hne (BitVec.eq_of_toNat_eq h0)
  have hsub : (x - 1).toNat = x.toNat - 1 := by
    have hlt := x.isLt
    rw [BitVec.toNat_sub]
    simp
    omega
  have hzero : x.toNat &&& (x.toNat - 1) = 0 := by
    rw [← hsub, ← BitVec.toNat_and, hand]
    rfl
  obtain ⟨k, hk⟩ := Nat.ne_zero_and_sub_one_eq_zero_iff_isPowerOfTwo.mp ⟨hne', hzero⟩
  refine ⟨k, ?_, hk⟩
  by_contra hge
  have hlt := x.isLt
  have hpow := Nat.pow_le_pow_right (show 0 < 2 by decide) (Nat.le_of_not_lt hge)
  omega

/-- The loop runs once for each factor of two. -/
theorem whileShift_pow {α : Type} (f : α → α) {k fuel : ℕ} (hk : k < fuel) {bit : Word}
    (hbit : bit.toNat = 2 ^ k) (a : α) : whileShift f fuel bit a = f^[k] a := by
  induction k generalizing fuel bit a with
  | zero =>
    obtain ⟨fuel, rfl⟩ := Nat.exists_eq_succ_of_ne_zero (Nat.ne_of_gt hk)
    have hzero : bit >>> 1 = 0 := by
      apply BitVec.eq_of_toNat_eq
      rw [BitVec.toNat_ushiftRight, hbit]
      rfl
    simp only [whileShift, hzero, ne_eq, not_true_eq_false, if_false, Function.iterate_zero, id]
  | succ k ih =>
    obtain ⟨fuel, rfl⟩ := Nat.exists_eq_succ_of_ne_zero (Nat.ne_of_gt (Nat.zero_lt_of_lt hk))
    have hhalf : (bit >>> 1).toNat = 2 ^ k := by
      rw [BitVec.toNat_ushiftRight, hbit, Nat.shiftRight_eq_div_pow, Nat.pow_succ, Nat.pow_one,
        Nat.mul_div_cancel _ (by decide)]
    have hne : bit >>> 1 ≠ 0 := fun h0 => by
      have hpos := Nat.two_pow_pos k
      rw [← hhalf, h0] at hpos
      exact absurd hpos (by decide)
    simp only [whileShift, hne, ne_eq, not_false_eq_true, if_true]
    rw [ih (Nat.lt_of_succ_lt_succ hk) hhalf, Function.iterate_succ_apply]

/-- Counting up. -/
theorem iterate_succ_toNat {k : ℕ} (hk : k < 2 ^ 32) :
    ((· + 1)^[k] (0 : Word)).toNat = k := by
  induction k with
  | zero => rfl
  | succ k ih =>
    rw [Function.iterate_succ_apply', BitVec.toNat_add, ih (Nat.lt_of_succ_lt hk)]
    exact Nat.mod_eq_of_lt hk

/-- Shifting in ones. -/
theorem iterate_ones_toNat {k : ℕ} (hk : k < 32) :
    ((fun mask : Word => (mask <<< 1) ||| 1)^[k] 0).toNat = 2 ^ k - 1 := by
  induction k with
  | zero => rfl
  | succ k ih =>
    have hle : 2 ^ k ≤ 2 ^ 31 := Nat.pow_le_pow_right (by decide) (by omega)
    have hpos := Nat.two_pow_pos k
    rw [Function.iterate_succ_apply', BitVec.toNat_or, BitVec.toNat_shiftLeft,
      ih (Nat.lt_of_succ_lt hk), Nat.shiftLeft_eq, Nat.pow_one, Nat.mod_eq_of_lt (by omega),
      Nat.mul_comm]
    show 2 * (2 ^ k - 1) ||| 1 = _
    have h := Nat.two_pow_add_eq_or_of_lt (i := 1) (b := 1) (by decide) (2 ^ k - 1)
    rw [Nat.pow_one] at h
    rw [← h, Nat.pow_succ]
    omega

/-- Shifting out zeros. -/
theorem iterate_half (k : ℕ) (x : Word) : (fun mask : Word => mask >>> 1)^[k] x = x >>> k := by
  induction k with
  | zero => simp
  | succ k ih => rw [Function.iterate_succ_apply', ih, BitVec.shiftRight_add]

/-! ## Sets, tags and blocks -/

namespace Config

variable (cfg : Config)

/-- The block number of an address: blocks are counted in words. -/
def blockOf (a : Word) : ℕ := a.toNat / (4 * cfg.blockSize.toNat)

/-- The set of a block. -/
def place (b : ℕ) : ℕ := b % cfg.sets.toNat

variable {cfg}

theorem place_blockOf {p q : ℕ} (hp : cfg.sets.toNat = 2 ^ p) (hq : cfg.blockSize.toNat = 2 ^ q)
    (a : Word) : cfg.place (cfg.blockOf a) = a.toNat / 2 ^ q / 4 % 2 ^ p := by
  rw [place, blockOf, hp, hq, Nat.mul_comm, Nat.div_div_eq_div_mul]

/-- The index that the source computes. -/
theorem set_toNat (a : Word) : (cfg.cache.set a).toNat = cfg.place (cfg.blockOf a) := by
  obtain ⟨p, hp32, hp⟩ := exists_pow_of_ispowerof2 cfg.sets_pow2
  obtain ⟨q, hq32, hq⟩ := exists_pow_of_ispowerof2 cfg.blockSize_pow2
  have hshift : cfg.cache.setShift.toNat = q := by
    show (whileShift (· + 1) 32 cfg.blockSize (0 : Word)).toNat = q
    rw [whileShift_pow _ hq32 hq, iterate_succ_toNat (by omega)]
  have hmask : cfg.cache.setMask.toNat = 2 ^ p - 1 := by
    show (whileShift (fun mask : Word => (mask <<< 1) ||| 1) 32 cfg.sets 0).toNat = _
    rw [whileShift_pow _ hp32 hp, iterate_ones_toNat hp32]
  rw [Cache.set, BitVec.toNat_and, hmask, Nat.and_two_pow_sub_one_eq_mod, hshift,
    Nat.mod_eq_of_lt hq32, BitVec.toNat_ushiftRight, BitVec.toNat_ushiftRight,
    Nat.shiftRight_eq_div_pow, Nat.shiftRight_eq_div_pow, place_blockOf hp hq]

/-- The tag that the source computes. -/
theorem tag_toNat (a : Word) : (cfg.cache.tag a).toNat = cfg.blockOf a / cfg.sets.toNat := by
  obtain ⟨p, hp32, hp⟩ := exists_pow_of_ispowerof2 cfg.sets_pow2
  obtain ⟨q, hq32, hq⟩ := exists_pow_of_ispowerof2 cfg.blockSize_pow2
  have hshift : cfg.cache.tagShift.toNat = p + q := by
    show (whileShift (· + 1) 32 cfg.sets (0 : Word) +
      whileShift (· + 1) 32 cfg.blockSize (0 : Word)).toNat = p + q
    rw [whileShift_pow _ hp32 hp, whileShift_pow _ hq32 hq, BitVec.toNat_add,
      iterate_succ_toNat (by omega), iterate_succ_toNat (by omega), Nat.mod_eq_of_lt (by omega)]
  have hmask : cfg.cache.tagMask.toNat = (2 ^ 32 - 1) / 2 ^ (q + p) := by
    show (whileShift (fun mask : Word => mask >>> 1) 32 cfg.sets
      (whileShift (fun mask : Word => mask >>> 1) 32 cfg.blockSize 0xffffffff)).toNat = _
    rw [whileShift_pow _ hq32 hq, whileShift_pow _ hp32 hp, iterate_half, iterate_half,
      ← BitVec.shiftRight_add, BitVec.toNat_ushiftRight, Nat.shiftRight_eq_div_pow]
    rfl
  have hblock : cfg.blockOf a / cfg.sets.toNat = a.toNat / (4 * 2 ^ (p + q)) := by
    rw [blockOf, hp, hq, Nat.div_div_eq_div_mul, Nat.pow_add, Nat.mul_assoc,
      Nat.mul_comm (2 ^ q)]
  have ha := a.isLt
  rw [hblock, Cache.tag, BitVec.toNat_and, hmask, hshift]
  rcases Nat.lt_or_ge (p + q) 32 with hlt | hge
  · -- the mask keeps everything that the shift leaves
    have hsplit : 2 ^ 32 = 2 ^ (p + q) * 2 ^ (32 - (p + q)) := by
      rw [← Nat.pow_add, Nat.add_sub_cancel' hlt.le]
    have hones : (2 ^ 32 - 1) / 2 ^ (q + p) = 2 ^ (32 - (p + q)) - 1 := by
      rw [Nat.add_comm q p, hsplit, Nat.mul_sub_div 0 _ _ (by rw [← hsplit]; decide),
        Nat.zero_div]
    rw [hones, Nat.and_two_pow_sub_one_eq_mod, Nat.mod_eq_of_lt hlt, BitVec.toNat_ushiftRight,
      BitVec.toNat_ushiftRight, Nat.shiftRight_eq_div_pow, Nat.shiftRight_eq_div_pow,
      Nat.div_div_eq_div_mul, Nat.mul_comm]
    refine Nat.mod_eq_of_lt (Nat.div_lt_of_lt_mul ?_)
    rw [Nat.mul_assoc, ← hsplit]
    omega
  · -- the shift count wraps around, but the mask is zero, and there is one block a set
    have hpow : 2 ^ 32 ≤ 2 ^ (p + q) := Nat.pow_le_pow_right (by decide) hge
    have hzero : (2 ^ 32 - 1) / 2 ^ (q + p) = 0 := by
      rw [Nat.add_comm q p]
      exact Nat.div_eq_of_lt (by omega)
    rw [hzero, Nat.and_zero, Nat.div_eq_of_lt (by omega)]

end Config

/-! ## Lines and histories -/

/-- Whether a call allocates: under write through without allocation only reads do. -/
def Policy.allocates {β : Type} (policy : Policy) (a : Access β) : Bool := policy != .wt || !a.write

/-- The same configuration. -/
structure SameShape (c d : Cache) : Prop where
  policy : d.policy = c.policy
  blockSize : d.blockSize = c.blockSize
  setupTime : d.setupTime = c.setupTime
  burstTime : d.burstTime = c.burstTime
  setMask : d.setMask = c.setMask
  setShift : d.setShift = c.setShift
  tagMask : d.tagMask = c.tagMask
  tagShift : d.tagShift = c.tagShift

namespace SameShape

variable {c d : Cache} (h : SameShape c d)
include h

theorem set_eq (a : Word) : d.set a = c.set a := by rw [Cache.set, Cache.set, h.setMask, h.setShift]

theorem tag_eq (a : Word) : d.tag a = c.tag a := by rw [Cache.tag, Cache.tag, h.tagMask, h.tagShift]

end SameShape

namespace Cache

variable {c : Cache} {a : Word} {call : Call}

/-- No access changes the configuration. -/
theorem sameShape_access : SameShape c (c.access call).2 := by
  unfold access cacheRead cacheWrite
  split_ifs <;> constructor <;> rfl

/-- The line that an access leaves in the set of its address. -/
def lineAfter (c : Cache) (call : Call) : Way :=
  if c.isHit call.address then
    if c.policy = .wb ∧ call.write then ⟨true, true, c.tag call.address⟩
    else c.cacheSets (c.set call.address)
  else if c.policy.allocates ⟨call.address, call.write⟩ then
    ⟨true, c.policy != .wb && c.isDirty call.address, c.tag call.address⟩
  else c.cacheSets (c.set call.address)

/-- Every access changes at most this line. -/
theorem cacheSets_access (c : Cache) (call : Call) (k : Word) :
    (c.access call).2.cacheSets k =
      if k = c.set call.address then c.lineAfter call else c.cacheSets k := by
  obtain ⟨address, write⟩ := call
  have hsame : c.cacheSets k =
      if k = c.set address then c.cacheSets (c.set address) else c.cacheSets k := by
    split_ifs with hk
    · rw [hk]
    · rfl
  unfold access lineAfter cacheRead cacheWrite Policy.allocates
  cases hpol : c.policy <;> cases write <;> by_cases hh : c.isHit address = true <;>
    simp [hh] <;> first | exact hsame | rfl

/-- In the set of a hit, exactly the addresses with its tag hit. -/
theorem isHit_of_isHit {a' : Word} (h : c.isHit a = true) (hset : c.set a' = c.set a) :
    c.isHit a' = (c.tag a == c.tag a') := by
  rw [isHit, Bool.and_eq_true, beq_iff_eq] at h
  rw [isHit, hset, h.1, h.2, Bool.true_and]

/-- The hit test and the dirty bit look at one line. -/
theorem isHit_access_eq (call : Call) :
    (c.access call).2.isHit a =
      if c.set a = c.set call.address then
        (c.lineAfter call).valid && (c.lineAfter call).tag == c.tag a
      else c.isHit a := by
  rw [isHit, sameShape_access.set_eq, sameShape_access.tag_eq, cacheSets_access]
  split_ifs <;> rfl

/-- After an access that allocates, the addresses of its set hit that have its tag;
the other lines are as before. -/
theorem isHit_access (call : Call) :
    (c.access call).2.isHit a =
      if c.policy.allocates ⟨call.address, call.write⟩ = true ∧ c.set a = c.set call.address then
        c.tag call.address == c.tag a
      else c.isHit a := by
  rw [isHit_access_eq]
  by_cases hset : c.set a = c.set call.address
  · -- the line of the address was there, or is filled, or is left alone
    have hold : ((c.cacheSets (c.set call.address)).valid &&
        (c.cacheSets (c.set call.address)).tag == c.tag a) = c.isHit a := by rw [isHit, hset]
    simp only [hset, if_true, and_true]
    unfold lineAfter
    split_ifs with hh hwb hall hall
    · exact Bool.true_and _
    · exact absurd (by rw [hwb.1]; rfl) hall
    · rw [hold, isHit_of_isHit hh hset]
    · exact hold
    · exact Bool.true_and _
    · exact hold
  · simp only [hset, if_false, and_false]

/-- The dirty bits of a write-back cache. -/
theorem isDirty_access (hwb : c.policy = .wb) (call : Call) :
    (c.access call).2.isDirty a =
      if c.set a = c.set call.address then
        c.isHit call.address && (call.write || c.isDirty call.address)
      else c.isDirty a := by
  rw [isDirty, sameShape_access.set_eq, cacheSets_access]
  split_ifs with hset
  · obtain ⟨address, write⟩ := call
    unfold lineAfter Policy.allocates
    cases write <;> by_cases hh : c.isHit address = true <;> simp [hwb, hh, isDirty]
  · rfl

/-! ## Counters -/

/-- Whether an access is looked up: the writes that are not cached are not. -/
def looksUp (policy : Policy) (call : Call) : Bool := policy != .wt || !call.write

/-- An access that is looked up counts as a hit or as a miss. -/
theorem counters_access (call : Call) :
    ((c.access call).2.hits, (c.access call).2.misses) =
      if looksUp c.policy call then
        if c.isHit call.address then (c.hits + 1, c.misses) else (c.hits, c.misses + 1)
      else (c.hits, c.misses) := by
  obtain ⟨address, write⟩ := call
  unfold access looksUp cacheRead cacheWrite
  cases hpol : c.policy <;> cases write <;> by_cases hh : c.isHit address = true <;>
    simp [hh] <;> exact ⟨rfl, rfl⟩

end Cache

/-! ## Refinement -/

namespace Config

variable {cfg : Config} {c : Cache} {h : List (Access ℕ)}

/-- A call as an access to a block. -/
def toAccess (cfg : Config) (call : Call) : Access ℕ := ⟨cfg.blockOf call.address, call.write⟩

/-- The history of a list of calls. -/
def history (cfg : Config) (calls : List Call) : List (Access ℕ) := calls.map cfg.toAccess

/-- The cache after a list of calls. -/
def after (cfg : Config) (calls : List Call) : Cache := Cache.machine.run cfg.cache calls

/-- The block of an address was brought into its set by the last access that
allocated there. -/
def Resident (cfg : Config) (h : List (Access ℕ)) (a : Word) : Prop :=
  Hit cfg.place cfg.policy.allocates h (cfg.blockOf a)

instance (h : List (Access ℕ)) (a : Word) : Decidable (cfg.Resident h a) :=
  inferInstanceAs (Decidable (Hit _ _ _ _))

/-- The block in the set of an address has been written since it came there. -/
def WrittenLine (cfg : Config) (h : List (Access ℕ)) (a : Word) : Prop :=
  Written cfg.place cfg.policy.allocates h (cfg.place (cfg.blockOf a))

/-- The lines of the cache are those of the history. -/
structure Represents (cfg : Config) (h : List (Access ℕ)) (c : Cache) : Prop where
  shape : SameShape cfg.cache c
  hit : ∀ a, c.isHit a = true ↔ cfg.Resident h a
  dirty : cfg.policy = .wb → ∀ a, c.isDirty a = true ↔ cfg.WrittenLine h a

namespace Represents

theorem set_eq_iff (hr : cfg.Represents h c) (a b : Word) :
    c.set a = c.set b ↔ cfg.place (cfg.blockOf a) = cfg.place (cfg.blockOf b) := by
  rw [hr.shape.set_eq, hr.shape.set_eq, ← set_toNat, ← set_toNat]
  exact ⟨congrArg _, BitVec.eq_of_toNat_eq⟩

/-- Inside a set the tag tells the blocks apart. -/
theorem tag_eq_iff (hr : cfg.Represents h c) {a b : Word}
    (hplace : cfg.place (cfg.blockOf a) = cfg.place (cfg.blockOf b)) :
    c.tag a = c.tag b ↔ cfg.blockOf a = cfg.blockOf b := by
  rw [hr.shape.tag_eq, hr.shape.tag_eq]
  constructor
  · intro heq
    have hdiv := congrArg BitVec.toNat heq
    rw [tag_toNat, tag_toNat] at hdiv
    rw [← Nat.div_add_mod (cfg.blockOf a) cfg.sets.toNat,
      ← Nat.div_add_mod (cfg.blockOf b) cfg.sets.toNat, hdiv]
    exact congrArg _ hplace
  · intro heq
    apply BitVec.eq_of_toNat_eq
    rw [tag_toNat, tag_toNat, heq]

/-- The empty cache. -/
theorem init (cfg : Config) : cfg.Represents [] cfg.cache where
  shape := ⟨rfl, rfl, rfl, rfl, rfl, rfl, rfl, rfl⟩
  hit a := by
    refine ⟨fun h => ?_, fun h => ?_⟩
    · have h' : (false && _) = true := h
      rw [Bool.false_and] at h'
      cases h'
    · cases h
  dirty _ a := by
    refine ⟨fun h => ?_, fun h => absurd h not_written_nil⟩
    have h' : false = true := h
    cases h'

/-- An access keeps the lines those of the history. -/
theorem access (hr : cfg.Represents h c) (call : Call) :
    cfg.Represents (h ++ [cfg.toAccess call]) (c.access call).2 where
  shape := by
    obtain ⟨h₁, h₂, h₃, h₄, h₅, h₆, h₇, h₈⟩ := hr.shape
    obtain ⟨k₁, k₂, k₃, k₄, k₅, k₆, k₇, k₈⟩ : SameShape c (c.access call).2 :=
      Cache.sameShape_access
    exact ⟨k₁.trans h₁, k₂.trans h₂, k₃.trans h₃, k₄.trans h₄, k₅.trans h₅, k₆.trans h₆,
      k₇.trans h₇, k₈.trans h₈⟩
  hit a := by
    have hpol : c.policy = cfg.policy := hr.shape.policy
    rw [Cache.isHit_access, hpol, Resident, Hit, resident_append]
    by_cases hcond : cfg.policy.allocates (cfg.toAccess call) = true ∧
        cfg.place (cfg.toAccess call).block = cfg.place (cfg.blockOf a)
    · have hset : c.set a = c.set call.address := (hr.set_eq_iff a call.address).mpr hcond.2.symm
      rw [if_pos ⟨hcond.1, hset⟩, if_pos hcond, beq_iff_eq, hr.tag_eq_iff hcond.2,
        Option.some.injEq]
      rfl
    · rw [if_neg hcond,
        if_neg fun hc => hcond ⟨hc.1, ((hr.set_eq_iff a call.address).mp hc.2).symm⟩]
      exact hr.hit a
  dirty hwb a := by
    have hall : ∀ x : Access ℕ, cfg.policy.allocates x = true := fun x => by rw [hwb]; rfl
    rw [Cache.isDirty_access (hr.shape.policy.trans hwb), WrittenLine]
    by_cases hplace : cfg.place (cfg.blockOf call.address) = cfg.place (cfg.blockOf a)
    · rw [if_pos ((hr.set_eq_iff a call.address).mpr hplace.symm),
        written_append_of_eq hall (a := cfg.toAccess call) hplace, Bool.and_eq_true,
        Bool.or_eq_true, hr.hit, hr.dirty hwb, WrittenLine, hplace]
      rfl
    · rw [if_neg (fun heq => hplace ((hr.set_eq_iff a call.address).mp heq).symm),
        written_append_of_ne (a := cfg.toAccess call) hplace]
      exact hr.dirty hwb a

/-- Along every list of calls the lines are those of the history. -/
theorem calls (cfg : Config) (calls : List Call) :
    cfg.Represents (cfg.history calls) (cfg.after calls) := by
  induction calls using List.reverseRecOn with
  | nil => exact init cfg
  | append_singleton calls call ih =>
    rw [history, List.map_append, after, Mealy.run_append]
    exact ih.access call

end Represents

end Config

end HfRisc.Sim
