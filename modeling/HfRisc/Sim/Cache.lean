import HfRisc.Arch
import HfRisc.Lib.DirectMapped
import HfRisc.Lib.Mealy

/-!
# The cache model (`cache.c`)

A timing model: a cache of one way a set keeps the tag, the valid bit and the dirty
bit of each set and counts accesses; `cache_read` and `cache_write` return the
penalty of the access in cycles. Block contents, the number of ways and the next
level are not used by the source and are left out.
-/

namespace HfRisc.Sim

/-- `"wt"`, `"wa"` and `"wb"`. -/
inductive Policy
  | wt | wa | wb
deriving DecidableEq, Repr

/-- `struct cache_set_way_s`. -/
structure Way where
  valid : Bool
  dirty : Bool
  tag : Word
deriving DecidableEq, Repr

/-- `struct cache_s` with its parts. -/
structure Cache where
  policy : Policy
  sets : Word
  blockSize : Word
  setupTime : Word
  burstTime : Word
  cacheSets : Word → Way
  blockMask : Word
  setMask : Word
  setShift : Word
  tagMask : Word
  tagShift : Word
  hits : BitVec 64
  misses : BitVec 64
  reads : BitVec 64
  writes : BitVec 64

/-- `while (bit >>= 1) a = f(a);`. A word is zero after 32 shifts. -/
def whileShift {α : Type} (f : α → α) : ℕ → Word → α → α
  | 0, _, a => a
  | fuel + 1, bit, a => if bit >>> 1 ≠ 0 then whileShift f fuel (bit >>> 1) (f a) else a

/-- `cache_init`. -/
def cacheInit (policy : Policy) (sets blockSize missSetup missBurst : Word) : Cache :=
  let ones (mask : Word) : Word := (mask <<< 1) ||| 1
  let setShift := whileShift (· + 1) 32 blockSize 0
  { policy := policy
    sets := sets
    blockSize := blockSize
    setupTime := missSetup
    burstTime := missBurst
    cacheSets := fun _ => ⟨false, false, 0⟩
    blockMask := whileShift ones 32 blockSize 0
    setMask := whileShift ones 32 sets 0
    setShift := setShift
    tagMask := whileShift (· >>> 1) 32 sets (whileShift (· >>> 1) 32 blockSize 0xffffffff)
    tagShift := whileShift (· + 1) 32 sets 0 + setShift
    hits := 0
    misses := 0
    reads := 0
    writes := 0 }

namespace Cache

variable (c : Cache) (address : Word)

/-- `set`: the host takes shift counts modulo 32. -/
def set : Word := ((address >>> (c.setShift.toNat % 32)) >>> 2) &&& c.setMask

/-- `tag`. -/
def tag : Word := ((address >>> (c.tagShift.toNat % 32)) >>> 2) &&& c.tagMask

/-- The time to move a block. -/
def blockTime : Word := c.setupTime + c.burstTime

/-- The time to write one word to memory. -/
def wordTime : Word := c.setupTime + c.burstTime / c.blockSize

/-- The test for a hit. -/
def isHit : Bool :=
  (c.cacheSets (c.set address)).valid && (c.cacheSets (c.set address)).tag == c.tag address

/-- Replace the line of an address. -/
def fill (line : Way) : Cache :=
  { c with cacheSets := fun k => if k = c.set address then line else c.cacheSets k }

/-- The dirty bit of the line of an address. -/
def isDirty : Bool := (c.cacheSets (c.set address)).dirty

def countHit : Cache := { c with hits := c.hits + 1 }
def countMiss : Cache := { c with misses := c.misses + 1 }
def countRead : Cache := { c with reads := c.reads + 1 }
def countWrite : Cache := { c with writes := c.writes + 1 }

/-- `cache_read`: the penalty and the cache after the access. -/
def cacheRead : Word × Cache :=
  if c.policy = .wb then
    if c.isHit address then (0, c.countHit.countRead)
    else
      let dirtyPenalty := if c.isDirty address then c.blockTime else 0
      (dirtyPenalty + c.setupTime + c.burstTime,
        (c.countMiss.fill address ⟨true, false, c.tag address⟩).countRead)
  else
    if c.isHit address then (0, c.countHit.countRead)
    else
      (c.blockTime,
        (c.countMiss.fill address ⟨true, c.isDirty address, c.tag address⟩).countRead)

/-- `cache_write`: the penalty and the cache after the access. -/
def cacheWrite : Word × Cache :=
  if c.policy = .wt then (c.wordTime, c.countWrite)
  else if c.policy = .wa then
    if c.isHit address then (c.wordTime, c.countHit.countWrite)
    else
      (c.wordTime + c.setupTime + c.burstTime,
        (c.countMiss.fill address ⟨true, c.isDirty address, c.tag address⟩).countWrite)
  else
    if c.isHit address then
      (0, c.countHit.countWrite.fill address ⟨true, true, c.tag address⟩)
    else
      (c.wordTime + c.setupTime + c.burstTime,
        (c.countMiss.fill address ⟨true, false, c.tag address⟩).countWrite)

end Cache

/-- What `cache_finish` prints. -/
structure Statistics where
  hits : BitVec 64
  misses : BitVec 64
  hitRatio : BitVec 64
  reads : BitVec 64
  writes : BitVec 64
deriving DecidableEq, Repr

/-- `cache_finish`, undefined where the C program divides by zero. -/
def Cache.cacheFinish (c : Cache) : Option Statistics :=
  if c.hits + c.misses = 0 then none
  else
    some
      { hits := c.hits
        misses := c.misses
        hitRatio := c.hits * 100 / (c.hits + c.misses)
        reads := c.reads
        writes := c.writes }

/-- A call of `cache_read` or `cache_write`. -/
structure Call where
  address : Word
  write : Bool
deriving DecidableEq, Repr

/-- The call on a cache. -/
def Cache.access (c : Cache) (a : Call) : Word × Cache :=
  if a.write then c.cacheWrite a.address else c.cacheRead a.address

/-- The cache as a machine that emits the penalty of each access. -/
def Cache.machine : Lib.Mealy Cache Call Word where
  step c a := (c.access a).2
  out c a := [(c.access a).1]

/-- `ispowerof2`. -/
def ispowerof2 (x : Word) : Bool := x != 0 && x &&& (x - 1) == 0

/-- A configuration that `main` accepts. -/
structure Config where
  policy : Policy
  sets : Word
  blockSize : Word
  missSetup : Word
  missBurst : Word
  sets_pow2 : ispowerof2 sets = true
  blockSize_pow2 : ispowerof2 blockSize = true

/-- The cache that `main` builds for it. -/
def Config.cache (cfg : Config) : Cache :=
  cacheInit cfg.policy cfg.sets cfg.blockSize cfg.missSetup cfg.missBurst

end HfRisc.Sim
