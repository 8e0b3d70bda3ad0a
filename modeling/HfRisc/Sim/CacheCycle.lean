import HfRisc.Sim.Cache
import HfRisc.Sim.Decode

/-!
# The simulator with caches (`hf_riscv_sim_cache.c`)

The older copy of the interpreter: `mem_fetch`, `mem_read` and `mem_write` look the
address up in a cache first and add the penalty to the cycle count and to `timer0`;
`SYSTEM` instructions do not raise exceptions, and there is no GPIO port.
-/

namespace HfRisc.Sim

/-- The caches of the command line: one for everything (`u`), or two (`s`). -/
inductive Caches
  | unified (cache : Cache)
  | split (icache dcache : Cache)

namespace Caches

def icache : Caches → Cache
  | .unified c => c
  | .split i _ => i

def dcache : Caches → Cache
  | .unified c => c
  | .split _ d => d

/-- The caches after an access through `icache`. -/
def setI (c : Cache) : Caches → Caches
  | .unified _ => .unified c
  | .split _ d => .split c d

/-- The caches after an access through `dcache`. -/
def setD (c : Cache) : Caches → Caches
  | .unified _ => .unified c
  | .split i _ => .split i c

/-- The caches that `EXIT_TRAP` calls `cache_finish` for, in its order. -/
def reported : Caches → List Cache
  | .unified c => [c]
  | .split i d => [i, d]

/-- The performance summary, undefined where one of the calls is. -/
def summary (c : Caches) : Option (List Statistics) := c.reported.mapM Cache.cacheFinish

end Caches

/-- The state of the simulator and its caches. -/
structure CacheState extends Base where
  caches : Caches

namespace CacheState

variable (s : CacheState)

/-- `s->cycles += cycles; s->timer0 += cycles;` -/
def charge (cycles : Word) : CacheState :=
  { s with cycles := s.cycles + cycles.setWidth 64, timer0 := s.timer0 + cycles }

/-- `mem_fetch` through `icache`. -/
def memFetch (address : Word) : Except Stop (Word × CacheState) := do
  let (cycles, cache) := s.caches.icache.cacheRead address
  let s' := { s with caches := s.caches.setI cache }.charge cycles
  let value ← s'.fetch address
  .ok (value, s')

/-- `mem_read` through `dcache`. -/
def memRead (size : Size) (address : Word) : Except Stop (Word × CacheState) :=
  if address = UART0 then .ok (s.getchar.1, { s with toBase := s.getchar.2 })
  else
    match s.register address with
    | some value => .ok (value, s)
    | none =>
      if EXIT_TRAP ≤ address then .ok (0, s)
      else
        let (cycles, cache) := s.caches.dcache.cacheRead address
        let s' := { s with caches := s.caches.setD cache }.charge cycles
        if address &&& size.unaligned ≠ 0 then .error (.unaligned false size s'.pc address)
        else .ok (s'.peek size (Base.offset address), s')

/-- `mem_write` through `dcache`, which adds the penalty to `timer0` twice. -/
def memWrite (size : Size) (address value : Word) : Except Stop CacheState :=
  if address = EXIT_TRAP then .error (.endOfSimulation s.cycles 0)
  else
    match s.setRegister address value with
    | some b => .ok { s with toBase := b }
    | none =>
      if EXIT_TRAP ≤ address then .ok s
      else
        let (cycles, cache) := s.caches.dcache.cacheWrite address
        let s' := { s with caches := s.caches.setD cache }.charge cycles
        let s' := { s' with timer0 := s'.timer0 + cycles }
        if address &&& size.unaligned ≠ 0 then .error (.unaligned true size s'.pc address)
        else .ok { s' with toBase := s'.poke size (Base.offset address) value }

/-- `r[k] = v`. -/
def setReg (k : BitVec 5) (v : Word) : CacheState := { s with toBase := s.toBase.setReg k v }

/-- The `SYSTEM` row: nothing, or the reads of counters, compared with the sign
extended immediate. -/
def system (inst : Word) : Except Stop CacheState :=
  if funct3 inst = 0 then .ok s
  else if funct3 inst = 2 then
    if immI inst ∈ [0xc00, 0xc80, 0xc01, 0xc81, 0xc02, 0xc82] then .ok s
    else .error (.invalidOpcode s.pc inst)
  else .error (.invalidOpcode s.pc inst)

/-- What a row of the switch does to the state. -/
def perform (inst : Word) : Action → Except Stop CacheState
  | .write v => .ok (s.setReg (index (rd inst)) v)
  | .link target =>
    .ok { s.setReg (index (rd inst)) s.pcNext with pcNext := target }
  | .branch taken target => .ok (if taken then { s with pcNext := target } else s)
  | .load type size address => do
    let (value, s') ← s.memRead size address
    .ok (s'.setReg (index (rd inst)) (type.cast value))
  | .store size address v => s.memWrite size address v
  | .system => s.system inst
  | .fail => .error (.invalidOpcode s.pc inst)
  | .undefined => .error .undefined

/-- An interrupt is taken at the head of `cycle`. -/
def pending : Prop := s.status ≠ 0 ∧ s.cause &&& s.mask ≠ 0

instance : Decidable s.pending := inferInstanceAs (Decidable (_ ∧ _))

/-- The head of `cycle`. -/
def takeInterrupt : CacheState := if s.pending then { s with toBase := s.toBase.enter } else s

/-- The tail of `cycle`. -/
def advance : CacheState := { s with toBase := s.toBase.advance 0 }

/-- The instruction: the operands are read, `r[0]` is cleared, the row is performed. -/
def execute (inst : Word) : Except Stop CacheState :=
  (s.setReg 0 0).perform inst (action inst s.pc (s.operands inst))

/-- `cycle`. -/
def cycle : Except Stop CacheState := do
  let s := s.takeInterrupt
  let (inst, s) ← s.memFetch s.pc
  let s' ← s.execute inst
  .ok s'.advance

/-- The caches with which the cycle comes to the `EXIT_TRAP` of `mem_write`, if it does. -/
def finishing : Option Caches :=
  let s := s.takeInterrupt
  match s.memFetch s.pc with
  | .error _ => none
  | .ok (inst, s) =>
    match action inst s.pc (s.operands inst) with
    | .store _ address _ => if address = EXIT_TRAP then some s.caches else none
    | _ => none

end CacheState

/-- The first `k` cycles. -/
def runCache (s : CacheState) : ℕ → Except Stop CacheState
  | 0 => .ok s
  | k + 1 => runCache s k >>= CacheState.cycle

/-- The caches of the command line for a configuration. -/
def Config.caches (cfg : Config) (unified : Bool) : Caches :=
  if unified then .unified cfg.cache else .split cfg.cache cfg.cache

/-- The state of the simulator for a configuration, with `b` set up. -/
def CacheState.start (cfg : Config) (unified : Bool) (b : Base) : CacheState where
  toBase := b
  caches := cfg.caches unified

/-- The start of `main`, with the program in memory. -/
def startCache (cfg : Config) (unified : Bool) (mem : BitVec 20 → BitVec 8)
    (stdin : List (BitVec 8)) (logEnabled : Bool) : CacheState :=
  .start cfg unified (.start (fun _ => 0) 0x40000000 0x40000004 mem stdin logEnabled)

end HfRisc.Sim
