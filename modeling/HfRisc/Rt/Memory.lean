import HfRisc.Rt.Registry
import HfRisc.Soft.Arena

/-!
# The scheduler in memory

`rt_create`, `rt_add_task` and `rt_start` on the words of memory: every record, every name
and every list node is a block from `malloc`, whose result is not tested before the stores.
`Ram.through` collects the pointers that are stored through.
-/

namespace HfRisc.Rt

open HfRisc.Lib HfRisc.Soft

/-- The word of an `int`. -/
def word (x : ℤ) : ℕ := (x % 4294967296).toNat

/-- A state as an `int`. -/
def State.code : State → ℕ
  | .ready => 0
  | .running => 1
  | .blocked => 2
  | .done => 3
  | .sys => 4

/-- A word with its byte `k` replaced. -/
def setByte (w k b : ℕ) : ℕ := w - w / 256 ^ k % 256 * 256 ^ k + b % 256 * 256 ^ k

/-- A name as a string in memory, without the 0 at its end. -/
def Request.bytes (q : Request ℕ) : List ℕ := q.name.toList.map Char.toNat

/-- Memory with its live blocks, the pointers that have been stored through, and the globals
of `rt.c`. -/
structure Ram where
  heap : Heap
  live : List (ℕ × ℕ)
  through : List ℕ
  listTask : ℕ
  runningId : ℤ
  jmp : ℕ
  runningTask : ℕ
  idleTask : ℕ
  time : ℤ

namespace Ram

variable (s : Ram)

/-- `malloc`. -/
def alloc (size fuel : ℕ) : Option (Ram × ℕ) := do
  let (heap, ptr) ← malloc s.heap size fuel
  some ({ s with heap, live := if ptr = 0 then s.live else (ptr, size) :: s.live }, ptr)

/-- A store to the word at `a` through `p`. -/
def storeAt (p a v : ℕ) : Ram :=
  { s with
    heap := { s.heap with mem := Function.update s.heap.mem a v }
    through := p :: s.through }

/-- A store to a field of `*p`. -/
def store (p offset v : ℕ) : Ram := s.storeAt p (p + offset) v

/-- Stores through `p`, in order. -/
def storeAll (p : ℕ) (l : List (ℕ × ℕ)) : Ram := l.foldl (fun s w => s.store p w.1 w.2) s

/-- A byte stored through `p`. -/
def storeByte (p i b : ℕ) : Ram :=
  let a := (p + i) / 4 * 4
  s.storeAt p a (setByte (s.heap.mem a) ((p + i) % 4) b)

/-- `strncpy` to `p + i` of as many bytes as the string has. -/
def strncpy (p : ℕ) : ℕ → List ℕ → Ram → Ram
  | _, [], s => s
  | i, b :: bs, s => strncpy p (i + 1) bs (s.storeByte p i b)

/-! ## Lists -/

/-- `list_init`. -/
def listInit (fuel : ℕ) : Option (Ram × ℕ) := do
  let (s, lst) ← s.alloc 8 fuel
  if lst ≠ 0 then some (s.storeAll lst [(4, 0), (0, 0)], lst) else some (s, lst)

/-- `while (t2->next) t2 = t2->next;`. -/
def lastNode (m : ℕ → ℕ) : ℕ → ℕ → Option ℕ
  | 0, _ => none
  | fuel + 1, t => if m (t + 4) ≠ 0 then lastNode m fuel (m (t + 4)) else some t

/-- `list_append`. -/
def listAppend (lst item fuel : ℕ) : Option (Ram × ℤ) := do
  let (s, t1) ← s.alloc 8 fuel
  if t1 ≠ 0 then
    let s := s.storeAll t1 [(0, item), (4, 0)]
    let t2 ← lastNode s.heap.mem fuel lst
    some (s.store t2 4 t1, 0)
  else some (s, -1)

/-- The loop of `list_count`. -/
def countFrom (m : ℕ → ℕ) : ℕ → ℕ → Option ℕ
  | 0, _ => none
  | fuel + 1, t => if m (t + 4) ≠ 0 then (countFrom m fuel (m (t + 4))).map (· + 1) else some 0

/-- The tasks in the list. -/
def elems (m : ℕ → ℕ) : ℕ → ℕ → Option (List ℕ)
  | 0, _ => none
  | fuel + 1, t =>
    if m (t + 4) ≠ 0 then (elems m fuel (m (t + 4))).map (m (m (t + 4)) :: ·) else some []

/-! ## Calls -/

/-- `rt_create`, with the pool at `z`. -/
def create (m : ℕ → ℕ) (z len fuel : ℕ) : Option Ram := do
  let s : Ram := ⟨heapInit m z len, [], [], 0, 0, 0, 0, 0, 0⟩
  let (s, listTask) ← s.listInit fuel
  some { s with listTask, runningId := 0 }

/-- `rt_add_task`. -/
def addTask (q : Request ℕ) (fuel : ℕ) : Option (Ram × ℤ) :=
  if q.state ≠ .ready ∧ q.state ≠ .blocked then some (s, 0)
  else if q.period = 0 ∨ q.capacity = 0 then some (s, 0)
  else if q.period < q.capacity then some (s, 0)
  else do
    let (s, task) ← s.alloc 32 fuel
    let s := s.store task 4 (word s.runningId)
    let (s, name) ← s.alloc q.bytes.length fuel
    let s := s.store task 8 name
    let s := strncpy (s.heap.mem (task + 8)) 0 q.bytes s
    let s := s.storeAll task [(12, word q.period), (16, word q.capacity), (20, word q.deadline),
      (0, q.function), (24, q.state.code)]
    let (s, ret) ← s.listAppend s.listTask task fuel
    if ret ≠ 0 then some (s, 0) else some ({ s with runningId := s.runningId + 1 }, 1)

/-- Calls of `rt_add_task`, all of which return 1. -/
def addAll (fuel : ℕ) : List (Request ℕ) → Ram → Option Ram
  | [], s => some s
  | q :: qs, s => do
    let (s, ret) ← s.addTask q fuel
    if ret = 1 then addAll fuel qs s else none

/-- The offsets at which `setjmp` saves registers. -/
def saved : List ℕ := [0, 4, 8, 12, 16, 20, 24, 28, 32, 36, 44, 48, 52]

/-- `setjmp`. -/
def setjmp (env : ℕ) (regs : ℕ → ℕ) : Ram := s.storeAll env (saved.map fun o => (o, regs o))

/-- The requests of `rt_start`. -/
def startMemory (fuel : ℕ) : Option Ram := do
  let (s, _) ← s.alloc 32 fuel
  let (s, _) ← s.alloc 32 fuel
  let count ← countFrom s.heap.mem fuel s.listTask
  let (s, jmp) ← s.alloc ((count + 2) * 80) fuel
  let s := { s with jmp }
  let (s, runningTask) ← s.alloc 32 fuel
  let s := { s with runningTask }
  let (s, idleTask) ← s.alloc 32 fuel
  some { s with idleTask }

/-- `rt_start` fills in the idle task and makes it the running one. -/
def startIdle (function name : ℕ) : Ram :=
  let s := s.storeAll s.idleTask [(4, word (-1)), (8, name), (12, 65535), (16, word (-1)),
    (0, function), (24, State.sys.code)]
  { s with runningTask := s.idleTask, runningId := 1, time := 0 }

/-- `rt_start` up to `setjmp(rt_jmp[0])`, which is the first use of `rt_jmp`. -/
def start (function name fuel : ℕ) (regs : ℕ → ℕ) : Option Ram := do
  let s ← s.startMemory fuel
  let s := s.startIdle function name
  some (s.setjmp s.jmp regs)

end Ram

/-! ## Context switches -/

/-- The scheduler, and the heap with its live blocks. -/
structure HeapSched (φ : Type) where
  heap : Heap
  live : List (ℕ × ℕ)
  sched : Sched φ

/-- A call of `rt_context_switch`. It asks for a record that it does not use, and before the
next call it and the tasks store into live blocks. -/
structure HeapSched.Call {φ : Type} (fuel : ℕ) (k k' : HeapSched φ) : Prop where
  sched : k'.sched = k.sched.contextSwitch
  heap : ∃ heap ptr, malloc k.heap 32 fuel = some (heap, ptr) ∧
    k'.live = (if ptr = 0 then k.live else (ptr, 32) :: k.live) ∧ Touches k'.live heap k'.heap

end HfRisc.Rt
