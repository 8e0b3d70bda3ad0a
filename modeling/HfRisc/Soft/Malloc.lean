import Mathlib.Data.Nat.Bitwise
import Mathlib.Data.Nat.Notation
import Mathlib.Logic.Function.Basic

/-!
# The heap (`malloc.c`)

Memory is the word at each address. A `mem_block_s` is the pointer to the next block and,
4 bytes on, the size with the used bit; its 8 bytes are the header of the block. Arithmetic
is that of `size_t`, on 32 bits. The loops have fuel, and `none` is a loop that has not
ended.
-/

namespace HfRisc.Soft

def add32 (x y : ℕ) : ℕ := (x + y) % 4294967296

def sub32 (x y : ℕ) : ℕ := (x + (4294967296 - y % 4294967296)) % 4294967296

theorem add32_eq {x y : ℕ} (h : x + y < 4294967296) : add32 x y = x + y := Nat.mod_eq_of_lt h

theorem sub32_eq {x y : ℕ} (h : y ≤ x) (hx : x < 4294967296) : sub32 x y = x - y := by
  rw [sub32]
  omega

/-- `align4`. -/
def align4 (x : ℕ) : ℕ := add32 x 3 >>> 2 <<< 2

/-- `x | 1`. -/
def setUsed (x : ℕ) : ℕ := x ||| 1

/-- `x & ~1L`. -/
def clearUsed (x : ℕ) : ℕ := x &&& 4294967294

/-- The memory, and the globals `first_free` and `last_free`. -/
structure Heap where
  mem : ℕ → ℕ
  firstFree : ℕ
  lastFree : ℕ

/-- Write both words of a block header. -/
def setBlock (m : ℕ → ℕ) (p next size : ℕ) : ℕ → ℕ :=
  Function.update (Function.update m (p + 4) size) p next

/-- `free`. -/
def free (s : Heap) (ptr : ℕ) : Heap :=
  let p := sub32 ptr 8
  { s with
    mem := Function.update s.mem (p + 4) (clearUsed (s.mem (p + 4)))
    lastFree := s.firstFree }

/-- `while (p->size & 1) { p = p->next; q = p; }`. -/
def skipUsed (m : ℕ → ℕ) : ℕ → ℕ → ℕ → Option (ℕ × ℕ)
  | 0, _, _ => none
  | fuel + 1, p, q => if m (p + 4) &&& 1 ≠ 0 then skipUsed m fuel (m p) (m p) else some (p, q)

/-- `while (!(p->size & 1) && p->next) p = p->next;`. -/
def skipFree (m : ℕ → ℕ) : ℕ → ℕ → Option ℕ
  | 0, _ => none
  | fuel + 1, p => if m (p + 4) &&& 1 = 0 ∧ m p ≠ 0 then skipFree m fuel (m p) else some p

/-- The outer loop of `malloc`: the memory it leaves, and `p`. -/
def searchLoop (size fuel : ℕ) : ℕ → (ℕ → ℕ) → ℕ → ℕ → Option ((ℕ → ℕ) × ℕ)
  | 0, _, _, _ => none
  | k + 1, m, p, q =>
    if m p ≠ 0 then do
      let (p, q) ← skipUsed m fuel p q
      let p ← skipFree m fuel p
      let m := if p ≠ 0 then setBlock m q p (sub32 (sub32 p q) 8) else m
      if add32 size 8 ≤ m (q + 4) then some (m, q) else searchLoop size fuel k m p q
    else some (m, p)

/-- `malloc`: the heap it leaves and the address it returns. -/
def malloc (s : Heap) (size fuel : ℕ) : Option (Heap × ℕ) := do
  let size := align4 size
  let (m, p) ← searchLoop size fuel fuel s.mem s.lastFree s.lastFree
  if m p = 0 then some ({ s with mem := m }, 0)
  else
    let r := m p
    let m := setBlock m p (add32 (add32 p size) 8) (setUsed size)
    let rest := sub32 (sub32 (clearUsed (m (p + 4))) size) 8
    let m := setBlock m (m p) r rest
    some ({ s with mem := m, lastFree := p }, add32 p 8)

/-- `heap_init`. -/
def heapInit (m : ℕ → ℕ) (zone len : ℕ) : Heap :=
  let q := sub32 (add32 zone len) 8
  let len := align4 len
  let m := setBlock m zone q (sub32 (sub32 len 8) 8)
  { mem := setBlock m q 0 0, firstFree := zone, lastFree := zone }

/-! ## Words -/

theorem align4_eq {x : ℕ} (h : x + 3 < 4294967296) : align4 x = (x + 3) / 4 * 4 := by
  rw [align4, add32_eq h, Nat.shiftLeft_eq, Nat.shiftRight_eq_div_pow]

theorem setUsed_eq {x : ℕ} (h : x % 2 = 0) : setUsed x = x + 1 := by
  obtain ⟨y, rfl⟩ : ∃ y, x = 2 * y := ⟨x / 2, by omega⟩
  refine Nat.eq_of_testBit_eq fun i => ?_
  rw [setUsed, Nat.testBit_or]
  cases i with
  | zero => simp
  | succ i => simp [Nat.testBit_succ, Nat.mul_add_div]

theorem clearUsed_eq {x : ℕ} (h : x < 4294967296) : clearUsed x = x / 2 * 2 := by
  refine Nat.eq_of_testBit_eq fun i => ?_
  rw [clearUsed, Nat.testBit_and]
  cases i with
  | zero => simp
  | succ i =>
    have hmask : Nat.testBit 4294967294 (i + 1) = decide (i < 31) := by
      rw [Nat.testBit_succ]
      exact Nat.testBit_two_pow_sub_one 31 i
    rw [hmask, Nat.testBit_succ, Nat.testBit_succ, Nat.mul_div_cancel _ (by decide)]
    by_cases hi : i < 31
    · simp [hi]
    · rw [Nat.testBit_lt_two_pow (x := x / 2)]
      · rfl
      · calc x / 2 < 2 ^ 31 := by omega
          _ ≤ 2 ^ i := Nat.pow_le_pow_right (by decide) (by omega)

end HfRisc.Soft
