import HfRisc.Lib.BlockWalk
import Mathlib.Data.BitVec
import Mathlib.Data.Fin.Basic
import Mathlib.Data.Finite.Prod
import Mathlib.Tactic.FinCases

/-!
# The field of 256 elements and the block cipher over it

Bytes as polynomials over the field of two elements, modulo `x ^ 8 + x ^ 4 + x ^ 3 + x + 1`: a sum
is an exclusive or, and `xtime` multiplies by `x`. Columns of four bytes are multiplied with a fixed
polynomial, byte by byte, and that is undone by another one.

The rounds on a block of four columns of four bytes, for any substitution and any round keys. Two
inverse ciphers undo it: the one that goes back step by step, and the one that does its steps in the
order of the cipher, with other round keys.
-/

namespace HfRisc.Lib

/-- The product with `x`. -/
def xtime (b : BitVec 8) : BitVec 8 := (b <<< 1) ^^^ if b.msb then 0x1b else 0

theorem xtime_xor (a b : BitVec 8) : xtime (a ^^^ b) = xtime a ^^^ xtime b := by
  have hsum : ∀ p q : Bool, (if (p != q) = true then (0x1b : BitVec 8) else 0) =
      (if p = true then 0x1b else 0) ^^^ (if q = true then 0x1b else 0) := by
    decide
  rw [xtime, xtime, xtime, BitVec.shiftLeft_xor_distrib, BitVec.msb_xor,
    show (a.msb ^^ b.msb) = (a.msb != b.msb) from rfl, hsum]
  ac_rfl

/-! ## Sums -/

section Sums

variable (a b c : BitVec 8)

theorem xor_xor_self : a ^^^ (a ^^^ b) = b := by
  rw [← BitVec.xor_assoc, BitVec.xor_self, BitVec.zero_xor]

theorem xor_rotate : a ^^^ (b ^^^ c) = b ^^^ (a ^^^ c) := by
  rw [← BitVec.xor_assoc, BitVec.xor_comm a, BitVec.xor_assoc]

end Sums

/-! ## Columns -/

/-- A byte of a column, multiplied. -/
def mixByte (a b c d : BitVec 8) : BitVec 8 := a ^^^ xtime (a ^^^ b) ^^^ (a ^^^ b ^^^ c ^^^ d)

def times9 (b : BitVec 8) : BitVec 8 := b ^^^ xtime (xtime (xtime b))
def timesB (b : BitVec 8) : BitVec 8 := b ^^^ xtime b ^^^ xtime (xtime (xtime b))
def timesD (b : BitVec 8) : BitVec 8 := b ^^^ xtime (xtime b) ^^^ xtime (xtime (xtime b))
def timesE (b : BitVec 8) : BitVec 8 := xtime b ^^^ xtime (xtime b) ^^^ xtime (xtime (xtime b))

/-- A byte of a column, multiplied with the inverse. -/
def unmixByte (a b c d : BitVec 8) : BitVec 8 := timesE a ^^^ timesB b ^^^ timesD c ^^^ times9 d

section Columns

variable (a b c d u v : BitVec 8)

/-- The inverse is the product again, of other bytes. -/
theorem unmixByte_eq : unmixByte a b c d =
    mixByte (a ^^^ xtime (xtime (a ^^^ c))) (b ^^^ xtime (xtime (b ^^^ d)))
      (c ^^^ xtime (xtime (a ^^^ c))) (d ^^^ xtime (xtime (b ^^^ d))) := by
  simp only [unmixByte, mixByte, timesE, timesB, timesD, times9, xtime_xor]
  simp only [BitVec.xor_assoc, BitVec.xor_comm, xor_rotate, xor_xor_self, BitVec.xor_self,
    BitVec.xor_zero, BitVec.zero_xor]

/-- What is added to every second byte. -/
theorem mixByte_xor : mixByte (a ^^^ u) (b ^^^ v) (c ^^^ u) (d ^^^ v) =
    mixByte a b c d ^^^ (u ^^^ xtime (u ^^^ v)) := by
  simp only [mixByte, xtime_xor]
  simp only [BitVec.xor_assoc, BitVec.xor_comm, xor_rotate, xor_xor_self, BitVec.xor_self,
    BitVec.xor_zero]

/-- The sum of neighbours. -/
theorem mixByte_next : mixByte a b c d ^^^ mixByte b c d a = a ^^^ b ^^^ xtime (a ^^^ c) := by
  simp only [mixByte, xtime_xor]
  simp only [BitVec.xor_assoc, BitVec.xor_comm, xor_rotate, xor_xor_self]

/-- The sum of every second byte. -/
theorem mixByte_opposite :
    mixByte a b c d ^^^ mixByte c d a b = a ^^^ c ^^^ xtime (a ^^^ b ^^^ c ^^^ d) := by
  simp only [mixByte, xtime_xor]
  simp only [BitVec.xor_assoc, BitVec.xor_comm, xor_rotate, xor_xor_self]

/-- The sum of a column stays the same. -/
theorem mixByte_sum :
    mixByte a b c d ^^^ mixByte b c d a ^^^ mixByte c d a b ^^^ mixByte d a b c =
      a ^^^ b ^^^ c ^^^ d := by
  rw [mixByte_next, BitVec.xor_assoc, mixByte_next]
  simp only [xtime_xor]
  simp only [BitVec.xor_assoc, BitVec.xor_comm, xor_rotate, BitVec.xor_self, BitVec.xor_zero]

/-- A column is multiplied and multiplied back. -/
theorem unmixByte_mixByte :
    unmixByte (mixByte a b c d) (mixByte b c d a) (mixByte c d a b) (mixByte d a b c) = a := by
  -- what is added to the bytes, and what the two sums have in common
  have hac := mixByte_opposite a b c d
  have hbd : mixByte b c d a ^^^ mixByte d a b c = b ^^^ d ^^^ xtime (a ^^^ b ^^^ c ^^^ d) := by
    rw [mixByte_opposite]
    congr 2
    ac_rfl
  rw [unmixByte_eq, mixByte_xor, mixByte, mixByte_sum, mixByte_next, hac, hbd]
  simp only [mixByte, xtime_xor]
  simp only [BitVec.xor_assoc, BitVec.xor_comm, xor_rotate, xor_xor_self, BitVec.xor_self,
    BitVec.xor_zero]

end Columns

end HfRisc.Lib

/-! ## The block cipher -/

namespace HfRisc.Lib

/-- A block: column and row. -/
abbrev Square := Fin 4 → Fin 4 → BitVec 8

/-- There are four rows and four columns, so a place is counted around. -/
theorem Square.neZero : NeZero 4 := ⟨by decide⟩

attribute [local instance] Square.neZero

namespace Square

/-- Column after column. -/
def layout : Layout (BitVec 8) Square 16 where
  read b := fun i j => b (4 * i + j)
  bytes s k := s (Fin.ofNat 4 (k / 4)) (Fin.ofNat 4 k)
  read_congr h := by
    funext i j
    exact h _ (by omega)
  read_bytes s := by
    funext i j
    have hcolumn : Fin.ofNat 4 ((4 * (i : ℕ) + j) / 4) = i := Fin.ext (by
      show (4 * (i : ℕ) + j) / 4 % 4 = i
      omega)
    have hrow : Fin.ofNat 4 (4 * (i : ℕ) + j) = j := Fin.ext (by
      show (4 * (i : ℕ) + j) % 4 = j
      omega)
    show s (Fin.ofNat 4 ((4 * (i : ℕ) + j) / 4)) (Fin.ofNat 4 (4 * (i : ℕ) + j)) = s i j
    rw [hcolumn, hrow]
  bytes_read b k hk := congrArg b (by
    show 4 * (k / 4 % 4) + k % 4 = k
    omega)

variable (sub unsub : BitVec 8 → BitVec 8) (key : ℕ → Square) (s t k : Square)

def addKey : Square := fun i j => s i j ^^^ k i j
def subBytes : Square := fun i j => sub (s i j)
def shiftRows : Square := fun i j => s (i + j) j
def unshiftRows : Square := fun i j => s (i - j) j
def mixColumns : Square := fun i j => mixByte (s i j) (s i (j + 1)) (s i (j + 2)) (s i (j + 3))
def unmixColumns : Square := fun i j => unmixByte (s i j) (s i (j + 1)) (s i (j + 2)) (s i (j + 3))

/-! ## The steps and their inverses -/

theorem addKey_addKey : (s.addKey k).addKey k = s := by
  funext i j
  rw [addKey, addKey, BitVec.xor_assoc, BitVec.xor_self, BitVec.xor_zero]

theorem unshiftRows_shiftRows : s.shiftRows.unshiftRows = s := by
  funext i j
  rw [unshiftRows, shiftRows, sub_add_cancel]

theorem unmixColumns_mixColumns : s.mixColumns.unmixColumns = s := by
  have hadd : ∀ j : Fin 4, j + 1 + 1 = j + 2 ∧ j + 1 + 2 = j + 3 ∧ j + 1 + 3 = j ∧
      j + 2 + 1 = j + 3 ∧ j + 2 + 2 = j ∧ j + 2 + 3 = j + 1 ∧ j + 3 + 1 = j ∧
      j + 3 + 2 = j + 1 ∧ j + 3 + 3 = j + 2 := by
    decide
  funext i j
  obtain ⟨h₁, h₂, h₃, h₄, h₅, h₆, h₇, h₈, h₉⟩ := hadd j
  simp only [unmixColumns, mixColumns, h₁, h₂, h₃, h₄, h₅, h₆, h₇, h₈, h₉]
  exact unmixByte_mixByte _ _ _ _

variable {sub unsub}

theorem unsubBytes_subBytes (h : ∀ b, unsub (sub b) = b) :
    (s.subBytes sub).subBytes unsub = s := by
  funext i j
  exact h _

/-- Substituting and shifting commute. -/
theorem subBytes_unshiftRows :
    s.unshiftRows.subBytes unsub = (s.subBytes unsub).unshiftRows := rfl

theorem unmixByte_xor (a b c d a' b' c' d' : BitVec 8) :
    unmixByte (a ^^^ a') (b ^^^ b') (c ^^^ c') (d ^^^ d') =
      unmixByte a b c d ^^^ unmixByte a' b' c' d' := by
  simp only [unmixByte, timesE, timesB, timesD, times9, xtime_xor]
  ac_rfl

/-- Columns are multiplied back one summand at a time. -/
theorem unmixColumns_addKey :
    (s.addKey k).unmixColumns = s.unmixColumns.addKey k.unmixColumns := by
  funext i j
  exact unmixByte_xor _ _ _ _ _ _ _ _

/-! ## The cipher -/

variable (sub unsub)

/-- The first key and `n` full rounds. -/
def rounds : ℕ → Square
  | 0 => s.addKey (key 0)
  | n + 1 => (((rounds n).subBytes sub).shiftRows.mixColumns).addKey (key (n + 1))

/-- The cipher with `n + 1` rounds, the last one without the columns. -/
def encrypt (n : ℕ) : Square :=
  ((s.rounds sub key n).subBytes sub).shiftRows.addKey (key (n + 1))

/-- The full rounds from the `n`-th on are undone, last one first, and the first key. -/
def unrounds : ℕ → Square → Square
  | 0, s => s.addKey (key 0)
  | n + 1, s =>
    unrounds n ((s.addKey (key (n + 1))).unmixColumns.unshiftRows.subBytes unsub)

/-- The inverse cipher. -/
def decrypt (n : ℕ) : Square :=
  unrounds unsub key n ((s.addKey (key (n + 1))).unshiftRows.subBytes unsub)

variable {sub unsub}

theorem unrounds_rounds (h : ∀ b, unsub (sub b) = b) (n : ℕ) :
    unrounds unsub key n (s.rounds sub key n) = s := by
  induction n with
  | zero => exact addKey_addKey s (key 0)
  | succ n ih =>
    rw [rounds, unrounds, addKey_addKey, unmixColumns_mixColumns, unshiftRows_shiftRows,
      unsubBytes_subBytes _ h, ih]

/-- The inverse cipher undoes the cipher, for every number of rounds and all round keys. -/
theorem decrypt_encrypt (h : ∀ b, unsub (sub b) = b) (n : ℕ) :
    (s.encrypt sub key n).decrypt unsub key n = s := by
  rw [encrypt, decrypt, addKey_addKey, unshiftRows_shiftRows, unsubBytes_subBytes _ h,
    unrounds_rounds key s h]

section Congr

variable {key} {key' : ℕ → Square} {n : ℕ}

/-- Only the first keys count. -/
theorem encrypt_congr (h : ∀ r ≤ n + 1, key r = key' r) :
    s.encrypt sub key n = s.encrypt sub key' n := by
  have hrounds : ∀ m ≤ n, s.rounds sub key m = s.rounds sub key' m := by
    intro m
    induction m with
    | zero =>
      intro _
      rw [rounds, rounds, h 0 (Nat.zero_le _)]
    | succ m ih =>
      intro hm
      rw [rounds, rounds, ih (Nat.le_of_succ_le hm), h (m + 1) (Nat.le_succ_of_le hm)]
  rw [encrypt, encrypt, hrounds n le_rfl, h (n + 1) le_rfl]

theorem decrypt_congr (h : ∀ r ≤ n + 1, key r = key' r) :
    s.decrypt unsub key n = s.decrypt unsub key' n := by
  have hunrounds : ∀ m ≤ n, unrounds unsub key m = unrounds unsub key' m := by
    intro m
    induction m with
    | zero =>
      intro _
      funext s
      rw [unrounds, unrounds, h 0 (Nat.zero_le _)]
    | succ m ih =>
      intro hm
      funext s
      rw [unrounds, unrounds, ih (Nat.le_of_succ_le hm), h (m + 1) (Nat.le_succ_of_le hm)]
  rw [decrypt, decrypt, hunrounds n le_rfl, h (n + 1) le_rfl]

end Congr

/-- There are as many blocks as blocks, so the cipher undoes the inverse cipher, too. -/
theorem encrypt_decrypt (h : ∀ b, unsub (sub b) = b) (n : ℕ) :
    (s.decrypt unsub key n).encrypt sub key n = s := by
  have hfinite : Finite (BitVec 8) := Finite.of_equiv _ BitVec.equivFin.symm.toEquiv
  have hleft : Function.LeftInverse (fun s => decrypt unsub key s n) fun s => encrypt sub key s n :=
    fun s => decrypt_encrypt key s h n
  exact hleft.rightInverse_of_surjective (Finite.surjective_of_injective hleft.injective) s

/-! ## Chained blocks -/

/-- A block is encrypted together with the one before it. -/
def chainEncrypt (encrypt : Square → Square) (iv s : Square) : Square × Square :=
  (encrypt (s.addKey iv), encrypt (s.addKey iv))

def chainDecrypt (decrypt : Square → Square) (iv s : Square) : Square × Square :=
  (s, (decrypt s).addKey iv)

theorem chainDecrypt_undoes {encrypt decrypt : Square → Square} (h : ∀ s, decrypt (encrypt s) = s) :
    Undoes (chainDecrypt decrypt) (chainEncrypt encrypt) := by
  intro iv s
  rw [chainEncrypt, chainDecrypt, h, addKey_addKey]

/-! ## The inverse cipher in the order of the cipher -/

/-- Substitution, shift, columns, then the key: `n` rounds, with the keys from `n` down. -/
def backwards (unsub : BitVec 8 → BitVec 8) (key : ℕ → Square) : ℕ → Square → Square
  | 0, s => (s.subBytes unsub).unshiftRows.addKey (key 0)
  | n + 1, s => backwards unsub key n
      (((s.subBytes unsub).unshiftRows.unmixColumns).addKey (key (n + 1)))

/-- It agrees with the inverse cipher where its keys are the converted ones. -/
theorem backwards_eq {key' : ℕ → Square} {n : ℕ} (h0 : key' 0 = key 0)
    (hkey : ∀ r, 0 < r → r ≤ n → key' r = (key r).unmixColumns) :
    backwards unsub key' n (s.addKey (key (n + 1))) = s.decrypt unsub key n := by
  suffices hrounds : ∀ m ≤ n, ∀ s : Square, backwards unsub key' m s =
      unrounds unsub key m (s.unshiftRows.subBytes unsub) from hrounds n le_rfl _
  intro m
  induction m with
  | zero =>
    intro _ s
    rw [backwards, unrounds, h0, subBytes_unshiftRows]
  | succ m ih =>
    intro hm s
    rw [backwards, ih (Nat.le_of_succ_le hm), unrounds, hkey (m + 1) (Nat.succ_pos m) hm,
      ← unmixColumns_addKey, subBytes_unshiftRows]
    rfl

end Square

end HfRisc.Lib
