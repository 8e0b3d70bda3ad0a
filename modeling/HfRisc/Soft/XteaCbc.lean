import HfRisc.Lib.Bits
import HfRisc.Lib.BlockWalk
import HfRisc.Soft.Xtea
import Mathlib.Data.List.Range

/-!
# XTEA in CBC mode (`xtea2.c`)

The two functions differ in what they do with a block and with the chaining value between the
load and the store, in the loop and in the part behind it. `block` is a pair of words whose
bytes `memcpy` and `memset` reach in the order of the machine. The bytes read through `in` and
written through `out` are recorded.
-/

namespace HfRisc.Soft

/-- The order in which a word lies in memory. -/
inductive ByteOrder
  | little | big
deriving DecidableEq, Repr

namespace ByteOrder

/-- The word of four bytes in memory. -/
def word : ByteOrder → BitVec 8 → BitVec 8 → BitVec 8 → BitVec 8 → Word
  | little, a, b, c, d => d ++ c ++ b ++ a
  | big, a, b, c, d => a ++ b ++ c ++ d

/-- Byte `k` of a word. -/
def byte : ByteOrder → Word → ℕ → BitVec 8
  | little, w, k => w.extractLsb' (8 * k) 8
  | big, w, k => w.extractLsb' (24 - 8 * k) 8

/-- The array of two words of eight bytes. -/
def words (o : ByteOrder) (b : ℕ → BitVec 8) : Word × Word :=
  (o.word (b 0) (b 1) (b 2) (b 3), o.word (b 4) (b 5) (b 6) (b 7))

/-- The bytes of an array of two words. -/
def bytes (o : ByteOrder) (v : Word × Word) (k : ℕ) : BitVec 8 :=
  if k < 4 then o.byte v.1 k else o.byte v.2 (k - 4)

end ByteOrder

namespace XteaCbc

/-- `BLOCKLEN`. -/
def blockLen : ℕ := 8

/-- The memory, the accesses to it and the local variables, with `in` as `inp`. -/
structure Vars where
  mem : Word → BitVec 8
  reads : List Word
  writes : List Word
  inp : Word
  out : Word
  block : Word × Word
  tiv : Word × Word

/-- The variables before the loop. `block` gets a value with the first load. -/
def init (mem : Word → BitVec 8) (out inp : Word) (iv : Word × Word) : Vars where
  mem := mem
  reads := []
  writes := []
  inp := inp
  out := out
  block := (0, 0)
  tiv := iv

/-- `n` addresses from a pointer on. -/
def span (p : Word) (n : ℕ) : List Word := (List.range n).map fun k => p + BitVec.ofNat 32 k

namespace Vars

variable (o : ByteOrder) (n : ℕ) (s : Vars)

/-- `memcpy((char *)block, in, n)`. -/
def load : Vars :=
  { s with
    block := o.words fun k =>
      if k < n then s.mem (s.inp + BitVec.ofNat 32 k) else o.bytes s.block k
    reads := s.reads ++ span s.inp n }

/-- `memset((char *)block + rem, 0, BLOCKLEN - rem)`. -/
def clear (rem : ℕ) : Vars :=
  { s with block := o.words fun k => if rem ≤ k then 0 else o.bytes s.block k }

/-- `memcpy(out, (char *)block, n)`. -/
def store : Vars :=
  { s with
    mem := fun a => if (a - s.out).toNat < n then o.bytes s.block (a - s.out).toNat else s.mem a
    writes := s.writes ++ span s.out n }

/-- What is done with the chaining value and the block. -/
def chain (f : Word × Word → Word × Word → (Word × Word) × (Word × Word)) : Vars :=
  { s with tiv := (f s.tiv s.block).1, block := (f s.tiv s.block).2 }

/-- `in += BLOCKLEN; out += BLOCKLEN`. -/
def advance : Vars :=
  { s with
    inp := s.inp + BitVec.ofNat 32 blockLen
    out := s.out + BitVec.ofNat 32 blockLen }

end Vars

/-- `block[0] ^= tiv[0]; block[1] ^= tiv[1]`. -/
def xor (block tiv : Word × Word) : Word × Word := (block.1 ^^^ tiv.1, block.2 ^^^ tiv.2)

section Functions

variable (o : ByteOrder) (f g : Word × Word → Word × Word → (Word × Word) × (Word × Word))

/-- The body of the loop. -/
def body (s : Vars) : Vars := (((s.load o blockLen).chain f).store o blockLen).advance

/-- `for (i = 0; i < len; i += BLOCKLEN)`. -/
def loop (len : Word) : ℕ → Word → Vars → Option Vars
  | 0, _, _ => none
  | fuel + 1, i, s =>
    -- `i` wraps, so for the largest lengths the loop has no end
    if i < len then loop len fuel (i + BitVec.ofNat 32 blockLen) (body o f s) else some s

/-- The part under `if (rem)`. -/
def tail (rem : ℕ) (s : Vars) : Vars :=
  (((s.load o (blockLen - rem)).clear o rem).chain g).store o (blockLen - rem)

/-- A function with `f` in the loop and `g` behind it. -/
def cbc (fuel : ℕ) (mem : Word → BitVec 8) (out inp len : Word) (iv : Word × Word) :
    Option Vars :=
  let rem := len.toNat % blockLen
  (loop o f len fuel 0 (init mem out inp iv)).map fun s =>
    if rem ≠ 0 then tail o g rem s else s

end Functions

section Chains

variable (key : ℕ → Word)

/-- In the loop of `xtea_cbc_encrypt`. -/
def encryptBlock (tiv block : Word × Word) : (Word × Word) × (Word × Word) :=
  let block := encipher 32 (xor block tiv) key
  (block, block)

/-- Behind the loop of `xtea_cbc_encrypt`. -/
def encryptTail (tiv block : Word × Word) : (Word × Word) × (Word × Word) :=
  (tiv, encipher 32 (xor block tiv) key)

/-- In the loop of `xtea_cbc_decrypt`, with the loaded block in `block2`. -/
def decryptBlock (tiv block : Word × Word) : (Word × Word) × (Word × Word) :=
  let block2 := block
  (block2, xor (decipher 32 block key) tiv)

/-- Behind the loop of `xtea_cbc_decrypt`: `tiv` is replaced by the loaded block first. -/
def decryptTail (_tiv block : Word × Word) : (Word × Word) × (Word × Word) :=
  let tiv := block
  (tiv, xor (decipher 32 block key) tiv)

end Chains

end XteaCbc

open XteaCbc

/-- `xtea_cbc_encrypt`. -/
def xteaCbcEncrypt (o : ByteOrder) (fuel : ℕ) (mem : Word → BitVec 8) (out inp len : Word)
    (key : ℕ → Word) (iv : Word × Word) : Option Vars :=
  cbc o (encryptBlock key) (encryptTail key) fuel mem out inp len iv

/-- `xtea_cbc_decrypt`. -/
def xteaCbcDecrypt (o : ByteOrder) (fuel : ℕ) (mem : Word → BitVec 8) (out inp len : Word)
    (key : ℕ → Word) (iv : Word × Word) : Option Vars :=
  cbc o (decryptBlock key) (decryptTail key) fuel mem out inp len iv

namespace ByteOrder

variable {o : ByteOrder}

theorem words_congr {b c : ℕ → BitVec 8} (h : ∀ k < 8, b k = c k) : o.words b = o.words c := by
  rw [words, words, h 0 (by decide), h 1 (by decide), h 2 (by decide), h 3 (by decide),
    h 4 (by decide), h 5 (by decide), h 6 (by decide), h 7 (by decide)]

/-- The bytes of a word are those it is made of. -/
theorem byte_word (a b c d : BitVec 8) :
    o.byte (o.word a b c d) 0 = a ∧ o.byte (o.word a b c d) 1 = b ∧
      o.byte (o.word a b c d) 2 = c ∧ o.byte (o.word a b c d) 3 = d := by
  cases o with
  | little => exact ⟨Lib.byte0 .., Lib.byte1 .., Lib.byte2 .., Lib.byte3 ..⟩
  | big => exact ⟨Lib.byte3 .., Lib.byte2 .., Lib.byte1 .., Lib.byte0 ..⟩

theorem word_byte (w : Word) : o.word (o.byte w 0) (o.byte w 1) (o.byte w 2) (o.byte w 3) = w := by
  cases o with
  | little => exact Lib.append_bytes w
  | big => exact Lib.append_bytes w

theorem words_bytes (v : Word × Word) : o.words (o.bytes v) = v :=
  Prod.ext (word_byte v.1) (word_byte v.2)

theorem bytes_words (b : ℕ → BitVec 8) {k : ℕ} (hk : k < 8) : o.bytes (o.words b) k = b k := by
  obtain ⟨h₀, h₁, h₂, h₃⟩ := byte_word (o := o) (b 0) (b 1) (b 2) (b 3)
  obtain ⟨h₄, h₅, h₆, h₇⟩ := byte_word (o := o) (b 4) (b 5) (b 6) (b 7)
  obtain rfl | rfl | rfl | rfl | rfl | rfl | rfl | rfl :
    k = 0 ∨ k = 1 ∨ k = 2 ∨ k = 3 ∨ k = 4 ∨ k = 5 ∨ k = 6 ∨ k = 7 := by omega
  · exact h₀
  · exact h₁
  · exact h₂
  · exact h₃
  · exact h₄
  · exact h₅
  · exact h₆
  · exact h₇

end ByteOrder

namespace XteaCbc

theorem xor_xor (v w : Word × Word) : xor (xor v w) w = v := by
  rw [xor, xor, BitVec.xor_assoc, BitVec.xor_self, BitVec.xor_zero, BitVec.xor_assoc,
    BitVec.xor_self, BitVec.xor_zero]

/-- In the loops, a block that is decrypted is the one that was encrypted. -/
theorem decryptBlock_undoes (key : ℕ → Word) :
    Lib.Undoes (decryptBlock key) (encryptBlock key) := by
  intro tiv block
  rw [encryptBlock, decryptBlock, decipher_encipher, xor_xor]

end XteaCbc

end HfRisc.Soft
