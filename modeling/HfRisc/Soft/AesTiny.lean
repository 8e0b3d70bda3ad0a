import HfRisc.Arch
import HfRisc.Lib.Rijndael
import Mathlib.Data.Fin.VecNotation

/-!
# AES-128 (`aes_tiny/aes.c`)

The cipher works on the 16 bytes at `output`, as an array of columns. `RoundKey` and `Iv` are
static, so they last from one call to the next. `MULTIPLY_AS_A_FUNCTION` makes no difference to
`Multiply`.
-/

namespace HfRisc.Soft.AesTiny

open HfRisc.Lib (Square)

attribute [local instance] Square.neZero

/-! ## Tables -/

def sbox : List (BitVec 8) :=
  [
    0x63, 0x7c, 0x77, 0x7b, 0xf2, 0x6b, 0x6f, 0xc5, 0x30, 0x01, 0x67, 0x2b, 0xfe, 0xd7, 0xab, 0x76,
    0xca, 0x82, 0xc9, 0x7d, 0xfa, 0x59, 0x47, 0xf0, 0xad, 0xd4, 0xa2, 0xaf, 0x9c, 0xa4, 0x72, 0xc0,
    0xb7, 0xfd, 0x93, 0x26, 0x36, 0x3f, 0xf7, 0xcc, 0x34, 0xa5, 0xe5, 0xf1, 0x71, 0xd8, 0x31, 0x15,
    0x04, 0xc7, 0x23, 0xc3, 0x18, 0x96, 0x05, 0x9a, 0x07, 0x12, 0x80, 0xe2, 0xeb, 0x27, 0xb2, 0x75,
    0x09, 0x83, 0x2c, 0x1a, 0x1b, 0x6e, 0x5a, 0xa0, 0x52, 0x3b, 0xd6, 0xb3, 0x29, 0xe3, 0x2f, 0x84,
    0x53, 0xd1, 0x00, 0xed, 0x20, 0xfc, 0xb1, 0x5b, 0x6a, 0xcb, 0xbe, 0x39, 0x4a, 0x4c, 0x58, 0xcf,
    0xd0, 0xef, 0xaa, 0xfb, 0x43, 0x4d, 0x33, 0x85, 0x45, 0xf9, 0x02, 0x7f, 0x50, 0x3c, 0x9f, 0xa8,
    0x51, 0xa3, 0x40, 0x8f, 0x92, 0x9d, 0x38, 0xf5, 0xbc, 0xb6, 0xda, 0x21, 0x10, 0xff, 0xf3, 0xd2,
    0xcd, 0x0c, 0x13, 0xec, 0x5f, 0x97, 0x44, 0x17, 0xc4, 0xa7, 0x7e, 0x3d, 0x64, 0x5d, 0x19, 0x73,
    0x60, 0x81, 0x4f, 0xdc, 0x22, 0x2a, 0x90, 0x88, 0x46, 0xee, 0xb8, 0x14, 0xde, 0x5e, 0x0b, 0xdb,
    0xe0, 0x32, 0x3a, 0x0a, 0x49, 0x06, 0x24, 0x5c, 0xc2, 0xd3, 0xac, 0x62, 0x91, 0x95, 0xe4, 0x79,
    0xe7, 0xc8, 0x37, 0x6d, 0x8d, 0xd5, 0x4e, 0xa9, 0x6c, 0x56, 0xf4, 0xea, 0x65, 0x7a, 0xae, 0x08,
    0xba, 0x78, 0x25, 0x2e, 0x1c, 0xa6, 0xb4, 0xc6, 0xe8, 0xdd, 0x74, 0x1f, 0x4b, 0xbd, 0x8b, 0x8a,
    0x70, 0x3e, 0xb5, 0x66, 0x48, 0x03, 0xf6, 0x0e, 0x61, 0x35, 0x57, 0xb9, 0x86, 0xc1, 0x1d, 0x9e,
    0xe1, 0xf8, 0x98, 0x11, 0x69, 0xd9, 0x8e, 0x94, 0x9b, 0x1e, 0x87, 0xe9, 0xce, 0x55, 0x28, 0xdf,
    0x8c, 0xa1, 0x89, 0x0d, 0xbf, 0xe6, 0x42, 0x68, 0x41, 0x99, 0x2d, 0x0f, 0xb0, 0x54, 0xbb, 0x16]

def rsbox : List (BitVec 8) :=
  [
    0x52, 0x09, 0x6a, 0xd5, 0x30, 0x36, 0xa5, 0x38, 0xbf, 0x40, 0xa3, 0x9e, 0x81, 0xf3, 0xd7, 0xfb,
    0x7c, 0xe3, 0x39, 0x82, 0x9b, 0x2f, 0xff, 0x87, 0x34, 0x8e, 0x43, 0x44, 0xc4, 0xde, 0xe9, 0xcb,
    0x54, 0x7b, 0x94, 0x32, 0xa6, 0xc2, 0x23, 0x3d, 0xee, 0x4c, 0x95, 0x0b, 0x42, 0xfa, 0xc3, 0x4e,
    0x08, 0x2e, 0xa1, 0x66, 0x28, 0xd9, 0x24, 0xb2, 0x76, 0x5b, 0xa2, 0x49, 0x6d, 0x8b, 0xd1, 0x25,
    0x72, 0xf8, 0xf6, 0x64, 0x86, 0x68, 0x98, 0x16, 0xd4, 0xa4, 0x5c, 0xcc, 0x5d, 0x65, 0xb6, 0x92,
    0x6c, 0x70, 0x48, 0x50, 0xfd, 0xed, 0xb9, 0xda, 0x5e, 0x15, 0x46, 0x57, 0xa7, 0x8d, 0x9d, 0x84,
    0x90, 0xd8, 0xab, 0x00, 0x8c, 0xbc, 0xd3, 0x0a, 0xf7, 0xe4, 0x58, 0x05, 0xb8, 0xb3, 0x45, 0x06,
    0xd0, 0x2c, 0x1e, 0x8f, 0xca, 0x3f, 0x0f, 0x02, 0xc1, 0xaf, 0xbd, 0x03, 0x01, 0x13, 0x8a, 0x6b,
    0x3a, 0x91, 0x11, 0x41, 0x4f, 0x67, 0xdc, 0xea, 0x97, 0xf2, 0xcf, 0xce, 0xf0, 0xb4, 0xe6, 0x73,
    0x96, 0xac, 0x74, 0x22, 0xe7, 0xad, 0x35, 0x85, 0xe2, 0xf9, 0x37, 0xe8, 0x1c, 0x75, 0xdf, 0x6e,
    0x47, 0xf1, 0x1a, 0x71, 0x1d, 0x29, 0xc5, 0x89, 0x6f, 0xb7, 0x62, 0x0e, 0xaa, 0x18, 0xbe, 0x1b,
    0xfc, 0x56, 0x3e, 0x4b, 0xc6, 0xd2, 0x79, 0x20, 0x9a, 0xdb, 0xc0, 0xfe, 0x78, 0xcd, 0x5a, 0xf4,
    0x1f, 0xdd, 0xa8, 0x33, 0x88, 0x07, 0xc7, 0x31, 0xb1, 0x12, 0x10, 0x59, 0x27, 0x80, 0xec, 0x5f,
    0x60, 0x51, 0x7f, 0xa9, 0x19, 0xb5, 0x4a, 0x0d, 0x2d, 0xe5, 0x7a, 0x9f, 0x93, 0xc9, 0x9c, 0xef,
    0xa0, 0xe0, 0x3b, 0x4d, 0xae, 0x2a, 0xf5, 0xb0, 0xc8, 0xeb, 0xbb, 0x3c, 0x83, 0x53, 0x99, 0x61,
    0x17, 0x2b, 0x04, 0x7e, 0xba, 0x77, 0xd6, 0x26, 0xe1, 0x69, 0x14, 0x63, 0x55, 0x21, 0x0c, 0x7d]

/-- The first row of `Rcon`; no more of it is read. -/
def rcon : List (BitVec 8) :=
  [0x8d, 0x01, 0x02, 0x04, 0x08, 0x10, 0x20, 0x40, 0x80, 0x1b, 0x36, 0x6c, 0xd8, 0xab, 0x4d, 0x9a]

def getSBoxValue (num : BitVec 8) : BitVec 8 := sbox.getD num.toNat 0

def getSBoxInvert (num : BitVec 8) : BitVec 8 := rsbox.getD num.toNat 0

/-! ## The round keys -/

/-- `Nb`. -/
def nb : ℕ := 4

/-- `Nk`. -/
def nk : ℕ := 4

/-- `Nr`. -/
def nr : ℕ := 10

/-- `RotWord`, `SubWord` and the round constant. -/
def rotSub (rcon : BitVec 8) (tempa : Fin 4 → BitVec 8) : Fin 4 → BitVec 8 :=
  ![getSBoxValue (tempa 1) ^^^ rcon, getSBoxValue (tempa 2), getSBoxValue (tempa 3),
    getSBoxValue (tempa 0)]

/-- Word `i` of the round keys. -/
def expandWord (roundKey : ℕ → BitVec 8) (i : ℕ) : ℕ → BitVec 8 :=
  let tempa : Fin 4 → BitVec 8 := fun j => roundKey ((i - 1) * 4 + j)
  let tempa := if i % nk = 0 then rotSub (rcon.getD (i / nk) 0) tempa else tempa
  fun k =>
    if k / 4 = i then roundKey ((i - nk) * 4 + k % 4) ^^^ tempa (Fin.ofNat 4 k) else roundKey k

/-- `KeyExpansion`: the bytes of the key, then word after word. -/
def keyExpansion (key roundKey : ℕ → BitVec 8) : ℕ → BitVec 8 :=
  (List.range' nk (nb * (nr + 1) - nk)).foldl expandWord
    fun k => if k < 16 then key k else roundKey k

/-! ## The steps -/

def addRoundKey (roundKey : ℕ → BitVec 8) (round : ℕ) (state : Square) : Square := fun i j =>
  state i j ^^^ roundKey (round * nb * 4 + i * nb + j)

def subBytes (state : Square) : Square := fun i j => getSBoxValue (state i j)

def invSubBytes (state : Square) : Square := fun i j => getSBoxInvert (state i j)

/-- `(*state)[i][j] = v`. -/
def set (state : Square) (i j : Fin 4) (v : BitVec 8) : Square := fun k l =>
  if k = i ∧ l = j then v else state k l

def shiftRows (state : Square) : Square :=
  let temp := state 0 1
  let state := set state 0 1 (state 1 1)
  let state := set state 1 1 (state 2 1)
  let state := set state 2 1 (state 3 1)
  let state := set state 3 1 temp
  let temp := state 0 2
  let state := set state 0 2 (state 2 2)
  let state := set state 2 2 temp
  let temp := state 1 2
  let state := set state 1 2 (state 3 2)
  let state := set state 3 2 temp
  let temp := state 0 3
  let state := set state 0 3 (state 3 3)
  let state := set state 3 3 (state 2 3)
  let state := set state 2 3 (state 1 3)
  set state 1 3 temp

def invShiftRows (state : Square) : Square :=
  let temp := state 3 1
  let state := set state 3 1 (state 2 1)
  let state := set state 2 1 (state 1 1)
  let state := set state 1 1 (state 0 1)
  let state := set state 0 1 temp
  let temp := state 0 2
  let state := set state 0 2 (state 2 2)
  let state := set state 2 2 temp
  let temp := state 1 2
  let state := set state 1 2 (state 3 2)
  let state := set state 3 2 temp
  let temp := state 0 3
  let state := set state 0 3 (state 1 3)
  let state := set state 1 3 (state 2 3)
  let state := set state 2 3 (state 3 3)
  set state 3 3 temp

def xtime (x : BitVec 8) : BitVec 8 := (x <<< 1) ^^^ ((x >>> 7) &&& 1) * 0x1b

/-- `MixColumns` on one column. -/
def mixColumn (c : Fin 4 → BitVec 8) : Fin 4 → BitVec 8 :=
  let t := c 0
  let tmp := c 0 ^^^ c 1 ^^^ c 2 ^^^ c 3
  ![c 0 ^^^ (xtime (c 0 ^^^ c 1) ^^^ tmp), c 1 ^^^ (xtime (c 1 ^^^ c 2) ^^^ tmp),
    c 2 ^^^ (xtime (c 2 ^^^ c 3) ^^^ tmp), c 3 ^^^ (xtime (c 3 ^^^ t) ^^^ tmp)]

def mixColumns (state : Square) : Square := fun i => mixColumn (state i)

/-- `Multiply`. -/
def multiply (x y : BitVec 8) : BitVec 8 :=
  (y &&& 1) * x ^^^ ((y >>> 1) &&& 1) * xtime x ^^^ ((y >>> 2) &&& 1) * xtime (xtime x) ^^^
    ((y >>> 3) &&& 1) * xtime (xtime (xtime x)) ^^^
    ((y >>> 4) &&& 1) * xtime (xtime (xtime (xtime x)))

/-- `InvMixColumns` on one column. -/
def invMixColumn (state : Fin 4 → BitVec 8) : Fin 4 → BitVec 8 :=
  let a := state 0
  let b := state 1
  let c := state 2
  let d := state 3
  ![multiply a 0x0e ^^^ multiply b 0x0b ^^^ multiply c 0x0d ^^^ multiply d 0x09,
    multiply a 0x09 ^^^ multiply b 0x0e ^^^ multiply c 0x0b ^^^ multiply d 0x0d,
    multiply a 0x0d ^^^ multiply b 0x09 ^^^ multiply c 0x0e ^^^ multiply d 0x0b,
    multiply a 0x0b ^^^ multiply b 0x0d ^^^ multiply c 0x09 ^^^ multiply d 0x0e]

def invMixColumns (state : Square) : Square := fun i => invMixColumn (state i)

/-! ## The cipher -/

section Cipher

variable (roundKey : ℕ → BitVec 8) (state : Square)

/-- `Cipher`. -/
def cipher : Square :=
  let state := addRoundKey roundKey 0 state
  let state := (List.range' 1 (nr - 1)).foldl
    (fun state round => addRoundKey roundKey round (mixColumns (shiftRows (subBytes state)))) state
  addRoundKey roundKey nr (shiftRows (subBytes state))

/-- `InvCipher`. -/
def invCipher : Square :=
  let state := addRoundKey roundKey nr state
  let state := (List.range' 1 (nr - 1)).reverse.foldl
    (fun state round =>
      invMixColumns (addRoundKey roundKey round (invSubBytes (invShiftRows state)))) state
  addRoundKey roundKey 0 (invSubBytes (invShiftRows state))

end Cipher

/-! ## Memory -/

/-- The memory, and the static variables that last. -/
@[ext]
structure Memory where
  mem : Word → BitVec 8
  roundKey : ℕ → BitVec 8
  iv : Word

/-- `KEYLEN`. -/
def keyLen : ℕ := 16

/-- The array at an address. -/
def load (mem : Word → BitVec 8) (p : Word) : Square := fun i j =>
  mem (p + BitVec.ofNat 32 (4 * i + j))

/-- What the cipher leaves at `state`. -/
def store (mem : Word → BitVec 8) (p : Word) (state : Square) : Word → BitVec 8 := fun a =>
  if (a - p).toNat < keyLen then state (Fin.ofNat 4 ((a - p).toNat / 4)) (Fin.ofNat 4 (a - p).toNat)
  else mem a

/-- `BlockCopy`, byte by byte. -/
def blockCopy (mem : Word → BitVec 8) (output input : Word) : Word → BitVec 8 :=
  (List.range keyLen).foldl
    (fun mem i => Function.update mem (output + BitVec.ofNat 32 i)
      (mem (input + BitVec.ofNat 32 i))) mem

namespace Memory

variable (m : Memory) (input key output iv : Word)

/-- `Key = key; KeyExpansion();`. -/
def setKey : Memory :=
  { m with roundKey := keyExpansion (fun k => m.mem (key + BitVec.ofNat 32 k)) m.roundKey }

/-- `BlockCopy(output, input)`. -/
def copy : Memory := { m with mem := blockCopy m.mem output input }

/-- `Cipher`, at `output`. -/
def cipherAt : Memory :=
  { m with mem := store m.mem output (cipher m.roundKey (load m.mem output)) }

/-- `InvCipher`, at `output`. -/
def invCipherAt : Memory :=
  { m with mem := store m.mem output (invCipher m.roundKey (load m.mem output)) }

/-- `AES128_ECB_encrypt`. -/
def ecbEncrypt : Memory := ((m.copy input output).setKey key).cipherAt output

/-- `AES128_ECB_decrypt`. -/
def ecbDecrypt : Memory := ((m.copy input output).setKey key).invCipherAt output

/-- `XorWithIv`, byte by byte. -/
def xorWithIv (buf : Word) : Memory :=
  { m with
    mem := (List.range keyLen).foldl
      (fun mem i => Function.update mem (buf + BitVec.ofNat 32 i)
        (mem (buf + BitVec.ofNat 32 i) ^^^ mem (m.iv + BitVec.ofNat 32 i))) m.mem }

/-- `memset(p, 0, n)`. -/
def clear (p : Word) (n : ℕ) : Memory :=
  { m with mem := fun a => if (a - p).toNat < n then 0 else m.mem a }

end Memory

/-! ## Chained blocks -/

namespace Cbc

/-- The memory and the two pointers that move on. -/
@[ext]
structure Vars where
  m : Memory
  input : Word
  output : Word

/-- What both functions do first: null pointers leave the key and the vector of the call before. -/
def start (m : Memory) (output input key iv : Word) : Vars :=
  let m := m.copy input output
  let m := if key ≠ 0 then m.setKey key else m
  let m := if iv ≠ 0 then { m with iv := iv } else m
  ⟨m, input, output⟩

/-- The body of the loop of `AES128_CBC_encrypt_buffer`. The input is changed, too. -/
def encryptBody (v : Vars) : Vars :=
  let m := ((v.m.xorWithIv v.input).copy v.input v.output).cipherAt v.output
  ⟨{ m with iv := v.output }, v.input + BitVec.ofNat 32 keyLen, v.output + BitVec.ofNat 32 keyLen⟩

/-- The body of the loop of `AES128_CBC_decrypt_buffer`. -/
def decryptBody (v : Vars) : Vars :=
  let m := ((v.m.copy v.input v.output).invCipherAt v.output).xorWithIv v.output
  ⟨{ m with iv := v.input }, v.input + BitVec.ofNat 32 keyLen, v.output + BitVec.ofNat 32 keyLen⟩

/-- `for (i = 0; i < length; i += KEYLEN)`. -/
def loop (body : Vars → Vars) (length : Word) : ℕ → Word → Vars → Option Vars
  | 0, _, _ => none
  | fuel + 1, i, v =>
    -- `i` wraps, so for the largest lengths the loop has no end
    if i < length then loop body length fuel (i + BitVec.ofNat 32 keyLen) (body v) else some v

/-- The part under `if (remainders)`, before the cipher. -/
def pad (remainders : ℕ) (v : Vars) : Memory :=
  (v.m.copy v.input v.output).clear (v.output + BitVec.ofNat 32 remainders) (keyLen - remainders)

end Cbc

/-- `AES128_CBC_encrypt_buffer`. -/
def cbcEncrypt (fuel : ℕ) (m : Memory) (output input length key iv : Word) : Option Memory :=
  let remainders := length.toNat % keyLen
  (Cbc.loop Cbc.encryptBody length fuel 0 (Cbc.start m output input key iv)).map fun v =>
    if remainders ≠ 0 then (Cbc.pad remainders v).cipherAt v.output else v.m

/-- `AES128_CBC_decrypt_buffer`. -/
def cbcDecrypt (fuel : ℕ) (m : Memory) (output input length key iv : Word) : Option Memory :=
  let remainders := length.toNat % keyLen
  (Cbc.loop Cbc.decryptBody length fuel 0 (Cbc.start m output input key iv)).map fun v =>
    if remainders ≠ 0 then (Cbc.pad remainders v).invCipherAt v.output else v.m

end HfRisc.Soft.AesTiny
