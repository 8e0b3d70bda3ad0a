import HfRisc.Lib.Rijndael
import HfRisc.Soft.XteaCbc

/-!
# AES in CBC mode (`aes_lite/aes.c`)

The cipher works on words with the first byte on top. The two tables are computed by
`AES_generateSBox` and are zero before. A buffer is accessed as an array of words, in the order of
the machine, so it is aligned; `htonl` and `ntohl` are the same macro.
-/

namespace HfRisc.Soft.AesLite

attribute [local instance] Lib.Square.neZero

/-- `AES_BLOCKSIZE`. -/
def blockSize : ℕ := 16

/-! ## Tables -/

/-- `aes_sbox` and `aes_isbox`. -/
structure Tables where
  sbox : List (BitVec 8)
  isbox : List (BitVec 8)
deriving DecidableEq

/-- The array `t` of `AES_generateSBox`, from its entry `i` on. -/
def powers : ℕ → Word → List Word
  | 0, _ => []
  | n + 1, x => x :: powers n (x ^^^ ((x <<< 1) ^^^ (x >>> 7) * 0x11B))

/-- What is stored in `aes_sbox` for an entry of `t`. -/
def affine (x : Word) : BitVec 8 :=
  let x := x ||| x <<< 8
  let x := x ^^^ ((x >>> 4) ^^^ (x >>> 5) ^^^ (x >>> 6) ^^^ (x >>> 7))
  ((x ^^^ 0x63) &&& 0xFF).setWidth 8

/-- `AES_generateSBox`. -/
def generateSBox (tables : Tables) : Tables :=
  let t := powers 256 1
  let sbox := tables.sbox.set 0 0x63
  let sbox := (List.range 255).foldl
    (fun sbox i => sbox.set (t.getD i 0).toNat (affine (t.getD (255 - i) 0))) sbox
  let isbox := (List.range 256).foldl
    (fun isbox i => isbox.set (sbox.getD i 0).toNat (BitVec.ofNat 8 i)) tables.isbox
  ⟨sbox, isbox⟩

/-- The tables that `main` starts with. -/
def zeroed : Tables := ⟨List.replicate 256 0, List.replicate 256 0⟩

/-- `aes_sbox[x & 0xff]`, as a word. -/
def Tables.sub (tables : Tables) (x : Word) : Word :=
  (tables.sbox.getD (x &&& 0xff).toNat 0).setWidth 32

/-- `aes_isbox[x & 0xFF]`. -/
def Tables.unsub (tables : Tables) (x : Word) : Word :=
  (tables.isbox.getD (x &&& 0xff).toNat 0).setWidth 32

/-! ## Words -/

/-- `htonl` and `ntohl`. -/
def htonl : ByteOrder → Word → Word
  | .big, n => n
  | .little, n =>
    ((n &&& 0xFF) <<< 24) ||| ((n &&& 0xFF00) <<< 8) ||| ((n &&& 0xFF0000) >>> 8) |||
      ((n &&& 0xFF000000) >>> 24)

/-- `AES_xtime`: a byte is returned. -/
def xtime (x : Word) : Word :=
  ((if x &&& 0x80 ≠ 0 then (x <<< 1) ^^^ 0x1b else x <<< 1).setWidth 8).setWidth 32

def rot1 (x : Word) : Word := (x <<< 24) ||| (x >>> 8)
def rot2 (x : Word) : Word := (x <<< 16) ||| (x >>> 16)
def rot3 (x : Word) : Word := (x <<< 8) ||| (x >>> 24)

/-- Four products at once. -/
def mul2 (x : Word) : Word :=
  let t := x &&& 0x80808080
  ((x + x) &&& 0xfefefefe) ^^^ ((t - (t >>> 7)) &&& 0x1b1b1b1b)

/-- `inv_mix_col`. -/
def invMixCol (x : Word) : Word :=
  let f2 := mul2 x
  let f4 := mul2 f2
  let f8 := mul2 f4
  let f9 := x ^^^ f8
  let f8 := f2 ^^^ f4 ^^^ f8
  let f2 := f2 ^^^ f9
  let f4 := f4 ^^^ f9
  let f8 := f8 ^^^ rot3 f2
  let f8 := f8 ^^^ rot2 f4
  f8 ^^^ rot1 f9

/-! ## The key -/

inductive Mode
  | mode128 | mode256
deriving DecidableEq, Repr

/-- `AES_CTX`. -/
@[ext]
structure Ctx where
  rounds : ℕ
  keySize : ℕ
  ks : ℕ → Word
  iv : ℕ → BitVec 8

/-- The word of an array in memory. -/
def wordAt (o : ByteOrder) (b : ℕ → BitVec 8) (i : ℕ) : Word :=
  o.word (b (4 * i)) (b (4 * i + 1)) (b (4 * i + 2)) (b (4 * i + 3))

/-- `Rcon`. -/
def rcon : List (BitVec 8) :=
  [0x01, 0x02, 0x04, 0x08, 0x10, 0x20, 0x40, 0x80, 0x1b, 0x36, 0x6c, 0xd8]

section Key

variable (tables : Tables)

/-- The substitution of a word that is rotated, too. -/
def rotSub (tmp : Word) : Word :=
  tables.sub tmp <<< 8 ||| tables.sub (tmp >>> 8) <<< 16 ||| tables.sub (tmp >>> 16) <<< 24 |||
    tables.sub (tmp >>> 24)

/-- The substitution of a word. -/
def subWord (tmp : Word) : Word :=
  tables.sub tmp ||| tables.sub (tmp >>> 8) <<< 8 ||| tables.sub (tmp >>> 16) <<< 16 |||
    tables.sub (tmp >>> 24) <<< 24

/-- The body of the loop of `AES_set_key`, for the words and the place in `Rcon`. -/
def expandWord (words : ℕ) (s : (ℕ → Word) × ℕ) (i : ℕ) : (ℕ → Word) × ℕ :=
  let ks := s.1
  let tmp := ks (i - 1)
  let (tmp, rtmp) :=
    if i % words = 0 then (rotSub tables tmp ^^^ ((rcon.getD s.2 0).setWidth 32 <<< 24), s.2 + 1)
    else (tmp, s.2)
  let tmp := if words = 8 ∧ i % words = 4 then subWord tables tmp else tmp
  (fun k => if k = i then ks (i - words) ^^^ tmp else ks k, rtmp)

/-- `AES_set_key`. -/
def setKey (o : ByteOrder) (ctx : Ctx) (key iv : ℕ → BitVec 8) (mode : Mode) : Ctx :=
  let (rounds, words) := match mode with
    | .mode128 => (10, 4)
    | .mode256 => (14, 8)
  let ks := match mode with
    | .mode128 => ctx.ks
    | .mode256 => fun k => if 4 ≤ k ∧ k < 8 then htonl o (wordAt o key k) else ctx.ks k
  let ks := fun k => if k < 4 then htonl o (wordAt o key k) else ks k
  let s := (List.range' words (4 * (rounds + 1) - words)).foldl (expandWord tables words) (ks, 0)
  { rounds := rounds
    keySize := words
    ks := s.1
    iv := fun k => if k < blockSize then iv k else ctx.iv k }

end Key

/-- `AES_convert_key`. -/
def convertKey (ctx : Ctx) : Ctx :=
  { ctx with ks := fun k => if 4 ≤ k ∧ k < 4 * ctx.rounds then invMixCol (ctx.ks k) else ctx.ks k }

/-! ## The cipher -/

section Cipher

variable (tables : Tables) (ctx : Ctx)

/-- A row of `tmp` in `AES_encrypt`. -/
def encryptRow (last : Bool) (data : Fin 4 → Word) (row : Fin 4) : Word :=
  let a0 := tables.sub (data row >>> 24)
  let a1 := tables.sub (data (row + 1) >>> 16)
  let a2 := tables.sub (data (row + 2) >>> 8)
  let a3 := tables.sub (data (row + 3))
  let (a0, a1, a2, a3) :=
    if last then (a0, a1, a2, a3)
    else
      let tmp1 := a0 ^^^ a1 ^^^ a2 ^^^ a3
      let oldA0 := a0
      let a0 := a0 ^^^ (tmp1 ^^^ xtime (a0 ^^^ a1))
      let a1 := a1 ^^^ (tmp1 ^^^ xtime (a1 ^^^ a2))
      let a2 := a2 ^^^ (tmp1 ^^^ xtime (a2 ^^^ a3))
      let a3 := a3 ^^^ (tmp1 ^^^ xtime (a3 ^^^ oldA0))
      (a0, a1, a2, a3)
  (a0 <<< 24) ||| (a1 <<< 16) ||| (a2 <<< 8) ||| a3

/-- `AES_encrypt`. -/
def encrypt (data : Fin 4 → Word) : Fin 4 → Word :=
  (List.range ctx.rounds).foldl
    (fun data currRnd row =>
      encryptRow tables (decide (¬currRnd < ctx.rounds - 1)) data row ^^^
        ctx.ks (4 * (currRnd + 1) + row))
    fun row => data row ^^^ ctx.ks row

/-- A row of `tmp` in `AES_decrypt`, from the last one on. -/
def decryptRow (last : Bool) (data : Fin 4 → Word) (row : Fin 4) : Word :=
  let a0 := tables.unsub (data row >>> 24)
  let a1 := tables.unsub (data (row + 3) >>> 16)
  let a2 := tables.unsub (data (row + 2) >>> 8)
  let a3 := tables.unsub (data (row + 1))
  if last then (a0 <<< 24) ||| (a1 <<< 16) ||| (a2 <<< 8) ||| a3
  else
    let xt0 := xtime (a0 ^^^ a1)
    let xt1 := xtime (a1 ^^^ a2)
    let xt2 := xtime (a2 ^^^ a3)
    let xt3 := xtime (a3 ^^^ a0)
    let xt4 := xtime (xt0 ^^^ xt1)
    let xt5 := xtime (xt1 ^^^ xt2)
    let xt6 := xtime (xt4 ^^^ xt5)
    let xt0 := xt0 ^^^ (a1 ^^^ a2 ^^^ a3 ^^^ xt4 ^^^ xt6)
    let xt1 := xt1 ^^^ (a0 ^^^ a2 ^^^ a3 ^^^ xt5 ^^^ xt6)
    let xt2 := xt2 ^^^ (a0 ^^^ a1 ^^^ a3 ^^^ xt4 ^^^ xt6)
    let xt3 := xt3 ^^^ (a0 ^^^ a1 ^^^ a2 ^^^ xt5 ^^^ xt6)
    (xt0 <<< 24) ||| (xt1 <<< 16) ||| (xt2 <<< 8) ||| xt3

/-- `AES_decrypt`: the key is gone through from its end. -/
def decrypt (data : Fin 4 → Word) : Fin 4 → Word :=
  (List.range ctx.rounds).foldl
    (fun data currRnd row =>
      decryptRow tables (decide (¬currRnd < ctx.rounds - 1)) data row ^^^
        ctx.ks (4 * (ctx.rounds - (currRnd + 1)) + row))
    fun row => data row ^^^ ctx.ks (4 * ctx.rounds + row)

end Cipher

/-! ## Chained blocks -/

/-- The memory, the context and the local variables. -/
@[ext]
structure Vars where
  mem : Word → BitVec 8
  ctx : Ctx
  msg : Word
  out : Word
  /-- `buf` of one function, `xor` of the other one. -/
  buf : Fin 4 → Word
  tin : Fin 4 → Word

section Cbc

variable (o : ByteOrder) (tables : Tables)

/-- `AES_hncpy32` from a buffer. -/
def loadWords (b : ℕ → BitVec 8) : Fin 4 → Word := fun i => htonl o (wordAt o b i)

/-- The bytes of four words that are stored, each through `htonl`. -/
def storedByte (v : Fin 4 → Word) (k : ℕ) : BitVec 8 :=
  o.byte (htonl o (v (Fin.ofNat 4 (k / 4)))) (k % 4)

/-- `AES_hncpy32` to a buffer. -/
def storeWords (mem : Word → BitVec 8) (p : Word) (v : Fin 4 → Word) : Word → BitVec 8 := fun a =>
  if (a - p).toNat < blockSize then storedByte o v (a - p).toNat else mem a

/-- The body of the loop of `AES_cbc_encrypt`. -/
def encryptBody (s : Vars) : Vars :=
  let msg := loadWords o fun k => s.mem (s.msg + BitVec.ofNat 32 k)
  let buf := encrypt tables s.ctx fun i => msg i ^^^ s.buf i
  { s with
    mem := storeWords o s.mem s.out buf
    buf := buf
    msg := s.msg + BitVec.ofNat 32 blockSize
    out := s.out + BitVec.ofNat 32 blockSize }

/-- The body of the loop of `AES_cbc_decrypt`, with `xor` as `buf`. -/
def decryptBody (s : Vars) : Vars :=
  let tin := loadWords o fun k => s.mem (s.msg + BitVec.ofNat 32 k)
  let buf := decrypt tables s.ctx tin
  { s with
    mem := storeWords o s.mem s.out fun i => buf i ^^^ s.buf i
    buf := tin
    tin := tin
    msg := s.msg + BitVec.ofNat 32 blockSize
    out := s.out + BitVec.ofNat 32 blockSize }

/-- `for (length -= AES_BLOCKSIZE; length >= 0; length -= AES_BLOCKSIZE)`. -/
def loop (body : Vars → Vars) (length : ℤ) (s : Vars) : Vars :=
  if 0 ≤ length - blockSize then loop body (length - blockSize) (body s) else s
termination_by length.toNat
decreasing_by
  have hsize : (blockSize : ℤ) = 16 := rfl
  omega

/-- The variables before the loop. `tin` gets a value in the loop. -/
def init (mem : Word → BitVec 8) (ctx : Ctx) (msg out : Word) : Vars :=
  { mem := mem
    ctx := ctx
    msg := msg
    out := out
    buf := loadWords o ctx.iv
    tin := fun _ => 0 }

/-- `AES_cbc_encrypt`, with the memory and the context that it leaves. -/
def cbcEncrypt (mem : Word → BitVec 8) (ctx : Ctx) (msg out : Word) (length : ℤ) :
    (Word → BitVec 8) × Ctx :=
  let s := loop (encryptBody o tables) length (init o mem ctx msg out)
  let out := s.out - BitVec.ofNat 32 blockSize
  (s.mem, { s.ctx with
    iv := fun k => if k < blockSize then s.mem (out + BitVec.ofNat 32 k) else s.ctx.iv k })

/-- `AES_cbc_decrypt`. -/
def cbcDecrypt (mem : Word → BitVec 8) (ctx : Ctx) (msg out : Word) (length : ℤ) :
    (Word → BitVec 8) × Ctx :=
  let s := loop (decryptBody o tables) length (init o mem ctx msg out)
  (s.mem, { s.ctx with
    iv := fun k => if k < blockSize then storedByte o s.tin k else s.ctx.iv k })

end Cbc

end HfRisc.Soft.AesLite
