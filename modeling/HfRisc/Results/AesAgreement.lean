import HfRisc.Results.AesLiteCbc

/-!
# The two implementations agree

One of them works on bytes with tables that are written out, the other one on words with tables that
it computes, a schedule of words and another order of the steps. With 128 bits of key they leave the
same message, on machines of both byte orders.
-/

namespace HfRisc.Soft.AesLite

open HfRisc.Lib (Apart Square word4)

attribute [local instance] Lib.Square.neZero

/-! ## The schedule -/

section Schedule

variable {key roundKey : ℕ → BitVec 8} {i n : ℕ}

/-- Four bytes of the round keys of the other implementation. -/
def wordOf (roundKey : ℕ → BitVec 8) (i : ℕ) : Word :=
  word4 (roundKey (4 * i)) (roundKey (4 * i + 1)) (roundKey (4 * i + 2)) (roundKey (4 * i + 3))

/-- The bytes of a word that is made of the one before. -/
def nextBytes (roundKey : ℕ → BitVec 8) (i : ℕ) : Fin 4 → BitVec 8 :=
  let tempa : Fin 4 → BitVec 8 := fun j => roundKey ((i - 1) * 4 + j)
  if i % 4 = 0 then AesTiny.rotSub (AesTiny.rcon.getD (i / 4) 0) tempa else tempa

variable (roundKey i) in
theorem expandWord_byte (k : ℕ) (j : Fin 4) : AesTiny.expandWord roundKey i (4 * k + j) =
    if k = i then roundKey (4 * (i - 4) + j) ^^^ nextBytes roundKey i j
    else roundKey (4 * k + j) := by
  have hdiv : (4 * k + (j : ℕ)) / 4 = k := by omega
  have hmod : (4 * k + (j : ℕ)) % 4 = j := by omega
  have hrow : Fin.ofNat 4 (4 * k + j) = j := Fin.ext hmod
  have hplace : (i - AesTiny.nk) * 4 + j = 4 * (i - 4) + j := by
    rw [AesTiny.nk, Nat.mul_comm]
  simp only [AesTiny.expandWord, hdiv, hmod, hrow, hplace]
  rfl

/-- Word after word. -/
theorem wordOf_expandWord (k : ℕ) : wordOf (AesTiny.expandWord roundKey i) k =
    if k = i then
      wordOf roundKey (i - 4) ^^^ word4 (nextBytes roundKey i 0) (nextBytes roundKey i 1)
        (nextBytes roundKey i 2) (nextBytes roundKey i 3)
    else wordOf roundKey k := by
  have h0 := expandWord_byte roundKey i k 0
  have h1 := expandWord_byte roundKey i k 1
  have h2 := expandWord_byte roundKey i k 2
  have h3 := expandWord_byte roundKey i k 3
  simp only [wordOf]
  split
  · next h =>
    rw [Lib.word4_xor]
    simp only [if_pos h] at h0 h1 h2 h3
    exact congr (congr (congr (congrArg word4 h0) h1) h2) h3
  · next h =>
    simp only [if_neg h] at h0 h1 h2 h3
    exact congr (congr (congr (congrArg word4 h0) h1) h2) h3

/-- The round constants are those of the other table from its second one on. -/
theorem rcon_getD : ∀ k < 10, rcon.getD k 0 = AesTiny.rcon.getD (k + 1) 0 := by
  decide

theorem rotSub_wordOf (rc : BitVec 8) :
    rotSub (generateSBox zeroed) (wordOf roundKey i) ^^^ (rc.setWidth 32 <<< 24) =
      word4 (AesTiny.getSBoxValue (roundKey (4 * i + 1)) ^^^ rc)
        (AesTiny.getSBoxValue (roundKey (4 * i + 2))) (AesTiny.getSBoxValue (roundKey (4 * i + 3)))
        (AesTiny.getSBoxValue (roundKey (4 * i))) := by
  have hsub : ∀ a b c d, (generateSBox zeroed).sub (word4 a b c d) =
      (AesTiny.getSBoxValue d).setWidth 32 := by
    intro a b c d
    rw [sub_word4, subByte_generated]
  rw [rotSub, wordOf, Lib.word4_shiftRight_8, Lib.word4_shiftRight_16, Lib.word4_shiftRight_24,
    hsub, hsub, hsub, hsub]
  simp only [Lib.setWidth_byte, Lib.word4_shiftLeft_8, Lib.word4_shiftLeft_16,
    Lib.word4_shiftLeft_24, Lib.word4_or, Lib.word4_xor, BitVec.ofNat_eq_ofNat, BitVec.or_zero,
    BitVec.zero_or, BitVec.xor_zero]

/-- A word of one schedule is made like a word of the other one. -/
theorem expandWord_wordOf {ks : ℕ → Word} (hi : 4 ≤ i) (hi' : i < 44)
    (h : ∀ k < i, ks k = wordOf roundKey k) :
    (∀ k < i + 1, (expandWord (generateSBox zeroed) 4 (ks, (i - 1) / 4) i).1 k =
        wordOf (AesTiny.expandWord roundKey i) k) ∧
      (expandWord (generateSBox zeroed) 4 (ks, (i - 1) / 4) i).2 = i / 4 := by
  have hfour : ¬(4 = 8 ∧ i % 4 = 4) := by omega
  have hnext : (if i % 4 = 0 then rotSub (generateSBox zeroed) (ks (i - 1)) ^^^
        ((rcon.getD ((i - 1) / 4) 0).setWidth 32 <<< 24) else ks (i - 1)) =
      word4 (nextBytes roundKey i 0) (nextBytes roundKey i 1) (nextBytes roundKey i 2)
        (nextBytes roundKey i 3) := by
    rw [h (i - 1) (by omega)]
    split
    · next hmod =>
      rw [rotSub_wordOf, rcon_getD _ (by omega), show (i - 1) / 4 + 1 = i / 4 by omega]
      simp only [nextBytes, if_pos hmod, Nat.mul_comm 4 (i - 1)]
      rfl
    · next hmod =>
      simp only [wordOf, nextBytes, if_neg hmod, Nat.mul_comm 4 (i - 1)]
      rfl
  have hword : (expandWord (generateSBox zeroed) 4 (ks, (i - 1) / 4) i).1 = fun k =>
      if k = i then ks (i - 4) ^^^ word4 (nextBytes roundKey i 0) (nextBytes roundKey i 1)
        (nextBytes roundKey i 2) (nextBytes roundKey i 3) else ks k := by
    rw [← hnext]
    by_cases hmod : i % 4 = 0
    · simp only [expandWord, if_pos hmod, if_neg hfour]
    · simp only [expandWord, if_neg hmod, if_neg hfour]
  constructor
  · intro k hk
    rw [hword, wordOf_expandWord, h (i - 4) (by omega)]
    dsimp only
    split
    · rfl
    · exact h k (by omega)
  · by_cases hmod : i % 4 = 0
    · simp only [expandWord, if_pos hmod]
      omega
    · simp only [expandWord, if_neg hmod]
      omega

/-- The words of one schedule have the bytes of the other one. -/
theorem ks_setKey (key roundKey : ℕ → BitVec 8) (o : ByteOrder) (ctx : Ctx) (iv : ℕ → BitVec 8) :
    ∀ i < 44, (setKey (generateSBox zeroed) o ctx key iv .mode128).ks i =
      wordOf (AesTiny.keyExpansion key roundKey) i := by
  suffices hwords : ∀ n ≤ 40, (∀ i < 4 + n,
      ((List.range' 4 n).foldl (expandWord (generateSBox zeroed) 4)
      (fun k => if k < 4 then htonl o (wordAt o key k) else ctx.ks k, 0)).1 i =
        wordOf ((List.range' 4 n).foldl AesTiny.expandWord
          fun k => if k < 16 then key k else roundKey k) i) ∧
      ((List.range' 4 n).foldl (expandWord (generateSBox zeroed) 4)
        (fun k => if k < 4 then htonl o (wordAt o key k) else ctx.ks k, 0)).2 = (4 + n - 1) / 4 by
    intro i hi
    rw [setKey_ks128]
    exact (hwords 40 le_rfl).1 i hi
  intro n
  induction n with
  | zero =>
    intro _
    refine ⟨fun i hi => ?_, rfl⟩
    rw [List.range'_zero, List.foldl_nil, List.foldl_nil]
    show (if i < 4 then _ else _) = _
    rw [if_pos (by omega), wordAt, htonl_word, wordOf, if_pos (by omega), if_pos (by omega),
      if_pos (by omega), if_pos (by omega)]
  | succ n ih =>
    intro hn
    obtain ⟨hks, hrcon⟩ := ih (Nat.le_of_succ_le hn)
    rw [List.range'_1_concat, List.foldl_append, List.foldl_append]
    generalize (List.range' 4 n).foldl (expandWord (generateSBox zeroed) 4) _ = s at hks hrcon ⊢
    obtain ⟨ks, r⟩ := s
    obtain rfl : r = (4 + n - 1) / 4 := hrcon
    have hstep := expandWord_wordOf (Nat.le_add_right 4 n) (by omega) hks
    exact ⟨hstep.1, hstep.2.trans (by omega)⟩

end Schedule

/-! ## The cipher -/

theorem keyBlock_eq (o : ByteOrder) (ctx : Ctx) (key iv : ℕ → BitVec 8) {round : ℕ}
    (hround : round ≤ 10) :
    keyBlock (setKey (generateSBox zeroed) o ctx key iv .mode128) round =
      AesTiny.roundKeys key round := by
  have hcolumn : (fun i : Fin 4 =>
      (setKey (generateSBox zeroed) o ctx key iv .mode128).ks (4 * round + i)) =
      ofBlock (AesTiny.roundKeys key round) := by
    funext i
    have hplace : ∀ j : ℕ, round * AesTiny.nb * 4 + i * AesTiny.nb + j =
        4 * (4 * round + (i : ℕ)) + j := by
      intro j
      simp only [AesTiny.nb]
      omega
    rw [ks_setKey key (fun _ => 0) o ctx iv _ (by omega)]
    simp only [wordOf, ofBlock, AesTiny.roundKeys, AesTiny.keyBlock, hplace]
    rfl
  rw [keyBlock, hcolumn, columns_ofBlock]

theorem encryptWith_eq (o : ByteOrder) (ctx : Ctx) (key iv : ℕ → BitVec 8) :
    encryptWith (generateSBox zeroed) (setKey (generateSBox zeroed) o ctx key iv .mode128) =
      AesTiny.encryptWith key := by
  funext s
  rw [encryptWith, subByte_generated]
  exact Square.encrypt_congr s fun r hr => keyBlock_eq o ctx key iv hr

theorem decryptWith_eq (o : ByteOrder) (ctx : Ctx) (key iv : ℕ → BitVec 8) (s : Square) :
    s.decrypt (unsubByte (generateSBox zeroed))
      (keyBlock (setKey (generateSBox zeroed) o ctx key iv .mode128)) 9 =
      AesTiny.decryptWith key s := by
  rw [unsubByte_generated]
  exact Square.decrypt_congr s fun r hr => keyBlock_eq o ctx key iv hr

end HfRisc.Soft.AesLite

namespace HfRisc.Results

open HfRisc.Lib (Apart Square)
open HfRisc.Soft

/-- For every key, vector and message of whole blocks, every state of the static variables of one
program and every context and byte order of the other one: both encrypt the message to the same
bytes, and where the buffers are apart, both decrypt it to the same bytes. -/
theorem aes_implementations_agree (o : ByteOrder) (m : AesTiny.Memory) (ctx : AesLite.Ctx)
    (input output length key iv : Word) (n fuel : ℕ) (hlen : length.toNat = 16 * n) (hpos : 0 < n)
    (hint : length.toNat < 2 ^ 31) (hfuel : n < fuel) (hkey : key ≠ 0) (hiv : iv ≠ 0)
    (hplace : output = input ∨ Apart output length.toNat input length.toNat)
    (hkeyOut : Apart output length.toNat key 16) (hivOut : Apart output length.toNat iv 16)
    (hivIn : Apart input length.toNat iv 16) :
    let tables := AesLite.generateSBox AesLite.zeroed
    let ctx := AesLite.setKey tables o ctx (AesTiny.keyAt m.mem key) (AesTiny.keyAt m.mem iv)
      .mode128
    (∃ m', AesTiny.cbcEncrypt fuel m output input length key iv = some m' ∧
      ∀ i < length.toNat, m'.mem (output + BitVec.ofNat 32 i) =
        (AesLite.cbcEncrypt o tables m.mem ctx input output length.toInt).1
          (output + BitVec.ofNat 32 i)) ∧
    (Apart output length.toNat input length.toNat →
      ∃ m', AesTiny.cbcDecrypt fuel m output input length key iv = some m' ∧
        ∀ i < length.toNat, m'.mem (output + BitVec.ofNat 32 i) =
          (AesLite.cbcDecrypt o tables m.mem (AesLite.convertKey ctx) input output
            length.toInt).1 (output + BitVec.ofNat 32 i)) := by
  intro tables ctx'
  have hn : (length.toInt / 16).toNat = n := by
    rw [BitVec.toInt_eq_toNat_of_lt (by omega)]
    omega
  rw [hlen] at hplace hkeyOut hivOut hivIn ⊢
  have hcall : AesTiny.Cbc.Call output input key iv n :=
    ⟨by omega, hpos, hkey, hiv, hkeyOut, hivOut, hivIn⟩
  have hrounds : ctx'.rounds = 9 + 1 := AesLite.rounds_setKey tables o ctx _ _ .mode128
  have hvector : Square.layout.read ctx'.iv = Square.layout.load m.mem iv :=
    Square.layout.read_congr fun k hk => AesLite.iv_setKey tables o ctx _ _ .mode128 hk
  constructor
  · refine ⟨_, AesTiny.Cbc.cbcEncrypt_eq hlen hfuel, fun i hi => ?_⟩
    have htiny := hcall.encrypted (m := m) hplace
    have hlite := (AesLite.running_encrypt o tables m.mem
      (show 0 < ctx'.rounds by omega) hcall.le hplace le_rfl).walked
    rw [AesLite.encryptWith_eq, hvector] at hlite
    rw [AesLite.cbcEncrypt_eq hn]
    exact Lib.byte_of_blocks (fun t ht => (htiny.written t ht).trans (hlite.written t ht).symm) hi
  · intro happart
    refine ⟨_, AesTiny.Cbc.cbcDecrypt_eq hlen hfuel, fun i hi => ?_⟩
    have htiny := hcall.decrypted (m := m) happart
    have hlite := (AesLite.running_decrypt o m.mem
      (AesLite.decrypt_convertKey tables hrounds) hcall.le hplace le_rfl).walked
    have hconverted : Square.layout.read (AesLite.convertKey ctx').iv = _ := hvector
    rw [hconverted, funext (AesLite.decryptWith_eq o ctx _ _)] at hlite
    rw [AesLite.cbcDecrypt_eq hn]
    exact Lib.byte_of_blocks (fun t ht => (htiny.written t ht).trans (hlite.written t ht).symm) hi

theorem aes_implementations_agree_page :
    let m : AesTiny.Memory := .mk (BitVec.setWidth 8) 0 0
    let tables := AesLite.generateSBox AesLite.zeroed
    let ctx := AesLite.setKey tables .little ⟨0, 0, 0, 0⟩ (AesTiny.keyAt m.mem 0x40003000)
      (AesTiny.keyAt m.mem 0x40003010) .mode128
    (∃ m', AesTiny.cbcEncrypt 5 m 0x40002000 0x40001000 64 0x40003000 0x40003010 = some m' ∧
      ∀ i < (64 : Word).toNat, m'.mem (0x40002000 + BitVec.ofNat 32 i) =
        (AesLite.cbcEncrypt .little tables m.mem ctx 0x40001000 0x40002000
          (64 : Word).toInt).1 (0x40002000 + BitVec.ofNat 32 i)) ∧
    ∃ m', AesTiny.cbcDecrypt 5 m 0x40002000 0x40001000 64 0x40003000 0x40003010 = some m' ∧
      ∀ i < (64 : Word).toNat, m'.mem (0x40002000 + BitVec.ofNat 32 i) =
        (AesLite.cbcDecrypt .little tables m.mem (AesLite.convertKey ctx) 0x40001000 0x40002000
          (64 : Word).toInt).1 (0x40002000 + BitVec.ofNat 32 i) := by
  intro m tables ctx
  have happart : Apart (0x40002000 : Word) (64 : Word).toNat 0x40001000 (64 : Word).toNat :=
    (Lib.apart_of_le (by decide) (by decide)).symm
  obtain ⟨hencrypt, hdecrypt⟩ := aes_implementations_agree .little m ⟨0, 0, 0, 0⟩ 0x40001000
    0x40002000 64 0x40003000 0x40003010 4 5 rfl (by decide) (by decide) (by decide) (by decide)
    (by decide) (.inr happart) (Lib.apart_of_le (by decide) (by decide))
    (Lib.apart_of_le (by decide) (by decide)) (Lib.apart_of_le (by decide) (by decide))
  exact ⟨hencrypt, hdecrypt happart⟩

end HfRisc.Results
