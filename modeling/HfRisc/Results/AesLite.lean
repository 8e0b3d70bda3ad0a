import HfRisc.Lib.WordBytes
import HfRisc.Results.AesTinyCbc
import HfRisc.Soft.AesLite

/-!
# The two implementations of AES

The words of `aes_lite/aes.c` are columns of the block cipher. Its tables are those of
`aes_tiny/aes.c`, its decryption does the steps in the order of the encryption with converted round
keys, and with 128 bits of key both programs leave the same bytes.
-/

namespace HfRisc.Soft.AesLite

open HfRisc.Lib (Square mixByte timesE timesB timesD times9 unmixByte word4 xtime_xor)

attribute [local instance] Lib.Square.neZero

/-! ## Words and columns -/

section Columns

variable (v : Fin 4 → Word) (s k : Square) (i : Fin 4)

/-- The bytes of four words. -/
def columns : Square := fun i j => (v i).extractLsb' (24 - 8 * j) 8

/-- The words of a block. -/
def ofBlock : Fin 4 → Word := fun i => word4 (s i 0) (s i 1) (s i 2) (s i 3)

theorem ofBlock_columns : ofBlock (columns v) = v := by
  funext i
  exact Lib.word4_bytes (v i)

theorem columns_ofBlock : columns (ofBlock s) = s := by
  funext i j
  show (word4 (s i 0) (s i 1) (s i 2) (s i 3)).extractLsb' (24 - 8 * j) 8 = s i j
  fin_cases j
  · exact Lib.byte3 ..
  · exact Lib.byte2 ..
  · exact Lib.byte1 ..
  · exact Lib.byte0 ..

theorem ofBlock_xor : ofBlock s i ^^^ ofBlock k i = ofBlock (s.addKey k) i := Lib.word4_xor ..

end Columns

/-! ## The tables -/

theorem generateSBox_zeroed : generateSBox zeroed = ⟨AesTiny.sbox, AesTiny.rsbox⟩ := by
  decide +kernel

section Tables

variable (tables : Tables) (a b c d : BitVec 8)

/-- What a table does with a byte. -/
def subByte : BitVec 8 := tables.sbox.getD a.toNat 0

def unsubByte : BitVec 8 := tables.isbox.getD a.toNat 0

theorem sub_word4 : tables.sub (word4 a b c d) = (subByte tables d).setWidth 32 := by
  have hindex : (word4 a b c d &&& 0xff).toNat = d.toNat := by
    rw [Lib.word4_low, BitVec.toNat_setWidth, Nat.mod_eq_of_lt (by omega)]
  rw [Tables.sub, hindex, subByte]

theorem unsub_word4 : tables.unsub (word4 a b c d) = (unsubByte tables d).setWidth 32 := by
  have hindex : (word4 a b c d &&& 0xff).toNat = d.toNat := by
    rw [Lib.word4_low, BitVec.toNat_setWidth, Nat.mod_eq_of_lt (by omega)]
  rw [Tables.unsub, hindex, unsubByte]

end Tables

/-! ## Rows -/

theorem xtime_byte : ∀ a : BitVec 8, xtime (a.setWidth 32) = (Lib.xtime a).setWidth 32 := by
  decide +kernel

section Rows

variable (tables : Tables) (s : Square) (row : Fin 4)

/-- The four bytes of a row. -/
theorem sub_row : tables.sub (ofBlock s row >>> 24) = (subByte tables (s row 0)).setWidth 32 ∧
    tables.sub (ofBlock s row >>> 16) = (subByte tables (s row 1)).setWidth 32 ∧
    tables.sub (ofBlock s row >>> 8) = (subByte tables (s row 2)).setWidth 32 ∧
    tables.sub (ofBlock s row) = (subByte tables (s row 3)).setWidth 32 := by
  rw [ofBlock, Lib.word4_shiftRight_24, Lib.word4_shiftRight_16, Lib.word4_shiftRight_8, sub_word4,
    sub_word4, sub_word4, sub_word4]
  exact ⟨rfl, rfl, rfl, rfl⟩

theorem unsub_row :
    tables.unsub (ofBlock s row >>> 24) = (unsubByte tables (s row 0)).setWidth 32 ∧
    tables.unsub (ofBlock s row >>> 16) = (unsubByte tables (s row 1)).setWidth 32 ∧
    tables.unsub (ofBlock s row >>> 8) = (unsubByte tables (s row 2)).setWidth 32 ∧
    tables.unsub (ofBlock s row) = (unsubByte tables (s row 3)).setWidth 32 := by
  rw [ofBlock, Lib.word4_shiftRight_24, Lib.word4_shiftRight_16, Lib.word4_shiftRight_8,
    unsub_word4, unsub_word4, unsub_word4, unsub_word4]
  exact ⟨rfl, rfl, rfl, rfl⟩

/-- The row before is the third one behind. -/
theorem sub_eq_add : ∀ row : Fin 4, row - 1 = row + 3 ∧ row - 2 = row + 2 ∧ row - 3 = row + 1 := by
  decide

/-- The columns of a product. -/
theorem ofBlock_mixColumns : ofBlock s.mixColumns row =
    word4 (mixByte (s row 0) (s row 1) (s row 2) (s row 3))
      (mixByte (s row 1) (s row 2) (s row 3) (s row 0))
      (mixByte (s row 2) (s row 3) (s row 0) (s row 1))
      (mixByte (s row 3) (s row 0) (s row 1) (s row 2)) := rfl

theorem ofBlock_unmixColumns : ofBlock s.unmixColumns row =
    word4 (unmixByte (s row 0) (s row 1) (s row 2) (s row 3))
      (unmixByte (s row 1) (s row 2) (s row 3) (s row 0))
      (unmixByte (s row 2) (s row 3) (s row 0) (s row 1))
      (unmixByte (s row 3) (s row 0) (s row 1) (s row 2)) := rfl

theorem encryptRow_last :
    encryptRow tables true (ofBlock s) row =
      ofBlock (s.subBytes (subByte tables)).shiftRows row := by
  obtain ⟨h0, -, -, -⟩ := sub_row tables s row
  obtain ⟨-, h1, -, -⟩ := sub_row tables s (row + 1)
  obtain ⟨-, -, h2, -⟩ := sub_row tables s (row + 2)
  obtain ⟨-, -, -, h3⟩ := sub_row tables s (row + 3)
  simp only [encryptRow, h0, h1, h2, h3, if_true, Lib.or_bytes]
  simp only [ofBlock, Square.shiftRows, Square.subBytes, add_zero]

/-- The product of a column, as the program computes it. -/
theorem mix_bytes (a b c d : BitVec 8) :
    a ^^^ (a ^^^ b ^^^ c ^^^ d ^^^ Lib.xtime (a ^^^ b)) = mixByte a b c d ∧
      b ^^^ (a ^^^ b ^^^ c ^^^ d ^^^ Lib.xtime (b ^^^ c)) = mixByte b c d a ∧
      c ^^^ (a ^^^ b ^^^ c ^^^ d ^^^ Lib.xtime (c ^^^ d)) = mixByte c d a b ∧
      d ^^^ (a ^^^ b ^^^ c ^^^ d ^^^ Lib.xtime (d ^^^ a)) = mixByte d a b c := by
  simp only [mixByte]
  refine ⟨?_, ?_, ?_, ?_⟩ <;> ac_rfl

theorem encryptRow_mix :
    encryptRow tables false (ofBlock s) row =
      ofBlock (s.subBytes (subByte tables)).shiftRows.mixColumns row := by
  obtain ⟨h0, -, -, -⟩ := sub_row tables s row
  obtain ⟨-, h1, -, -⟩ := sub_row tables s (row + 1)
  obtain ⟨-, -, h2, -⟩ := sub_row tables s (row + 2)
  obtain ⟨-, -, -, h3⟩ := sub_row tables s (row + 3)
  simp only [encryptRow, h0, h1, h2, h3, Bool.false_eq_true, if_false, ← BitVec.setWidth_xor,
    xtime_byte, Lib.or_bytes]
  obtain ⟨m0, m1, m2, m3⟩ := mix_bytes (subByte tables (s row 0)) (subByte tables (s (row + 1) 1))
    (subByte tables (s (row + 2) 2)) (subByte tables (s (row + 3) 3))
  rw [m0, m1, m2, m3, ofBlock_mixColumns]
  simp only [Square.shiftRows, Square.subBytes, add_zero]

theorem decryptRow_last :
    decryptRow tables true (ofBlock s) row =
      ofBlock (s.subBytes (unsubByte tables)).unshiftRows row := by
  obtain ⟨h0, -, -, -⟩ := unsub_row tables s row
  obtain ⟨-, h1, -, -⟩ := unsub_row tables s (row + 3)
  obtain ⟨-, -, h2, -⟩ := unsub_row tables s (row + 2)
  obtain ⟨-, -, -, h3⟩ := unsub_row tables s (row + 1)
  obtain ⟨e1, e2, e3⟩ := sub_eq_add row
  simp only [decryptRow, h0, h1, h2, h3, if_true, Lib.or_bytes]
  simp only [ofBlock, Square.unshiftRows, Square.subBytes, sub_zero, e1, e2, e3]

/-- The product with the inverse, as the program computes it. -/
theorem unmix_bytes (a b c d : BitVec 8) :
    let xt0 := Lib.xtime (a ^^^ b)
    let xt1 := Lib.xtime (b ^^^ c)
    let xt2 := Lib.xtime (c ^^^ d)
    let xt3 := Lib.xtime (d ^^^ a)
    let xt4 := Lib.xtime (xt0 ^^^ xt1)
    let xt5 := Lib.xtime (xt1 ^^^ xt2)
    let xt6 := Lib.xtime (xt4 ^^^ xt5)
    xt0 ^^^ (b ^^^ c ^^^ d ^^^ xt4 ^^^ xt6) = unmixByte a b c d ∧
      xt1 ^^^ (a ^^^ c ^^^ d ^^^ xt5 ^^^ xt6) = unmixByte b c d a ∧
      xt2 ^^^ (a ^^^ b ^^^ d ^^^ xt4 ^^^ xt6) = unmixByte c d a b ∧
      xt3 ^^^ (a ^^^ b ^^^ c ^^^ xt5 ^^^ xt6) = unmixByte d a b c := by
  simp only [unmixByte, timesE, timesB, timesD, times9, xtime_xor]
  refine ⟨?_, ?_, ?_, ?_⟩ <;>
    simp only [BitVec.xor_assoc, BitVec.xor_comm, Lib.xor_rotate, Lib.xor_xor_self]

theorem decryptRow_mix :
    decryptRow tables false (ofBlock s) row =
      ofBlock (s.subBytes (unsubByte tables)).unshiftRows.unmixColumns row := by
  obtain ⟨h0, -, -, -⟩ := unsub_row tables s row
  obtain ⟨-, h1, -, -⟩ := unsub_row tables s (row + 3)
  obtain ⟨-, -, h2, -⟩ := unsub_row tables s (row + 2)
  obtain ⟨-, -, -, h3⟩ := unsub_row tables s (row + 1)
  obtain ⟨e1, e2, e3⟩ := sub_eq_add row
  simp only [decryptRow, h0, h1, h2, h3, Bool.false_eq_true, if_false, ← BitVec.setWidth_xor,
    xtime_byte, Lib.or_bytes]
  obtain ⟨m0, m1, m2, m3⟩ := unmix_bytes (unsubByte tables (s row 0))
    (unsubByte tables (s (row + 3) 1)) (unsubByte tables (s (row + 2) 2))
    (unsubByte tables (s (row + 1) 3))
  rw [m0, m1, m2, m3, ofBlock_unmixColumns]
  simp only [Square.unshiftRows, Square.subBytes, sub_zero, e1, e2, e3]

end Rows

/-! ## The cipher -/

section Cipher

variable (tables : Tables) {ctx : Ctx} (s : Square) {n : ℕ}

/-- The round keys as blocks. -/
def keyBlock (ctx : Ctx) (round : ℕ) : Square := columns fun i => ctx.ks (4 * round + i)

theorem xor_key (round : ℕ) (i : Fin 4) :
    ofBlock s i ^^^ ctx.ks (4 * round + i) = ofBlock (s.addKey (keyBlock ctx round)) i := by
  rw [← ofBlock_xor, keyBlock, ofBlock_columns]

/-- The loop of `AES_encrypt`, up to the last round. -/
theorem foldl_rounds (hrounds : ctx.rounds = n + 1) {m : ℕ} (hm : m ≤ n) :
    (List.range m).foldl
        (fun data currRnd row =>
          encryptRow tables (decide (¬currRnd < ctx.rounds - 1)) data row ^^^
            ctx.ks (4 * (currRnd + 1) + row))
        (ofBlock (s.addKey (keyBlock ctx 0))) =
      ofBlock (s.rounds (subByte tables) (keyBlock ctx) m) := by
  induction m with
  | zero => rfl
  | succ m ih =>
    rw [List.range_succ, List.foldl_append, ih (Nat.le_of_succ_le hm), List.foldl_cons,
      List.foldl_nil, Square.rounds]
    funext row
    rw [decide_eq_false (not_not.mpr (by omega)), encryptRow_mix, xor_key]

theorem encrypt_eq (hrounds : ctx.rounds = n + 1) :
    encrypt tables ctx (ofBlock s) = ofBlock (s.encrypt (subByte tables) (keyBlock ctx) n) := by
  have hfirst : (fun row : Fin 4 => ofBlock s row ^^^ ctx.ks row) =
      ofBlock (s.addKey (keyBlock ctx 0)) := by
    funext row
    rw [← xor_key, Nat.mul_zero, Nat.zero_add]
  rw [encrypt, hfirst, hrounds, List.range_succ, List.foldl_append, ← hrounds,
    foldl_rounds tables s hrounds le_rfl, List.foldl_cons, List.foldl_nil, Square.encrypt]
  funext row
  rw [decide_eq_true (by omega), encryptRow_last, xor_key]

/-- The loop of `AES_decrypt`: after `m` rounds there are `n - m` before the last one. -/
theorem foldl_backwards (hrounds : ctx.rounds = n + 1) {m : ℕ} (hm : m ≤ n) :
    ((List.range' m (n - m)).foldl
        (fun data currRnd row =>
          decryptRow tables (decide (¬currRnd < ctx.rounds - 1)) data row ^^^
            ctx.ks (4 * (ctx.rounds - (currRnd + 1)) + row))
        (ofBlock s) |> fun data row => decryptRow tables true data row ^^^ ctx.ks row) =
      ofBlock (Square.backwards (unsubByte tables) (keyBlock ctx) (n - m) s) := by
  obtain ⟨k, rfl⟩ := Nat.exists_eq_add_of_le hm
  rw [Nat.add_sub_cancel_left]
  clear hm
  induction k generalizing m s with
  | zero =>
    rw [List.range'_zero, List.foldl_nil, Square.backwards]
    funext row
    rw [← xor_key, ← decryptRow_last, Nat.mul_zero, Nat.zero_add]
  | succ k ih =>
    have hbody : (fun row : Fin 4 =>
        decryptRow tables (decide (¬m < ctx.rounds - 1)) (ofBlock s) row ^^^
          ctx.ks (4 * (ctx.rounds - (m + 1)) + row)) =
        ofBlock ((s.subBytes (unsubByte tables)).unshiftRows.unmixColumns.addKey
          (keyBlock ctx (k + 1))) := by
      funext row
      rw [decide_eq_false (not_not.mpr (by omega)), decryptRow_mix, ← xor_key,
        show ctx.rounds - (m + 1) = k + 1 by omega]
    rw [List.range'_succ, List.foldl_cons, hbody, Square.backwards]
    exact ih _ (by omega)

theorem decrypt_eq (hrounds : ctx.rounds = n + 1) :
    decrypt tables ctx (ofBlock s) = ofBlock (Square.backwards (unsubByte tables) (keyBlock ctx) n
      (s.addKey (keyBlock ctx (n + 1)))) := by
  have hfirst : (fun row : Fin 4 => ofBlock s row ^^^ ctx.ks (4 * ctx.rounds + row)) =
      ofBlock (s.addKey (keyBlock ctx (n + 1))) := by
    funext row
    rw [← xor_key, hrounds]
  have hback := foldl_backwards tables (s.addKey (keyBlock ctx (n + 1))) hrounds (Nat.zero_le n)
  rw [Nat.sub_zero, ← List.range_eq_range'] at hback
  rw [decrypt, hfirst, hrounds, List.range_succ, List.foldl_append, ← hback, ← hrounds,
    List.foldl_cons, List.foldl_nil]
  funext row
  rw [decide_eq_true (by omega), show ctx.rounds - (n + 1) = 0 by omega, Nat.mul_zero, Nat.zero_add]

end Cipher

/-! ## The converted key -/

theorem mul2_word4 (a b c d : BitVec 8) :
    mul2 (word4 a b c d) = word4 (Lib.xtime a) (Lib.xtime b) (Lib.xtime c) (Lib.xtime d) :=
  Lib.word4_xtime a b c d

section Rotations

variable (a b c d : BitVec 8)

theorem rot1_word4 : rot1 (word4 a b c d) = word4 d a b c := by
  rw [rot1, Lib.word4_shiftLeft_24, Lib.word4_shiftRight_8, Lib.word4_or]
  simp only [BitVec.ofNat_eq_ofNat, BitVec.or_zero, BitVec.zero_or]

theorem rot2_word4 : rot2 (word4 a b c d) = word4 c d a b := by
  rw [rot2, Lib.word4_shiftLeft_16, Lib.word4_shiftRight_16, Lib.word4_or]
  simp only [BitVec.ofNat_eq_ofNat, BitVec.or_zero, BitVec.zero_or]

theorem rot3_word4 : rot3 (word4 a b c d) = word4 b c d a := by
  rw [rot3, Lib.word4_shiftLeft_8, Lib.word4_shiftRight_24, Lib.word4_or]
  simp only [BitVec.ofNat_eq_ofNat, BitVec.or_zero, BitVec.zero_or]

/-- `inv_mix_col` multiplies a column. -/
theorem invMixCol_word4 : invMixCol (word4 a b c d) =
    word4 (unmixByte a b c d) (unmixByte b c d a) (unmixByte c d a b) (unmixByte d a b c) := by
  simp only [invMixCol, mul2_word4, Lib.word4_xor, rot1_word4, rot2_word4, rot3_word4, unmixByte,
    timesE, timesB, timesD, times9]
  congr 1 <;> ac_rfl

end Rotations

theorem keyBlock_convertKey {ctx : Ctx} {round : ℕ} (hpos : 0 < round)
    (hround : round < ctx.rounds) :
    keyBlock (convertKey ctx) round = (keyBlock ctx round).unmixColumns := by
  have hcolumn : ∀ i : Fin 4, (convertKey ctx).ks (4 * round + i) =
      ofBlock (keyBlock ctx round).unmixColumns i := by
    intro i
    have hword : ctx.ks (4 * round + i) = ofBlock (keyBlock ctx round) i := by
      rw [keyBlock, ofBlock_columns]
    rw [convertKey, ofBlock_unmixColumns, ← invMixCol_word4]
    show (if 4 ≤ 4 * round + (i : ℕ) ∧ 4 * round + (i : ℕ) < 4 * ctx.rounds then _ else _) = _
    rw [if_pos (by omega)]
    exact congrArg invMixCol hword
  rw [keyBlock, funext hcolumn, columns_ofBlock]

theorem keyBlock_convertKey_end {ctx : Ctx} {round : ℕ} (h : round = 0 ∨ ctx.rounds ≤ round) :
    keyBlock (convertKey ctx) round = keyBlock ctx round := by
  have hcolumn : ∀ i : Fin 4, (convertKey ctx).ks (4 * round + i) = ctx.ks (4 * round + i) := by
    intro i
    show (if 4 ≤ 4 * round + (i : ℕ) ∧ 4 * round + (i : ℕ) < 4 * ctx.rounds then _ else _) = _
    rw [if_neg (by omega)]
  rw [keyBlock, keyBlock, funext hcolumn]

/-- With the converted key, the steps in the order of the cipher undo it. -/
theorem decrypt_convertKey (tables : Tables) {ctx : Ctx} {n : ℕ} (hrounds : ctx.rounds = n + 1)
    (s : Square) : decrypt tables (convertKey ctx) (ofBlock s) =
      ofBlock (s.decrypt (unsubByte tables) (keyBlock ctx) n) := by
  rw [decrypt_eq tables s (show (convertKey ctx).rounds = n + 1 from hrounds),
    keyBlock_convertKey_end (.inr (Nat.le_of_eq hrounds)), Square.backwards_eq _ s]
  · exact keyBlock_convertKey_end (.inl rfl)
  · intro r hpos hle
    exact keyBlock_convertKey hpos (by omega)

end HfRisc.Soft.AesLite
