import HfRisc.Soft.AesTiny

/-!
# AES-128 is undone

The steps of `aes_tiny/aes.c` are the steps of the block cipher, so its two functions undo each
other whatever the round keys are. The round keys of the two calls are the same because every byte
of them is written before it is read, so none is left from the call before.
-/

namespace HfRisc.Soft.AesTiny

open HfRisc.Lib (Apart Square timesE timesB timesD times9)

/-! ## The steps -/

theorem getSBoxInvert_getSBoxValue : ∀ b, getSBoxInvert (getSBoxValue b) = b := by
  decide +kernel

theorem xtime_eq : ∀ x, xtime x = Lib.xtime x := by
  decide +kernel

theorem shiftRows_eq (s : Square) : shiftRows s = s.shiftRows := by
  funext i j
  fin_cases i <;> fin_cases j <;> rfl

theorem invShiftRows_eq (s : Square) : invShiftRows s = s.unshiftRows := by
  funext i j
  fin_cases i <;> fin_cases j <;> rfl

theorem mixColumns_eq (s : Square) : mixColumns s = s.mixColumns := by
  funext i j
  simp only [mixColumns, mixColumn, Square.mixColumns, Lib.mixByte, xtime_eq]
  fin_cases j
  · exact (BitVec.xor_assoc _ _ _).symm
  · refine (BitVec.xor_assoc _ _ _).symm.trans (congrArg _ ?_)
    show s i 0 ^^^ s i 1 ^^^ s i 2 ^^^ s i 3 = s i 1 ^^^ s i 2 ^^^ s i 3 ^^^ s i 0
    ac_rfl
  · refine (BitVec.xor_assoc _ _ _).symm.trans (congrArg _ ?_)
    show s i 0 ^^^ s i 1 ^^^ s i 2 ^^^ s i 3 = s i 2 ^^^ s i 3 ^^^ s i 0 ^^^ s i 1
    ac_rfl
  · refine (BitVec.xor_assoc _ _ _).symm.trans (congrArg _ ?_)
    show s i 0 ^^^ s i 1 ^^^ s i 2 ^^^ s i 3 = s i 3 ^^^ s i 0 ^^^ s i 1 ^^^ s i 2
    ac_rfl

theorem multiply_eq (x : BitVec 8) :
    multiply x 0x0e = timesE x ∧ multiply x 0x0b = timesB x ∧ multiply x 0x0d = timesD x ∧
      multiply x 0x09 = times9 x := by
  simp [multiply, timesE, timesB, timesD, times9, xtime_eq]

theorem invMixColumns_eq (s : Square) : invMixColumns s = s.unmixColumns := by
  funext i j
  obtain ⟨hE, hB, hD, h9⟩ : (∀ x, multiply x 0x0e = timesE x) ∧ (∀ x, multiply x 0x0b = timesB x) ∧
      (∀ x, multiply x 0x0d = timesD x) ∧ ∀ x, multiply x 0x09 = times9 x :=
    ⟨fun x => (multiply_eq x).1, fun x => (multiply_eq x).2.1, fun x => (multiply_eq x).2.2.1,
      fun x => (multiply_eq x).2.2.2⟩
  simp only [invMixColumns, invMixColumn, Square.unmixColumns, Lib.unmixByte, hE, hB, hD, h9]
  fin_cases j
  · rfl
  · show times9 (s i 0) ^^^ timesE (s i 1) ^^^ timesB (s i 2) ^^^ timesD (s i 3) =
      timesE (s i 1) ^^^ timesB (s i 2) ^^^ timesD (s i 3) ^^^ times9 (s i 0)
    ac_rfl
  · show timesD (s i 0) ^^^ times9 (s i 1) ^^^ timesE (s i 2) ^^^ timesB (s i 3) =
      timesE (s i 2) ^^^ timesB (s i 3) ^^^ timesD (s i 0) ^^^ times9 (s i 1)
    ac_rfl
  · show timesB (s i 0) ^^^ timesD (s i 1) ^^^ times9 (s i 2) ^^^ timesE (s i 3) =
      timesE (s i 3) ^^^ timesB (s i 0) ^^^ timesD (s i 1) ^^^ times9 (s i 2)
    ac_rfl

/-! ## The cipher -/

variable {roundKey : ℕ → BitVec 8}

/-- The round keys as blocks. -/
def keyBlock (roundKey : ℕ → BitVec 8) (round : ℕ) : Square := fun i j =>
  roundKey (round * nb * 4 + i * nb + j)

/-- The loop of `Cipher`. -/
theorem foldl_rounds (s : Square) (n : ℕ) :
    (List.range' 1 n).foldl (fun state round =>
        addRoundKey roundKey round (mixColumns (shiftRows (subBytes state))))
      (addRoundKey roundKey 0 s) = s.rounds getSBoxValue (keyBlock roundKey) n := by
  induction n with
  | zero => rfl
  | succ n ih =>
    rw [List.range'_1_concat, List.foldl_append, ih, Square.rounds, List.foldl_cons, List.foldl_nil,
      shiftRows_eq, mixColumns_eq, Nat.add_comm 1 n]
    rfl

theorem cipher_eq (s : Square) :
    cipher roundKey s = s.encrypt getSBoxValue (keyBlock roundKey) 9 := by
  rw [cipher, Square.encrypt, ← foldl_rounds, shiftRows_eq]
  rfl

/-- The loop of `InvCipher`, with what is behind it. -/
theorem foldl_unrounds (s : Square) (n : ℕ) :
    addRoundKey roundKey 0 (invSubBytes (invShiftRows ((List.range' 1 n).reverse.foldl
      (fun state round => invMixColumns (addRoundKey roundKey round
        (invSubBytes (invShiftRows state)))) s))) =
      Square.unrounds getSBoxInvert (keyBlock roundKey) n
        (s.unshiftRows.subBytes getSBoxInvert) := by
  induction n generalizing s with
  | zero =>
    rw [List.range'_zero, List.reverse_nil, List.foldl_nil, invShiftRows_eq]
    rfl
  | succ n ih =>
    rw [List.range'_1_concat, List.reverse_append, List.reverse_singleton, List.singleton_append,
      List.foldl_cons, ih, Square.unrounds, invMixColumns_eq, invShiftRows_eq, Nat.add_comm 1 n]
    rfl

theorem invCipher_eq (s : Square) :
    invCipher roundKey s = s.decrypt getSBoxInvert (keyBlock roundKey) 9 := by
  rw [invCipher, Square.decrypt]
  exact foldl_unrounds _ 9

/-! ## The round keys -/

/-- A word is made of the words before it. -/
theorem expandWord_congr {roundKey' : ℕ → BitVec 8} {i : ℕ} (hi : 4 ≤ i)
    (h : ∀ k < 4 * i, roundKey k = roundKey' k) :
    ∀ k < 4 * (i + 1), expandWord roundKey i k = expandWord roundKey' i k := by
  have htempa : (fun j : Fin 4 => roundKey ((i - 1) * 4 + j)) =
      fun j : Fin 4 => roundKey' ((i - 1) * 4 + j) := by
    funext j
    exact h _ (by omega)
  intro k hk
  simp only [expandWord, htempa]
  split
  · rw [h _ (by simp only [nk]; omega)]
  · exact h k (by omega)

/-- Nothing is left of the round keys of the call before. -/
theorem keyExpansion_congr {key key' roundKey roundKey' : ℕ → BitVec 8}
    (h : ∀ k < 16, key k = key' k) :
    ∀ k < 176, keyExpansion key roundKey k = keyExpansion key' roundKey' k := by
  suffices hwords : ∀ n, ∀ k < 4 * (4 + n),
      (List.range' 4 n).foldl expandWord (fun k => if k < 16 then key k else roundKey k) k =
        (List.range' 4 n).foldl expandWord (fun k => if k < 16 then key' k else roundKey' k) k from
    hwords 40
  intro n
  induction n with
  | zero =>
    intro k hk
    rw [List.range'_zero, List.foldl_nil, List.foldl_nil, if_pos (by omega), if_pos (by omega)]
    exact h k (by omega)
  | succ n ih =>
    rw [List.range'_1_concat, List.foldl_append, List.foldl_append]
    exact expandWord_congr (Nat.le_add_right 4 n) ih

/-- The round keys of a key. -/
def roundKeys (key : ℕ → BitVec 8) : ℕ → Square := keyBlock (keyExpansion key fun _ => 0)

theorem keyBlock_keyExpansion {key key' : ℕ → BitVec 8} (h : ∀ k < 16, key k = key' k) {round : ℕ}
    (hround : round ≤ 10) : keyBlock (keyExpansion key roundKey) round = roundKeys key' round := by
  funext i j
  refine keyExpansion_congr h _ ?_
  simp only [nb]
  omega

/-- What is done with a block under a key. -/
def encryptWith (key : ℕ → BitVec 8) (s : Square) : Square :=
  s.encrypt getSBoxValue (roundKeys key) 9

/-- What undoes it. -/
def decryptWith (key : ℕ → BitVec 8) (s : Square) : Square :=
  s.decrypt getSBoxInvert (roundKeys key) 9

theorem decryptWith_encryptWith (key : ℕ → BitVec 8) (s : Square) :
    decryptWith key (encryptWith key s) = s :=
  Square.decrypt_encrypt _ _ getSBoxInvert_getSBoxValue _

theorem encryptWith_decryptWith (key : ℕ → BitVec 8) (s : Square) :
    encryptWith key (decryptWith key s) = s :=
  Square.encrypt_decrypt _ _ getSBoxInvert_getSBoxValue _

/-! ## Memory -/

/-- The 16 bytes at a pointer. -/
def keyAt (mem : Word → BitVec 8) (key : Word) (k : ℕ) : BitVec 8 := mem (key + BitVec.ofNat 32 k)

/-- The round keys are those of a key. -/
def Expanded (m : Memory) (key : ℕ → BitVec 8) : Prop :=
  ∀ round ≤ 10, keyBlock m.roundKey round = roundKeys key round

section Steps

variable {m : Memory} {input output key buf : Word} {k : ℕ → BitVec 8}

theorem copy_mem (h : output = input ∨ Apart output 16 input 16) :
    (m.copy input output).mem =
      Square.layout.store m.mem output (Square.layout.load m.mem input) := by
  rw [Memory.copy, blockCopy, Lib.foldl_update (by decide)]
  · funext a
    rw [Lib.Layout.store]
    split
    · next ha =>
      rw [Lib.Layout.load, Square.layout.bytes_read _ _ ha]
      exact if_pos ha
    · next ha => exact if_neg ha
  · intro i hi mem' hmem
    refine hmem _ ?_
    rcases h with rfl | hapart
    · rw [Lib.toNat_offset (by simp only [keyLen] at hi; omega)]
    · refine Nat.le_trans (Nat.le_of_lt hi) (hapart.symm _ ?_)
      rwa [Lib.toNat_offset (by simp only [keyLen] at hi; omega)]

theorem load_copy (h : output = input ∨ Apart output 16 input 16) :
    Square.layout.load (m.copy input output).mem output = Square.layout.load m.mem input := by
  rw [copy_mem h, Lib.Layout.load_store (by decide)]

theorem xorWithIv_mem (h : Apart buf 16 m.iv 16) :
    (m.xorWithIv buf).mem = Square.layout.store m.mem buf
      ((Square.layout.load m.mem buf).addKey (Square.layout.load m.mem m.iv)) := by
  rw [Memory.xorWithIv, Lib.foldl_update (by decide)]
  · funext a
    rw [Lib.Layout.store]
    split
    · next ha =>
      have hbuf := Square.layout.bytes_read (fun k => m.mem (buf + BitVec.ofNat 32 k)) _ ha
      have hiv := Square.layout.bytes_read (fun k => m.mem (m.iv + BitVec.ofNat 32 k)) _ ha
      exact (if_pos ha).trans (congrArg₂ (· ^^^ ·) hbuf hiv).symm
    · next ha => exact if_neg ha
  · intro i hi mem' hmem
    simp only [keyLen] at hi
    rw [hmem _ (by rw [Lib.toNat_offset (by omega)]), hmem _ (Nat.le_trans (Nat.le_of_lt hi) ?_)]
    exact h.symm _ (by rwa [Lib.toNat_offset (by omega)])

theorem expanded_setKey (h : ∀ i < 16, keyAt m.mem key i = k i) : Expanded (m.setKey key) k :=
  fun _ hround => keyBlock_keyExpansion h hround

theorem Expanded.cipherAt (h : Expanded m k) :
    (m.cipherAt output).mem =
      Square.layout.store m.mem output (encryptWith k (Square.layout.load m.mem output)) := by
  have hcipher : cipher m.roundKey (load m.mem output) =
      encryptWith k (Square.layout.load m.mem output) := by
    rw [cipher_eq]
    exact Square.encrypt_congr _ fun r hr => h r hr
  rw [Memory.cipherAt, hcipher]
  rfl

theorem Expanded.invCipherAt (h : Expanded m k) :
    (m.invCipherAt output).mem =
      Square.layout.store m.mem output (decryptWith k (Square.layout.load m.mem output)) := by
  have hcipher : invCipher m.roundKey (load m.mem output) =
      decryptWith k (Square.layout.load m.mem output) := by
    rw [invCipher_eq]
    exact Square.decrypt_congr _ fun r hr => h r hr
  rw [Memory.invCipherAt, hcipher]
  rfl

end Steps

/-! ## Single blocks -/

section Ecb

variable {m : Memory} {input output back key : Word}

theorem keyAt_copy (h : output = input ∨ Apart output 16 input 16)
    (hkey : Apart output 16 key 16) {k : ℕ} (hk : k < 16) :
    keyAt (m.copy input output).mem key k = keyAt m.mem key k := by
  rw [keyAt, copy_mem h]
  exact Lib.Layout.store_outside (hkey.symm _ (by rwa [Lib.toNat_offset (by omega)]))

theorem ecbEncrypt_mem (h : output = input ∨ Apart output 16 input 16)
    (hkey : Apart output 16 key 16) :
    (m.ecbEncrypt input key output).mem = Square.layout.store m.mem output
      (encryptWith (keyAt m.mem key) (Square.layout.load m.mem input)) := by
  have hexpanded : Expanded ((m.copy input output).setKey key) (keyAt m.mem key) :=
    expanded_setKey fun _ hk => keyAt_copy h hkey hk
  rw [Memory.ecbEncrypt, hexpanded.cipherAt]
  show Square.layout.store (m.copy input output).mem output
    (encryptWith _ (Square.layout.load (m.copy input output).mem output)) = _
  rw [load_copy h, copy_mem h, Lib.Layout.store_store]

theorem ecbDecrypt_mem (h : output = input ∨ Apart output 16 input 16)
    (hkey : Apart output 16 key 16) :
    (m.ecbDecrypt input key output).mem = Square.layout.store m.mem output
      (decryptWith (keyAt m.mem key) (Square.layout.load m.mem input)) := by
  have hexpanded : Expanded ((m.copy input output).setKey key) (keyAt m.mem key) :=
    expanded_setKey fun _ hk => keyAt_copy h hkey hk
  rw [Memory.ecbDecrypt, hexpanded.invCipherAt]
  show Square.layout.store (m.copy input output).mem output
    (decryptWith _ (Square.layout.load (m.copy input output).mem output)) = _
  rw [load_copy h, copy_mem h, Lib.Layout.store_store]

/-- The key is still there after a call. -/
theorem keyAt_store {v : Square} (hkey : Apart output 16 key 16) {k : ℕ} (hk : k < 16) :
    keyAt (Square.layout.store m.mem output v) key k = keyAt m.mem key k :=
  Lib.Layout.store_outside (hkey.symm _ (by rwa [Lib.toNat_offset (by omega)]))

end Ecb

/-- Only the 16 bytes of a key count. -/
theorem encryptWith_congr {k k' : ℕ → BitVec 8} (h : ∀ i < 16, k i = k' i) :
    encryptWith k = encryptWith k' := by
  funext s
  exact Square.encrypt_congr _ fun r hr => keyBlock_keyExpansion h hr

theorem decryptWith_congr {k k' : ℕ → BitVec 8} (h : ∀ i < 16, k i = k' i) :
    decryptWith k = decryptWith k' := by
  funext s
  exact Square.decrypt_congr _ fun r hr => keyBlock_keyExpansion h hr

end HfRisc.Soft.AesTiny

namespace HfRisc.Results

open HfRisc.Lib (Apart Square)
open HfRisc.Soft.AesTiny

/-- For every key, memory and state of the static variables, in place or not: what one of the two
functions does with a block is undone by the other one, where the key is not written. -/
theorem aes_block_round_trip (m : Memory) (input output back key : Word)
    (hto : output = input ∨ Apart output 16 input 16)
    (hback : back = output ∨ Apart back 16 output 16)
    (hkey : Apart output 16 key 16) (hkey' : Apart back 16 key 16) :
    ∀ k < 16,
      ((m.ecbEncrypt input key output).ecbDecrypt output key back).mem (back + BitVec.ofNat 32 k) =
          m.mem (input + BitVec.ofNat 32 k) ∧
        ((m.ecbDecrypt input key output).ecbEncrypt output key back).mem
            (back + BitVec.ofNat 32 k) = m.mem (input + BitVec.ofNat 32 k) := by
  intro k hk
  have hsame : ∀ v, ∀ i < 16,
      keyAt (Square.layout.store m.mem output v) key i = keyAt m.mem key i :=
    fun v i hi => keyAt_store hkey hi
  constructor
  · refine Lib.Layout.byte_of_load (L := Square.layout) ?_ hk
    rw [ecbDecrypt_mem hback hkey', ecbEncrypt_mem hto hkey, Lib.Layout.load_store (by decide),
      Lib.Layout.load_store (by decide), decryptWith_congr (hsame _), decryptWith_encryptWith]
  · refine Lib.Layout.byte_of_load (L := Square.layout) ?_ hk
    rw [ecbEncrypt_mem hback hkey', ecbDecrypt_mem hto hkey, Lib.Layout.load_store (by decide),
      Lib.Layout.load_store (by decide), encryptWith_congr (hsame _), encryptWith_decryptWith]

theorem aes_block_round_trip_place :
    (((Memory.mk (BitVec.setWidth 8) 0 0).ecbEncrypt 0x40001000 0x40002000 0x40001000).ecbDecrypt
        0x40001000 0x40002000 0x40001000).mem (0x40001000 + BitVec.ofNat 32 11) = 0x0b ∧
      (((Memory.mk (BitVec.setWidth 8) 0 0).ecbDecrypt 0x40001000 0x40002000 0x40001000).ecbEncrypt
        0x40001000 0x40002000 0x40001000).mem (0x40001000 + BitVec.ofNat 32 11) = 0x0b :=
  aes_block_round_trip (.mk (BitVec.setWidth 8) 0 0) 0x40001000 0x40001000 0x40001000 0x40002000
    (.inl rfl) (.inl rfl) (Lib.apart_of_le (by decide) (by decide))
    (Lib.apart_of_le (by decide) (by decide)) 11 (by decide)

end HfRisc.Results
