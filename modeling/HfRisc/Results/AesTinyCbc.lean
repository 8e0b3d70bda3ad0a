import HfRisc.Results.AesTiny
import Mathlib.Logic.Function.Iterate

/-!
# AES-128 in CBC mode

`Iv` points to the block that was encrypted last, in the output of one function and in the input of
the other one. So a message in place can be encrypted but not decrypted, and the input of the
encryption is lost. A call with null pointers goes on where the call before has stopped, because the
block that each call copies first is copied once more before it is read.
-/

namespace HfRisc.Soft.AesTiny.Cbc

open HfRisc.Lib (Apart Square Walked blocks)

variable {m : Memory} {v : Vars} {output input key iv length : Word} {k : ℕ → BitVec 8} {n t : ℕ}

/-! ## The loop -/

/-- The body runs once for each block. -/
theorem loop_eq (body : Vars → Vars) (v : Vars) {fuel : ℕ} (hlen : length.toNat = 16 * n)
    (ht : t ≤ n) (hfuel : n - t < fuel) :
    loop body length fuel (BitVec.ofNat 32 (16 * t)) v = some (body^[n - t] v) := by
  have hlt := length.isLt
  have hindex : BitVec.ofNat 32 (16 * t) < length ↔ t < n := by
    rw [BitVec.lt_def, BitVec.toNat_ofNat]
    omega
  induction fuel generalizing t v with
  | zero => exact absurd hfuel (Nat.not_lt_zero _)
  | succ fuel ih =>
    rw [loop]
    rcases Nat.lt_or_eq_of_le ht with hless | rfl
    · have hsub : n - t = n - (t + 1) + 1 := by omega
      rw [if_pos (hindex.mpr hless), keyLen, ← BitVec.ofNat_add, ← Nat.mul_succ, hsub,
        Function.iterate_succ_apply]
      refine ih _ hless (by omega) ?_
      rw [BitVec.lt_def, BitVec.toNat_ofNat]
      omega
    · rw [if_neg (fun hless => Nat.lt_irrefl _ (hindex.mp hless)), Nat.sub_self]
      rfl

/-- The functions on a message of whole blocks. -/
theorem cbcEncrypt_eq {fuel : ℕ} (hlen : length.toNat = 16 * n) (hfuel : n < fuel) :
    cbcEncrypt fuel m output input length key iv =
      some (encryptBody^[n] (start m output input key iv)).m := by
  have hloop := loop_eq encryptBody (start m output input key iv) hlen (Nat.zero_le n) hfuel
  have hstart : BitVec.ofNat 32 (16 * 0) = 0 := rfl
  rw [hstart] at hloop
  rw [cbcEncrypt, hloop, hlen, keyLen, Nat.mul_mod_right]
  rfl

theorem cbcDecrypt_eq {fuel : ℕ} (hlen : length.toNat = 16 * n) (hfuel : n < fuel) :
    cbcDecrypt fuel m output input length key iv =
      some (decryptBody^[n] (start m output input key iv)).m := by
  have hloop := loop_eq decryptBody (start m output input key iv) hlen (Nat.zero_le n) hfuel
  have hstart : BitVec.ofNat 32 (16 * 0) = 0 := rfl
  rw [hstart] at hloop
  rw [cbcDecrypt, hloop, hlen, keyLen, Nat.mul_mod_right]
  rfl

/-! ## The bodies -/

/-- What the bodies leave besides the memory. -/
theorem encryptBody_kept : (encryptBody v).m.roundKey = v.m.roundKey ∧
    (encryptBody v).m.iv = v.output ∧ (encryptBody v).input = v.input + BitVec.ofNat 32 keyLen ∧
    (encryptBody v).output = v.output + BitVec.ofNat 32 keyLen := ⟨rfl, rfl, rfl, rfl⟩

theorem decryptBody_kept : (decryptBody v).m.roundKey = v.m.roundKey ∧
    (decryptBody v).m.iv = v.input ∧ (decryptBody v).input = v.input + BitVec.ofNat 32 keyLen ∧
    (decryptBody v).output = v.output + BitVec.ofNat 32 keyLen := ⟨rfl, rfl, rfl, rfl⟩

/-- The block at `input` and the one at `Iv`, added. -/
def summed (v : Vars) : Square :=
  (Square.layout.load v.m.mem v.input).addKey (Square.layout.load v.m.mem v.m.iv)

theorem encryptBody_mem (hexpanded : Expanded v.m k)
    (hplace : v.output = v.input ∨ Apart v.output 16 v.input 16)
    (hiv : Apart v.input 16 v.m.iv 16) :
    (encryptBody v).m.mem = Square.layout.store (Square.layout.store v.m.mem v.input (summed v))
      v.output (encryptWith k (summed v)) := by
  have hcopied : Expanded ((v.m.xorWithIv v.input).copy v.input v.output) k := hexpanded
  show (((v.m.xorWithIv v.input).copy v.input v.output).cipherAt v.output).mem = _
  rw [hcopied.cipherAt, load_copy hplace, copy_mem hplace, Lib.Layout.store_store,
    xorWithIv_mem hiv, Lib.Layout.load_store (by decide)]
  rfl

theorem decryptBody_mem (hexpanded : Expanded v.m k) (hplace : Apart v.output 16 v.input 16)
    (hiv : Apart v.output 16 v.m.iv 16) :
    (decryptBody v).m.mem = Square.layout.store v.m.mem v.output
      ((decryptWith k (Square.layout.load v.m.mem v.input)).addKey
        (Square.layout.load v.m.mem v.m.iv)) := by
  have hcopied : Expanded (v.m.copy v.input v.output) k := hexpanded
  have hcipher : ((v.m.copy v.input v.output).invCipherAt v.output).mem =
      Square.layout.store v.m.mem v.output
        (decryptWith k (Square.layout.load v.m.mem v.input)) := by
    rw [hcopied.invCipherAt, load_copy (.inr hplace), copy_mem (.inr hplace),
      Lib.Layout.store_store]
  have hxor : (decryptBody v).m.mem = _ :=
    xorWithIv_mem (m := (v.m.copy v.input v.output).invCipherAt v.output) hiv
  rw [hxor, hcipher, Lib.Layout.store_store, Lib.Layout.load_store (by decide)]
  congr 2
  exact Lib.Layout.load_store_apart (by decide) hiv.symm

/-! ## Runs -/

/-- Where `Iv` points after `t` blocks: to the last block in a buffer. -/
def vector (p first : Word) : ℕ → Word
  | 0 => first
  | t + 1 => p + BitVec.ofNat 32 (16 * t)

/-- A block and the one that `Iv` points to. -/
theorem apart_vector {p q first : Word} (hn : 16 * n ≤ 2 ^ 32) (hfirst : Apart p (16 * n) first 16)
    (hplace : q = p ∨ Apart p (16 * n) q (16 * n)) (ht : t < n) :
    Apart (p + BitVec.ofNat 32 (16 * t)) 16 (vector q first t) 16 := by
  cases t with
  | zero =>
    rw [Nat.mul_zero, BitVec.add_zero]
    exact hfirst.mono (by omega) le_rfl
  | succ t =>
    rcases hplace with rfl | hapart
    · exact (Lib.apart_offsets (by omega) (by omega)).symm
    · exact hapart.offsets (by omega) (by omega) hn hn

theorem apart_block {p q : Word} (hn : 16 * n ≤ 2 ^ 32)
    (hplace : p = q ∨ Apart p (16 * n) q (16 * n)) (ht : t < n) :
    p + BitVec.ofNat 32 (16 * t) = q + BitVec.ofNat 32 (16 * t) ∨
      Apart (p + BitVec.ofNat 32 (16 * t)) 16 (q + BitVec.ofNat 32 (16 * t)) 16 := by
  rcases hplace with rfl | hapart
  · exact .inl rfl
  · exact .inr (hapart.offsets (by omega) (by omega) hn hn)

/-- `t` blocks are done, with `Iv` in the buffer `p`. -/
structure Running (f : Square → Square → Square × Square) (k : ℕ → BitVec 8) (mem : Word → BitVec 8)
    (output input p iv : Word) (t : ℕ) (v : Vars) : Prop where
  expanded : Expanded v.m k
  input_eq : v.input = input + BitVec.ofNat 32 (16 * t)
  output_eq : v.output = output + BitVec.ofNat 32 (16 * t)
  iv_eq : v.m.iv = vector p iv t
  walked : Walked Square.layout f mem output input (Square.layout.load mem iv) t v.m.mem
    (Square.layout.load v.m.mem v.m.iv)

theorem Running.start {f : Square → Square → Square × Square} {p : Word}
    (hplace : output = input ∨ Apart output 16 input 16) (hkey : key ≠ 0) (hiv : iv ≠ 0)
    (hapart : Apart output 16 key 16) :
    Running f (keyAt m.mem key) (m.copy input output).mem output input p iv 0
      (start m output input key iv) := by
  have hexpanded : Expanded ((m.copy input output).setKey key) (keyAt m.mem key) :=
    expanded_setKey fun _ hk => keyAt_copy hplace hapart hk
  have hzero : ∀ p : Word, p = p + BitVec.ofNat 32 (16 * 0) := fun p => (BitVec.add_zero p).symm
  rw [Cbc.start, if_pos hkey, if_pos hiv]
  exact ⟨hexpanded, hzero input, hzero output, rfl, Lib.walked_zero⟩

section Runs

variable {mem : Word → BitVec 8} (hn : 16 * n ≤ 2 ^ 32)

include hn

theorem Running.encryptBody
    (h : Running (Square.chainEncrypt (encryptWith k)) k mem output input output iv t v)
    (hplace : output = input ∨ Apart output (16 * n) input (16 * n))
    (hiv : Apart input (16 * n) iv 16) (ht : t < n) :
    Running (Square.chainEncrypt (encryptWith k)) k mem output input output iv (t + 1)
      (encryptBody v) := by
  have hblock := apart_block hn hplace ht
  have hvector := apart_vector hn hiv (hplace.imp_right Apart.symm) ht
  rw [← h.output_eq, ← h.input_eq] at hblock
  rw [← h.input_eq, ← h.iv_eq] at hvector
  have hmem := encryptBody_mem h.expanded hblock hvector
  have hload :
      Square.layout.load (Cbc.encryptBody v).m.mem v.output = encryptWith k (summed v) := by
    rw [hmem, Lib.Layout.load_store (by decide)]
  refine ⟨h.expanded, ?_, ?_, h.output_eq, h.walked.step hn hplace ht ?_ ?_ ?_⟩
  · show v.input + BitVec.ofNat 32 keyLen = _
    rw [h.input_eq, BitVec.add_assoc, ← BitVec.ofNat_add]
    rfl
  · show v.output + BitVec.ofNat 32 keyLen = _
    rw [h.output_eq, BitVec.add_assoc, ← BitVec.ofNat_add]
    rfl
  · rw [blocks, ← h.input_eq]
    exact hload
  · rw [blocks, blocks, ← h.input_eq, ← h.output_eq]
    exact hload
  · intro a hout hinp
    rw [← h.output_eq] at hout
    rw [← h.input_eq] at hinp
    rw [hmem, Lib.Layout.store_outside (Nat.le_of_not_lt hout),
      Lib.Layout.store_outside (Nat.le_of_not_lt hinp)]

theorem Running.decryptBody
    (h : Running (Square.chainDecrypt (decryptWith k)) k mem output input input iv t v)
    (hplace : Apart output (16 * n) input (16 * n)) (hiv : Apart output (16 * n) iv 16)
    (ht : t < n) :
    Running (Square.chainDecrypt (decryptWith k)) k mem output input input iv (t + 1)
      (decryptBody v) := by
  have hblock := hplace.offsets (show 16 * t + 16 ≤ 16 * n by omega)
    (show 16 * t + 16 ≤ 16 * n by omega) hn hn
  have hvector := apart_vector hn hiv (.inr hplace) ht
  rw [← h.output_eq, ← h.input_eq] at hblock
  rw [← h.output_eq, ← h.iv_eq] at hvector
  have hmem := decryptBody_mem h.expanded hblock hvector
  refine ⟨h.expanded, ?_, ?_, h.input_eq, h.walked.step hn (.inr hplace) ht ?_ ?_ ?_⟩
  · show v.input + BitVec.ofNat 32 keyLen = _
    rw [h.input_eq, BitVec.add_assoc, ← BitVec.ofNat_add]
    rfl
  · show v.output + BitVec.ofNat 32 keyLen = _
    rw [h.output_eq, BitVec.add_assoc, ← BitVec.ofNat_add]
    rfl
  · rw [blocks, ← h.input_eq, hmem]
    exact Lib.Layout.load_store_apart (by decide) hblock.symm
  · rw [blocks, blocks, ← h.input_eq, ← h.output_eq, hmem, Lib.Layout.load_store (by decide)]
    rfl
  · intro a hout _
    rw [← h.output_eq] at hout
    rw [hmem, Lib.Layout.store_outside (Nat.le_of_not_lt hout)]

end Runs

/-! ## Calls -/

/-- The buffers of `n` blocks and what stays of the key and the vector of a call. -/
structure Call (output input key iv : Word) (n : ℕ) : Prop where
  le : 16 * n ≤ 2 ^ 32
  pos : 0 < n
  key_ne : key ≠ 0
  iv_ne : iv ≠ 0
  key_output : Apart output (16 * n) key 16
  iv_output : Apart output (16 * n) iv 16
  iv_input : Apart input (16 * n) iv 16

namespace Call

variable {f : Square → Square → Square × Square} {p : Word} (h : Call output input key iv n)
  (hplace : output = input ∨ Apart output (16 * n) input (16 * n))

include h hplace

/-- The block that is copied first. -/
theorem first : output = input ∨ Apart output 16 input 16 :=
  hplace.imp_right fun hapart => hapart.mono (by have := h.pos; omega) (by have := h.pos; omega)

theorem start : Running f (keyAt m.mem key) (m.copy input output).mem output input p iv 0
    (start m output input key iv) :=
  Running.start (h.first hplace) h.key_ne h.iv_ne
    (h.key_output.mono (by have := h.pos; omega) le_rfl)

theorem running_encrypt (ht : t ≤ n) :
    Running (Square.chainEncrypt (encryptWith (keyAt m.mem key))) (keyAt m.mem key)
      (m.copy input output).mem output input output iv t
      (encryptBody^[t] (Cbc.start m output input key iv)) := by
  induction t with
  | zero => exact h.start hplace
  | succ t ih =>
    rw [Function.iterate_succ_apply']
    exact (ih (Nat.le_of_succ_le ht)).encryptBody h.le hplace h.iv_input ht

omit hplace in
theorem running_decrypt (hplace : Apart output (16 * n) input (16 * n)) (ht : t ≤ n) :
    Running (Square.chainDecrypt (decryptWith (keyAt m.mem key))) (keyAt m.mem key)
      (m.copy input output).mem output input input iv t
      (decryptBody^[t] (Cbc.start m output input key iv)) := by
  induction t with
  | zero => exact h.start (.inr hplace)
  | succ t ih =>
    rw [Function.iterate_succ_apply']
    exact (ih (Nat.le_of_succ_le ht)).decryptBody h.le hplace h.iv_output ht

/-- The block that is copied first makes no difference to what is read. -/
theorem walked_of_copy {mem' : Word → BitVec 8} {c : Square}
    (hwalked : Walked Square.layout f (m.copy input output).mem output input
      (Square.layout.load (m.copy input output).mem iv) n mem' c) :
    Walked Square.layout f m.mem output input (Square.layout.load m.mem iv) n mem' c := by
  have hpos := h.pos
  have hcopy := copy_mem (m := m) (h.first hplace)
  have hload : Square.layout.load (m.copy input output).mem iv = Square.layout.load m.mem iv := by
    rw [hcopy, Lib.Layout.load_store_apart (by decide)]
    exact h.iv_output.symm.mono le_rfl (by omega)
  rw [hload] at hwalked
  refine hwalked.congr_mem (fun u hu => ?_) fun a hout _ => ?_
  · rcases hplace with rfl | hapart
    · rw [hcopy, Lib.Layout.store_load]
    · rw [hcopy, blocks, blocks, Lib.Layout.load_store_apart (by decide)]
      have hoffset := hapart.symm.offsets (show 16 * u + 16 ≤ 16 * n by omega)
        (show 0 + 16 ≤ 16 * n by omega) h.le h.le
      rwa [show output + BitVec.ofNat 32 0 = output from BitVec.add_zero output] at hoffset
  · rw [hcopy]
    exact Lib.Layout.store_outside (by omega)

/-- A call of the first function leaves the chain of the blocks. -/
theorem encrypted :
    Walked Square.layout (Square.chainEncrypt (encryptWith (keyAt m.mem key))) m.mem output input
      (Square.layout.load m.mem iv) n (encryptBody^[n] (Cbc.start m output input key iv)).m.mem
      (Square.layout.load (encryptBody^[n] (Cbc.start m output input key iv)).m.mem
        (encryptBody^[n] (Cbc.start m output input key iv)).m.iv) :=
  h.walked_of_copy hplace (h.running_encrypt hplace le_rfl).walked

omit hplace in
theorem decrypted (hplace : Apart output (16 * n) input (16 * n)) :
    Walked Square.layout (Square.chainDecrypt (decryptWith (keyAt m.mem key))) m.mem output input
      (Square.layout.load m.mem iv) n (decryptBody^[n] (Cbc.start m output input key iv)).m.mem
      (Square.layout.load (decryptBody^[n] (Cbc.start m output input key iv)).m.mem
        (decryptBody^[n] (Cbc.start m output input key iv)).m.iv) :=
  h.walked_of_copy (.inr hplace) (h.running_decrypt hplace le_rfl).walked

end Call

/-! ## One more copy -/

/-- The block at `input` is copied to `output`. -/
def Vars.copied (v : Vars) : Vars := { v with m := v.m.copy v.input v.output }

section Copied

variable (hplace : v.output = v.input ∨ Apart v.output 16 v.input 16)
  (hiv : Apart v.output 16 v.m.iv 16)

include hplace

theorem copied_mem : v.copied.m.mem =
    Square.layout.store v.m.mem v.output (Square.layout.load v.m.mem v.input) := copy_mem hplace

theorem load_copied_input :
    Square.layout.load v.copied.m.mem v.copied.input = Square.layout.load v.m.mem v.input := by
  show Square.layout.load v.copied.m.mem v.input = _
  rw [copied_mem hplace]
  rcases hplace with hsame | hapart
  · rw [hsame, Lib.Layout.store_load]
  · rw [Lib.Layout.load_store_apart (by decide) hapart.symm]

include hiv

theorem load_copied_iv :
    Square.layout.load v.copied.m.mem v.copied.m.iv = Square.layout.load v.m.mem v.m.iv := by
  show Square.layout.load v.copied.m.mem v.m.iv = _
  rw [copied_mem hplace, Lib.Layout.load_store_apart (by decide) hiv.symm]

theorem summed_copied : summed v.copied = summed v :=
  congrArg₂ Square.addKey (load_copied_input hplace) (load_copied_iv hplace hiv)

/-- What has been copied is written once more, and not read. -/
theorem encryptBody_copied (hexpanded : Expanded v.m k) (hinput : Apart v.input 16 v.m.iv 16) :
    encryptBody v.copied = encryptBody v := by
  have hcopied : Expanded v.copied.m k := hexpanded
  have hstore : ∀ s e,
      Square.layout.store (Square.layout.store v.copied.m.mem v.input s) v.output e =
        Square.layout.store (Square.layout.store v.m.mem v.input s) v.output e := by
    intro s e
    rw [copied_mem hplace]
    rcases hplace with hsame | hapart
    · rw [hsame, Lib.Layout.store_load]
    · rw [Lib.Layout.store_comm hapart, Lib.Layout.store_store]
  have hmem : (encryptBody v.copied).m.mem = (encryptBody v).m.mem := by
    rw [encryptBody_mem hcopied hplace hinput, encryptBody_mem hexpanded hplace hinput,
      summed_copied hplace hiv]
    exact hstore _ _
  obtain ⟨hkey, hvector, hin, hout⟩ := encryptBody_kept (v := v.copied)
  obtain ⟨hkey', hvector', hin', hout'⟩ := encryptBody_kept (v := v)
  exact Vars.ext (Memory.ext hmem (hkey.trans hkey'.symm) (hvector.trans hvector'.symm))
    (hin.trans hin'.symm) (hout.trans hout'.symm)

omit hplace in
theorem decryptBody_copied (hexpanded : Expanded v.m k) (hplace : Apart v.output 16 v.input 16) :
    decryptBody v.copied = decryptBody v := by
  have hcopied : Expanded v.copied.m k := hexpanded
  have hmem : (decryptBody v.copied).m.mem = (decryptBody v).m.mem := by
    rw [decryptBody_mem hcopied hplace hiv, decryptBody_mem hexpanded hplace hiv,
      load_copied_input (.inr hplace), load_copied_iv (.inr hplace) hiv, copied_mem (.inr hplace)]
    exact Lib.Layout.store_store
  obtain ⟨hkey, hvector, hin, hout⟩ := decryptBody_kept (v := v.copied)
  obtain ⟨hkey', hvector', hin', hout'⟩ := decryptBody_kept (v := v)
  exact Vars.ext (Memory.ext hmem (hkey.trans hkey'.symm) (hvector.trans hvector'.symm))
    (hin.trans hin'.symm) (hout.trans hout'.symm)

end Copied

/-- With null pointers, a call goes on. -/
theorem start_null : start v.m v.output v.input 0 0 = v.copied := by
  rw [start, if_neg (not_not.mpr rfl), if_neg (not_not.mpr rfl)]
  rfl

/-- The copy makes no difference where a block follows. -/
theorem iterate_copied {body : Vars → Vars} {b : ℕ} (hb : 0 < b) (h : body v.copied = body v) :
    body^[b] v.copied = body^[b] v := by
  obtain ⟨b, rfl⟩ := Nat.exists_eq_succ_of_ne_zero (Nat.ne_of_gt hb)
  rw [Function.iterate_succ_apply, Function.iterate_succ_apply, h]

end HfRisc.Soft.AesTiny.Cbc

namespace HfRisc.Results

open HfRisc.Lib (Apart Square)
open HfRisc.Soft.AesTiny HfRisc.Soft.AesTiny.Cbc

/-- For every message of whole blocks, key and vector, and every state of the static variables: a
message that is encrypted, in place or not, and decrypted to another buffer comes back, and nothing
outside the buffers changes. -/
theorem aes_cbc_round_trip (m : Memory) (input output back length key iv : Word) (n fuel : ℕ)
    (hlen : length.toNat = 16 * n) (hpos : 0 < n) (hfuel : n < fuel) (hkey : key ≠ 0) (hiv : iv ≠ 0)
    (hencrypt : output = input ∨ Apart output length.toNat input length.toNat)
    (hdecrypt : Apart back length.toNat output length.toNat)
    (hparams : ∀ p ∈ [input, output, back],
      Apart p length.toNat key 16 ∧ Apart p length.toNat iv 16) :
    ∃ m' m'', cbcEncrypt fuel m output input length key iv = some m' ∧
      cbcDecrypt fuel m' back output length key iv = some m'' ∧
      (∀ i < length.toNat, m''.mem (back + BitVec.ofNat 32 i) = m.mem (input + BitVec.ofNat 32 i)) ∧
      ∀ a, (∀ p ∈ [input, output, back], length.toNat ≤ (a - p).toNat) → m''.mem a = m.mem a := by
  have hlt := length.isLt
  rw [hlen] at hencrypt hdecrypt hparams ⊢
  obtain ⟨hkeyIn, hivIn⟩ := hparams input (by simp)
  obtain ⟨hkeyOut, hivOut⟩ := hparams output (by simp)
  obtain ⟨hkeyBack, hivBack⟩ := hparams back (by simp)
  have hcall : Call output input key iv n :=
    ⟨by omega, hpos, hkey, hiv, hkeyOut, hivOut, hivIn⟩
  have hcall' : Call back output key iv n :=
    ⟨by omega, hpos, hkey, hiv, hkeyBack, hivBack, hivOut⟩
  refine ⟨_, _, cbcEncrypt_eq hlen hfuel, cbcDecrypt_eq hlen hfuel, ?_⟩
  have hto := hcall.encrypted (m := m) hencrypt
  generalize (encryptBody^[n] (start m output input key iv)).m = m' at hto ⊢
  have hback := hcall'.decrypted (m := m') hdecrypt
  -- the key and the vector are still there
  have hkey' : ∀ i < 16, keyAt m'.mem key i = keyAt m.mem key i := by
    intro i hi
    have hat : (key + BitVec.ofNat 32 i - key).toNat < 16 := by
      rwa [Lib.toNat_offset (by omega)]
    exact hto.kept _ (hkeyOut.symm _ hat) (hkeyIn.symm _ hat)
  have hiv' : Square.layout.load m'.mem iv = Square.layout.load m.mem iv :=
    Lib.Layout.load_congr (by decide) fun a ha => hto.kept a (hivOut.symm a ha) (hivIn.symm a ha)
  rw [decryptWith_congr hkey', hiv'] at hback
  refine ⟨fun i hi => ?_, fun a ha => ?_⟩
  · have hundoes := Square.chainDecrypt_undoes (decryptWith_encryptWith (keyAt m.mem key))
    exact Lib.byte_of_blocks (fun t ht => hto.back hundoes hback ht) hi
  · have houtput := ha output (by simp)
    exact (hback.kept a (ha back (by simp)) houtput).trans
      (hto.kept a houtput (ha input (by simp)))

theorem aes_cbc_round_trip_page :
    ∃ m' m'', cbcEncrypt 5 (.mk (BitVec.setWidth 8) 0 0) 0x40001000 0x40001000 64 0x40003000
        0x40003010 = some m' ∧
      cbcDecrypt 5 m' 0x40002000 0x40001000 64 0x40003000 0x40003010 = some m'' ∧
      (∀ i < (64 : Word).toNat, m''.mem (0x40002000 + BitVec.ofNat 32 i) =
        (0x40001000 + BitVec.ofNat 32 i).setWidth 8) ∧
      ∀ a : Word, (∀ p ∈ [0x40001000, 0x40001000, 0x40002000], (64 : Word).toNat ≤ (a - p).toNat) →
        m''.mem a = a.setWidth 8 :=
  aes_cbc_round_trip (.mk (BitVec.setWidth 8) 0 0) 0x40001000 0x40001000 0x40002000 64 0x40003000
    0x40003010 4 5 rfl (by decide) (by decide) (by decide) (by decide) (.inl rfl)
    (Lib.apart_of_le (by decide) (by decide)).symm (by
      intro p hp
      simp only [List.mem_cons, List.not_mem_nil, or_false] at hp
      rcases hp with rfl | rfl | rfl <;>
        exact ⟨Lib.apart_of_le (by decide) (by decide), Lib.apart_of_le (by decide) (by decide)⟩)

/-- For every message of whole blocks: what a call does is done by two calls, the second one with
null pointers, on the two parts of the message. -/
theorem aes_cbc_continued (m : Memory) (input output length₁ length₂ key iv : Word) (a b fuel : ℕ)
    (h₁ : length₁.toNat = 16 * a) (h₂ : length₂.toNat = 16 * b) (ha : 0 < a) (hb : 0 < b)
    (hsum : length₁.toNat + length₂.toNat < 2 ^ 32) (hfuel : a + b < fuel) (hkey : key ≠ 0)
    (hiv : iv ≠ 0) (hkeyOut : Apart output (length₁ + length₂).toNat key 16)
    (hivOut : Apart output (length₁ + length₂).toNat iv 16)
    (hivIn : Apart input (length₁ + length₂).toNat iv 16) :
    (output = input ∨ Apart output (length₁ + length₂).toNat input (length₁ + length₂).toNat →
      cbcEncrypt fuel m output input (length₁ + length₂) key iv =
        (cbcEncrypt fuel m output input length₁ key iv).bind fun m =>
          cbcEncrypt fuel m (output + length₁) (input + length₁) length₂ 0 0) ∧
    (Apart output (length₁ + length₂).toNat input (length₁ + length₂).toNat →
      cbcDecrypt fuel m output input (length₁ + length₂) key iv =
        (cbcDecrypt fuel m output input length₁ key iv).bind fun m =>
          cbcDecrypt fuel m (output + length₁) (input + length₁) length₂ 0 0) := by
  have hlen : (length₁ + length₂).toNat = 16 * (a + b) := by
    rw [BitVec.toNat_add, Nat.mod_eq_of_lt hsum, h₁, h₂, Nat.mul_add]
  rw [hlen] at hkeyOut hivOut hivIn ⊢
  have hcall : Call output input key iv (a + b) :=
    ⟨by omega, by omega, hkey, hiv, hkeyOut, hivOut, hivIn⟩
  have hmoved : ∀ p : Word, p + length₁ = p + BitVec.ofNat 32 (16 * a) := by
    intro p
    rw [← h₁, BitVec.ofNat_toNat, BitVec.setWidth_eq]
  have hblock : a < a + b := by omega
  constructor
  · intro hplace
    have hrun := hcall.running_encrypt (m := m) hplace (Nat.le_add_right a b)
    rw [cbcEncrypt_eq hlen hfuel, cbcEncrypt_eq h₁ (by omega), Option.bind_some,
      cbcEncrypt_eq h₂ (by omega), hmoved, hmoved, ← hrun.input_eq, ← hrun.output_eq, start_null,
      Nat.add_comm a b, Function.iterate_add_apply, iterate_copied hb]
    refine encryptBody_copied ?_ ?_ hrun.expanded ?_
    · rw [hrun.output_eq, hrun.input_eq]
      exact apart_block hcall.le hplace hblock
    · rw [hrun.output_eq, hrun.iv_eq]
      exact apart_vector hcall.le hivOut (.inl rfl) hblock
    · rw [hrun.input_eq, hrun.iv_eq]
      exact apart_vector hcall.le hivIn (hplace.imp_right Apart.symm) hblock
  · intro hplace
    have hrun := hcall.running_decrypt (m := m) hplace (Nat.le_add_right a b)
    rw [cbcDecrypt_eq hlen hfuel, cbcDecrypt_eq h₁ (by omega), Option.bind_some,
      cbcDecrypt_eq h₂ (by omega), hmoved, hmoved, ← hrun.input_eq, ← hrun.output_eq, start_null,
      Nat.add_comm a b, Function.iterate_add_apply, iterate_copied hb]
    refine decryptBody_copied ?_ hrun.expanded ?_
    · rw [hrun.output_eq, hrun.iv_eq]
      exact apart_vector hcall.le hivOut (.inr hplace) hblock
    · rw [hrun.output_eq, hrun.input_eq]
      exact hplace.offsets (by omega) (by omega) hcall.le hcall.le

theorem aes_cbc_continued_page :
    (cbcEncrypt 5 (.mk (BitVec.setWidth 8) 0 0) 0x40001000 0x40002000 (16 + 48) 0x40003000
        0x40003010 =
      (cbcEncrypt 5 (.mk (BitVec.setWidth 8) 0 0) 0x40001000 0x40002000 16 0x40003000
        0x40003010).bind fun m => cbcEncrypt 5 m (0x40001000 + 16) (0x40002000 + 16) 48 0 0) ∧
    cbcDecrypt 5 (.mk (BitVec.setWidth 8) 0 0) 0x40001000 0x40002000 (16 + 48) 0x40003000
        0x40003010 =
      (cbcDecrypt 5 (.mk (BitVec.setWidth 8) 0 0) 0x40001000 0x40002000 16 0x40003000
        0x40003010).bind fun m => cbcDecrypt 5 m (0x40001000 + 16) (0x40002000 + 16) 48 0 0 := by
  have happart : Apart (0x40001000 : Word) (16 + 48 : Word).toNat 0x40002000
      (16 + 48 : Word).toNat :=
    Lib.apart_of_le (by decide) (by decide)
  obtain ⟨hencrypt, hdecrypt⟩ := aes_cbc_continued (.mk (BitVec.setWidth 8) 0 0) 0x40002000
    0x40001000 16 48 0x40003000 0x40003010 1 3 5 rfl rfl (by decide) (by decide) (by decide)
    (by decide) (by decide) (by decide) (Lib.apart_of_le (by decide) (by decide))
    (Lib.apart_of_le (by decide) (by decide)) (Lib.apart_of_le (by decide) (by decide))
  exact ⟨hencrypt (.inr happart), hdecrypt happart⟩

end HfRisc.Results
