import HfRisc.Results.AesLite

/-!
# Messages through the two implementations

`aes_lite/aes.c` keeps the last block in the context, so a message may be given to it in parts, and
it loads a block before it stores one, so a message may be decrypted in place, too.
-/

namespace HfRisc.Soft.AesLite

open HfRisc.Lib (Apart Square Walked blocks chained word4)

/-! ## The round keys -/

section Key

variable (tables : Tables) {words i : ℕ} {s s' : (ℕ → Word) × ℕ}

/-- A word is made of the words before it. -/
theorem expandWord_congr (hwords : 0 < words) (hi : words ≤ i) (hks : ∀ k < i, s.1 k = s'.1 k)
    (hrcon : s.2 = s'.2) :
    (∀ k < i + 1, (expandWord tables words s i).1 k = (expandWord tables words s' i).1 k) ∧
      (expandWord tables words s i).2 = (expandWord tables words s' i).2 := by
  simp only [expandWord, hks (i - 1) (by omega), hks (i - words) (by omega), hrcon]
  refine ⟨fun k hk => ?_, trivial⟩
  by_cases hki : k = i
  · rw [if_pos hki, if_pos hki]
  · rw [if_neg hki, if_neg hki, hks k (by omega)]

theorem foldl_expandWord_congr {ks ks' : ℕ → Word} {r : ℕ} (hwords : 0 < words)
    (hks : ∀ k < words, ks k = ks' k) (n : ℕ) :
    (∀ k < words + n, ((List.range' words n).foldl (expandWord tables words) (ks, r)).1 k =
        ((List.range' words n).foldl (expandWord tables words) (ks', r)).1 k) ∧
      ((List.range' words n).foldl (expandWord tables words) (ks, r)).2 =
        ((List.range' words n).foldl (expandWord tables words) (ks', r)).2 := by
  induction n with
  | zero => exact ⟨hks, rfl⟩
  | succ n ih =>
    rw [List.range'_1_concat, List.foldl_append, List.foldl_append]
    exact expandWord_congr tables hwords (Nat.le_add_right words n) ih.1 ih.2

/-- The number of rounds less one. -/
def Mode.last : Mode → ℕ
  | .mode128 => 9
  | .mode256 => 13

variable (o : ByteOrder) (ctx ctx' : Ctx) (key iv : ℕ → BitVec 8) (mode : Mode)

theorem rounds_setKey : (setKey tables o ctx key iv mode).rounds = mode.last + 1 := by
  cases mode <;> rfl

theorem iv_setKey {k : ℕ} (hk : k < 16) : (setKey tables o ctx key iv mode).iv k = iv k :=
  if_pos hk

/-- The words of the key and those made of them. -/
theorem setKey_ks128 : (setKey tables o ctx key iv .mode128).ks =
    ((List.range' 4 40).foldl (expandWord tables 4)
      (fun k => if k < 4 then htonl o (wordAt o key k) else ctx.ks k, 0)).1 := by
  unfold setKey
  rfl

theorem setKey_ks256 : (setKey tables o ctx key iv .mode256).ks =
    ((List.range' 8 52).foldl (expandWord tables 8)
      (fun k => if k < 4 then htonl o (wordAt o key k)
        else if 4 ≤ k ∧ k < 8 then htonl o (wordAt o key k) else ctx.ks k, 0)).1 := by
  simp only [setKey]

/-- Nothing is left of the context before. -/
theorem keyBlock_setKey {round : ℕ} (hround : round ≤ mode.last + 1) :
    keyBlock (setKey tables o ctx key iv mode) round =
      keyBlock (setKey tables o ctx' key iv mode) round := by
  have hks : ∀ k < 4 * (mode.last + 2), (setKey tables o ctx key iv mode).ks k =
      (setKey tables o ctx' key iv mode).ks k := by
    intro k hk
    cases mode with
    | mode128 =>
      have hlt : k < 4 + 40 := hk
      rw [setKey_ks128, setKey_ks128]
      refine (foldl_expandWord_congr tables (by decide) (fun j hj => ?_) 40).1 k hlt
      rw [if_pos hj, if_pos hj]
    | mode256 =>
      have hlt : k < 8 + 52 := hk
      rw [setKey_ks256, setKey_ks256]
      refine (foldl_expandWord_congr tables (by decide) (fun j hj => ?_) 52).1 k hlt
      by_cases hlow : j < 4
      · rw [if_pos hlow, if_pos hlow]
      · rw [if_neg hlow, if_neg hlow, if_pos ⟨by omega, hj⟩, if_pos ⟨by omega, hj⟩]
  have hcolumn : (fun i : Fin 4 => (setKey tables o ctx key iv mode).ks (4 * round + i)) =
      fun i : Fin 4 => (setKey tables o ctx' key iv mode).ks (4 * round + i) := by
    funext i
    exact hks _ (by omega)
  rw [keyBlock, keyBlock, hcolumn]

end Key

/-! ## Words in memory -/

section Words

variable (o : ByteOrder) (a b c d : BitVec 8)

/-- `htonl` puts the first byte on top. -/
theorem htonl_word : htonl o (o.word a b c d) = word4 a b c d := by
  cases o with
  | big => rfl
  | little =>
    show htonl .little (word4 d c b a) = _
    have hones : ∀ x : BitVec 8, x &&& 255#8 = x := by decide
    rw [htonl, show (0xFF : Word) = word4 0 0 0 0xff from rfl,
      show (0xFF00 : Word) = word4 0 0 0xff 0 from rfl,
      show (0xFF0000 : Word) = word4 0 0xff 0 0 from rfl,
      show (0xFF000000 : Word) = word4 0xff 0 0 0 from rfl]
    simp only [Lib.word4_and, Lib.word4_shiftLeft_24, Lib.word4_shiftLeft_8,
      Lib.word4_shiftRight_8, Lib.word4_shiftRight_24, Lib.word4_or, BitVec.ofNat_eq_ofNat, hones,
      BitVec.and_zero, BitVec.or_zero, BitVec.zero_or]

theorem htonl_word4 : htonl o (word4 a b c d) = o.word a b c d := by
  cases o with
  | big => rfl
  | little => exact htonl_word .little d c b a

/-- What is loaded. -/
theorem loadWords_eq (b : ℕ → BitVec 8) : loadWords o b = ofBlock (Square.layout.read b) := by
  funext i
  exact htonl_word o _ _ _ _

theorem storedByte_eq (s : Square) (k : ℕ) :
    storedByte o (ofBlock s) k = Square.layout.bytes s k := by
  have hmod : k % 4 < 4 := Nat.mod_lt k (by decide)
  have hrow : Fin.ofNat 4 k = ⟨k % 4, hmod⟩ := rfl
  show o.byte (htonl o (ofBlock s (Fin.ofNat 4 (k / 4)))) (k % 4) =
    s (Fin.ofNat 4 (k / 4)) (Fin.ofNat 4 k)
  rw [hrow, ofBlock, htonl_word4]
  generalize Fin.ofNat 4 (k / 4) = i
  obtain ⟨h0, h1, h2, h3⟩ := ByteOrder.byte_word (o := o) (s i 0) (s i 1) (s i 2) (s i 3)
  obtain h | h | h | h : k % 4 = 0 ∨ k % 4 = 1 ∨ k % 4 = 2 ∨ k % 4 = 3 := by omega
  · simp only [h, h0]; rfl
  · simp only [h, h1]; rfl
  · simp only [h, h2]; rfl
  · simp only [h, h3]; rfl

theorem storeWords_eq (mem : Word → BitVec 8) (p : Word) (s : Square) :
    storeWords o mem p (ofBlock s) = Square.layout.store mem p s := by
  funext x
  rw [storeWords, Lib.Layout.store, storedByte_eq]
  rfl

end Words

/-! ## The loop -/

/-- The body runs once for each whole block. -/
theorem loop_eq {body : Vars → Vars} {s : Vars} {length : ℤ} {n : ℕ}
    (hn : (length / 16).toNat = n) : loop body length s = body^[n] s := by
  have hsize : (blockSize : ℤ) = 16 := rfl
  induction n generalizing length s with
  | zero =>
    rw [loop, hsize, if_neg (by omega)]
    rfl
  | succ n ih =>
    rw [loop, hsize, if_pos (by omega), ih (by omega), Function.iterate_succ_apply]

/-- What is done with a block under a context. -/
def encryptWith (tables : Tables) (ctx : Ctx) (s : Square) : Square :=
  s.encrypt (subByte tables) (keyBlock ctx) (ctx.rounds - 1)

/-- What is done with the words of a block. -/
theorem encrypt_ofBlock (tables : Tables) {ctx : Ctx} (hrounds : 0 < ctx.rounds) (s : Square) :
    encrypt tables ctx (ofBlock s) = ofBlock (encryptWith tables ctx s) :=
  encrypt_eq tables s (Nat.succ_pred_eq_of_pos hrounds).symm

/-- The words of the block in `buf` and the pointers, after `t` blocks of a run. -/
structure Running (f : Square → Square → Square × Square) (mem : Word → BitVec 8) (ctx : Ctx)
    (msg out : Word) (c : Square) (t : ℕ) (s : Vars) : Prop where
  ctx_eq : s.ctx = ctx
  msg_eq : s.msg = msg + BitVec.ofNat 32 (16 * t)
  out_eq : s.out = out + BitVec.ofNat 32 (16 * t)
  walked : Walked Square.layout f mem out msg c t s.mem (columns s.buf)
  kept : ∀ a, 16 * t ≤ (a - out).toNat → s.mem a = mem a

section Runs

variable {o : ByteOrder} {tables : Tables} {f : Square → Square → Square × Square}
  {mem : Word → BitVec 8} {ctx : Ctx} {msg out : Word} {c : Square} {t n : ℕ} {s s' : Vars}

theorem running_init : Running f mem ctx msg out (Square.layout.read ctx.iv) 0
    (init o mem ctx msg out) := by
  refine ⟨rfl, (BitVec.add_zero msg).symm, (BitVec.add_zero out).symm, ?_, fun _ _ => rfl⟩
  show Walked _ _ _ _ _ _ _ mem (columns (loadWords o ctx.iv))
  rw [loadWords_eq, columns_ofBlock]
  exact Lib.walked_zero

/-- A body that stores what `f` makes of the block at `msg`, and carries on the same value. -/
theorem Running.step (h : Running f mem ctx msg out c t s) (hn : 16 * n ≤ 2 ^ 32)
    (hplace : out = msg ∨ Apart out (16 * n) msg (16 * n)) (ht : t < n)
    (hctx : s'.ctx = s.ctx) (hmsg : s'.msg = s.msg + BitVec.ofNat 32 blockSize)
    (hout : s'.out = s.out + BitVec.ofNat 32 blockSize)
    (hbuf : columns s'.buf = (f (columns s.buf) (Square.layout.load s.mem s.msg)).1)
    (hmem : s'.mem = Square.layout.store s.mem s.out
      (f (columns s.buf) (Square.layout.load s.mem s.msg)).2) :
    Running f mem ctx msg out c (t + 1) s' := by
  have hnext : ∀ p : Word, p + BitVec.ofNat 32 (16 * t) + BitVec.ofNat 32 blockSize =
      p + BitVec.ofNat 32 (16 * (t + 1)) := by
    intro p
    rw [BitVec.add_assoc, ← BitVec.ofNat_add]
    rfl
  rw [h.msg_eq] at hmsg hbuf hmem
  rw [h.out_eq] at hout hmem
  refine ⟨hctx.trans h.ctx_eq, hmsg.trans (hnext msg), hout.trans (hnext out),
    h.walked.step hn hplace ht hbuf ?_ ?_, fun a ha => ?_⟩
  · rw [blocks, hmem]
    exact Lib.Layout.load_store (by decide)
  · intro a ha _
    rw [hmem, Lib.Layout.store_outside (Nat.le_of_not_lt ha)]
  · rw [hmem, Lib.Layout.store_outside, h.kept a (by omega)]
    refine Nat.le_of_not_lt fun hlt => ?_
    have := ((Lib.toNat_sub_offset_lt (by omega)).mp hlt).2
    omega

theorem Running.encryptBody
    (h : Running (Square.chainEncrypt (encryptWith tables ctx)) mem ctx msg out c t s)
    (hrounds : 0 < ctx.rounds) (hn : 16 * n ≤ 2 ^ 32)
    (hplace : out = msg ∨ Apart out (16 * n) msg (16 * n)) (ht : t < n) :
    Running (Square.chainEncrypt (encryptWith tables ctx)) mem ctx msg out c (t + 1)
      (encryptBody o tables s) := by
  have hsum : (fun i => loadWords o (fun k => s.mem (s.msg + BitVec.ofNat 32 k)) i ^^^ s.buf i) =
      ofBlock ((Square.layout.load s.mem s.msg).addKey (columns s.buf)) := by
    funext i
    rw [loadWords_eq, ← ofBlock_xor, ofBlock_columns]
    rfl
  have hbuf : (AesLite.encryptBody o tables s).buf = ofBlock (encryptWith tables ctx
      ((Square.layout.load s.mem s.msg).addKey (columns s.buf))) := by
    rw [← encrypt_ofBlock tables hrounds, ← hsum, ← h.ctx_eq]
    rfl
  refine h.step hn hplace ht rfl rfl rfl ?_ ?_
  · rw [hbuf, columns_ofBlock]
    rfl
  · show storeWords o s.mem s.out (AesLite.encryptBody o tables s).buf = _
    rw [hbuf, storeWords_eq]
    rfl

theorem Running.decryptBody {decryptWith : Square → Square}
    (hdecrypt : ∀ b, decrypt tables ctx (ofBlock b) = ofBlock (decryptWith b))
    (h : Running (Square.chainDecrypt decryptWith) mem ctx msg out c t s) (hn : 16 * n ≤ 2 ^ 32)
    (hplace : out = msg ∨ Apart out (16 * n) msg (16 * n)) (ht : t < n) :
    Running (Square.chainDecrypt decryptWith) mem ctx msg out c (t + 1)
      (decryptBody o tables s) := by
  have htin : (AesLite.decryptBody o tables s).buf = ofBlock (Square.layout.load s.mem s.msg) :=
    loadWords_eq o _
  have hsum : (fun i => decrypt tables s.ctx (AesLite.decryptBody o tables s).buf i ^^^ s.buf i) =
      ofBlock ((decryptWith (Square.layout.load s.mem s.msg)).addKey (columns s.buf)) := by
    funext i
    rw [htin, h.ctx_eq, hdecrypt, ← ofBlock_xor, ofBlock_columns]
  refine h.step hn hplace ht rfl rfl rfl ?_ ?_
  · rw [htin, columns_ofBlock]
    rfl
  · show storeWords o s.mem s.out
      (fun i => decrypt tables s.ctx (AesLite.decryptBody o tables s).buf i ^^^ s.buf i) = _
    rw [hsum, storeWords_eq]
    rfl

variable (o tables mem) in
theorem running_encrypt (hrounds : 0 < ctx.rounds) (hn : 16 * n ≤ 2 ^ 32)
    (hplace : out = msg ∨ Apart out (16 * n) msg (16 * n)) (ht : t ≤ n) :
    Running (Square.chainEncrypt (encryptWith tables ctx)) mem ctx msg out
      (Square.layout.read ctx.iv) t ((encryptBody o tables)^[t] (init o mem ctx msg out)) := by
  induction t with
  | zero => exact running_init
  | succ t ih =>
    rw [Function.iterate_succ_apply']
    exact (ih (Nat.le_of_succ_le ht)).encryptBody hrounds hn hplace ht

variable (o mem) in
theorem running_decrypt {decryptWith : Square → Square}
    (hdecrypt : ∀ b, decrypt tables ctx (ofBlock b) = ofBlock (decryptWith b))
    (hn : 16 * n ≤ 2 ^ 32) (hplace : out = msg ∨ Apart out (16 * n) msg (16 * n)) (ht : t ≤ n) :
    Running (Square.chainDecrypt decryptWith) mem ctx msg out (Square.layout.read ctx.iv) t
      ((decryptBody o tables)^[t] (init o mem ctx msg out)) := by
  induction t with
  | zero => exact running_init
  | succ t ih =>
    rw [Function.iterate_succ_apply']
    exact (ih (Nat.le_of_succ_le ht)).decryptBody hdecrypt hn hplace ht

/-- The last block is where the pointer was before. -/
theorem Running.last (h : Running f mem ctx msg out c (t + 1) s) {k : ℕ} (hk : k < 16) :
    s.mem (s.out - BitVec.ofNat 32 blockSize + BitVec.ofNat 32 k) =
      Square.layout.bytes (blocks Square.layout s.mem out t) k := by
  have hlast : s.out - BitVec.ofNat 32 blockSize = out + BitVec.ofNat 32 (16 * t) := by
    rw [h.out_eq, Nat.mul_succ, BitVec.ofNat_add, ← BitVec.add_assoc]
    exact BitVec.add_sub_cancel ..
  rw [hlast, blocks, Lib.Layout.load, Square.layout.bytes_read _ _ hk]

variable (o tables mem) in
/-- What `AES_cbc_encrypt` leaves. -/
theorem exists_encrypted {length : ℤ} (hrounds : 0 < ctx.rounds) (hn : 16 * n ≤ 2 ^ 32)
    (hplace : out = msg ∨ Apart out (16 * n) msg (16 * n)) (hlen : (length / 16).toNat = n) :
    ∃ s, cbcEncrypt o tables mem ctx msg out length = (s.mem, { s.ctx with
        iv := fun k => if k < blockSize then
          s.mem (s.out - BitVec.ofNat 32 blockSize + BitVec.ofNat 32 k) else s.ctx.iv k }) ∧
      Running (Square.chainEncrypt (encryptWith tables ctx)) mem ctx msg out
        (Square.layout.read ctx.iv) n s := by
  refine ⟨_, ?_, running_encrypt o tables mem hrounds hn hplace le_rfl⟩
  rw [cbcEncrypt, loop_eq hlen]

variable (o mem) in
/-- What `AES_cbc_decrypt` leaves. -/
theorem exists_decrypted {length : ℤ} {decryptWith : Square → Square}
    (hdecrypt : ∀ b, decrypt tables ctx (ofBlock b) = ofBlock (decryptWith b))
    (hn : 16 * (n + 1) ≤ 2 ^ 32)
    (hplace : out = msg ∨ Apart out (16 * (n + 1)) msg (16 * (n + 1)))
    (hlen : (length / 16).toNat = n + 1) :
    ∃ s, cbcDecrypt o tables mem ctx msg out length = (s.mem, { s.ctx with
        iv := fun k => if k < blockSize then storedByte o s.tin k else s.ctx.iv k }) ∧
      s.tin = s.buf ∧ Running (Square.chainDecrypt decryptWith) mem ctx msg out
        (Square.layout.read ctx.iv) (n + 1) s := by
  refine ⟨_, ?_, ?_, running_decrypt o mem hdecrypt hn hplace le_rfl⟩
  · rw [cbcDecrypt, loop_eq hlen]
  · rw [Function.iterate_succ_apply']
    rfl

end Runs

/-! ## Messages in parts -/

section Parts

variable {o : ByteOrder} {tables : Tables} {mem : Word → BitVec 8} {ctx : Ctx} {msg out : Word}
  {body : Vars → Vars} {s : Vars} {iv : ℕ → BitVec 8} {t a b : ℕ}

/-- The variables with another vector in the context. -/
def Vars.withIv (s : Vars) (iv : ℕ → BitVec 8) : Vars := { s with ctx := { s.ctx with iv := iv } }

/-- What a function leaves, with `g` as the vector. -/
def ending (g : Vars → ℕ → BitVec 8) (s : Vars) : (Word → BitVec 8) × Ctx :=
  (s.mem, { s.ctx with iv := fun k => if k < blockSize then g s k else s.ctx.iv k })

/-- The block behind `out`. -/
def lastStored (s : Vars) (k : ℕ) : BitVec 8 :=
  s.mem (s.out - BitVec.ofNat 32 blockSize + BitVec.ofNat 32 k)

theorem cbcEncrypt_eq {length : ℤ} (hn : (length / 16).toNat = t) :
    cbcEncrypt o tables mem ctx msg out length =
      ending lastStored ((encryptBody o tables)^[t] (init o mem ctx msg out)) := by
  rw [cbcEncrypt, loop_eq hn]
  rfl

theorem cbcDecrypt_eq {length : ℤ} (hn : (length / 16).toNat = t) :
    cbcDecrypt o tables mem ctx msg out length = ending (fun s => storedByte o s.tin)
      ((decryptBody o tables)^[t] (init o mem ctx msg out)) := by
  rw [cbcDecrypt, loop_eq hn]
  rfl

/-- What a body does with the pointers and the context. -/
structure Advances (body : Vars → Vars) : Prop where
  msg : ∀ s, (body s).msg = s.msg + BitVec.ofNat 32 blockSize
  out : ∀ s, (body s).out = s.out + BitVec.ofNat 32 blockSize
  ctx : ∀ s, (body s).ctx = s.ctx
  withIv : ∀ s iv, body (s.withIv iv) = (body s).withIv iv

theorem encryptBody_advances : Advances (encryptBody o tables) :=
  ⟨fun _ => rfl, fun _ => rfl, fun _ => rfl, fun _ _ => rfl⟩

theorem decryptBody_advances : Advances (decryptBody o tables) :=
  ⟨fun _ => rfl, fun _ => rfl, fun _ => rfl, fun _ _ => rfl⟩

namespace Advances

variable (h : Advances body)

include h

theorem iterate : (body^[t] s).msg = s.msg + BitVec.ofNat 32 (16 * t) ∧
    (body^[t] s).out = s.out + BitVec.ofNat 32 (16 * t) ∧ (body^[t] s).ctx = s.ctx := by
  induction t with
  | zero => exact ⟨(BitVec.add_zero _).symm, (BitVec.add_zero _).symm, rfl⟩
  | succ t ih =>
    obtain ⟨hmsg, hout, hctx⟩ := ih
    rw [Function.iterate_succ_apply', h.msg, h.out, h.ctx, hmsg, hout, hctx, BitVec.add_assoc,
      BitVec.add_assoc, ← BitVec.ofNat_add]
    exact ⟨rfl, rfl, rfl⟩

/-- The vector in the context makes no difference to a run. -/
theorem iterate_withIv : body^[t] (s.withIv iv) = (body^[t] s).withIv iv := by
  induction t with
  | zero => rfl
  | succ t ih => rw [Function.iterate_succ_apply', Function.iterate_succ_apply', ih, h.withIv]

/-- A call that goes on from where a call has stopped, where its first block does not notice. -/
theorem continued {g : Vars → ℕ → BitVec 8} (hg : ∀ s iv, g (s.withIv iv) = g s) (hb : 0 < b)
    (hbody : ∀ iv, (∀ k < 16, iv k = g (body^[a] s) k) →
      body (init o (body^[a] s).mem { (body^[a] s).ctx with iv := iv } (body^[a] s).msg
        (body^[a] s).out) = (body (body^[a] s)).withIv iv) :
    ending g (body^[b] (init o (ending g (body^[a] s)).1 (ending g (body^[a] s)).2
      (s.msg + BitVec.ofNat 32 (16 * a)) (s.out + BitVec.ofNat 32 (16 * a)))) =
      ending g (body^[a + b] s) := by
  obtain ⟨hmsg, hout, hctx⟩ := h.iterate (s := s) (t := a)
  obtain ⟨-, -, hctx'⟩ := h.iterate (s := s) (t := a + b)
  have hvector : ∀ k, blockSize ≤ k → (ending g (body^[a] s)).2.iv k = s.ctx.iv k := by
    intro k hk
    rw [← hctx]
    exact if_neg (Nat.not_lt.mpr hk)
  have hrun : body^[b] (init o (ending g (body^[a] s)).1 (ending g (body^[a] s)).2
      (s.msg + BitVec.ofNat 32 (16 * a)) (s.out + BitVec.ofNat 32 (16 * a))) =
      (body^[a + b] s).withIv (ending g (body^[a] s)).2.iv := by
    obtain ⟨b, rfl⟩ := Nat.exists_eq_succ_of_ne_zero (Nat.ne_of_gt hb)
    rw [← hmsg, ← hout, Function.iterate_succ_apply, Nat.add_comm a, Function.iterate_add_apply,
      Function.iterate_succ_apply, ← h.iterate_withIv]
    exact congrArg _ (hbody _ fun k hk => if_pos hk)
  rw [hrun, ending, hg]
  refine Prod.ext rfl (Ctx.ext rfl rfl rfl ?_)
  funext k
  show (if k < blockSize then _ else (ending g (body^[a] s)).2.iv k) =
    if k < blockSize then _ else (body^[a + b] s).ctx.iv k
  split
  · rfl
  · next hk => rw [hvector k (Nat.le_of_not_lt hk), hctx']

end Advances

theorem tin_encrypt : ((encryptBody o tables)^[t] s).tin = s.tin := by
  induction t with
  | zero => rfl
  | succ t ih =>
    rw [Function.iterate_succ_apply', ← ih]
    rfl

/-- The last block that was encrypted is the vector of the next one. -/
theorem encryptBody_resumed (ha : 0 < a)
    (hiv : ∀ k < 16, iv k = lastStored ((encryptBody o tables)^[a] s) k) :
    loadWords o iv = ((encryptBody o tables)^[a] s).buf := by
  obtain ⟨a, rfl⟩ := Nat.exists_eq_succ_of_ne_zero (Nat.ne_of_gt ha)
  rw [Function.iterate_succ_apply'] at hiv ⊢
  generalize (encryptBody o tables)^[a] s = s at hiv ⊢
  have hout : (encryptBody o tables s).out - BitVec.ofNat 32 blockSize = s.out :=
    BitVec.add_sub_cancel ..
  have hmem : (encryptBody o tables s).mem =
      Square.layout.store s.mem s.out (columns (encryptBody o tables s).buf) := by
    rw [← storeWords_eq o, ofBlock_columns]
    rfl
  have hread : Square.layout.read iv = columns (encryptBody o tables s).buf := by
    have hload : Square.layout.load (encryptBody o tables s).mem s.out =
        columns (encryptBody o tables s).buf := by
      rw [hmem]
      exact Lib.Layout.load_store (by decide)
    rw [← hload]
    refine Square.layout.read_congr fun k hk => ?_
    rw [hiv k hk, lastStored, hout]
  rw [loadWords_eq, hread, ofBlock_columns]

theorem decryptBody_resumed (ha : 0 < a)
    (hiv : ∀ k < 16, iv k = storedByte o ((decryptBody o tables)^[a] s).tin k) :
    loadWords o iv = ((decryptBody o tables)^[a] s).buf := by
  obtain ⟨a, rfl⟩ := Nat.exists_eq_succ_of_ne_zero (Nat.ne_of_gt ha)
  rw [Function.iterate_succ_apply'] at hiv ⊢
  generalize (decryptBody o tables)^[a] s = s at hiv ⊢
  have hread : Square.layout.read iv = columns (decryptBody o tables s).tin := by
    rw [← Square.layout.read_bytes (columns (decryptBody o tables s).tin)]
    refine Square.layout.read_congr fun k hk => ?_
    rw [hiv k hk, ← storedByte_eq, ofBlock_columns]
  rw [loadWords_eq, hread, ofBlock_columns]
  rfl

end Parts

/-! ## The generated tables -/

theorem subByte_generated : subByte (generateSBox zeroed) = AesTiny.getSBoxValue := by
  rw [generateSBox_zeroed]
  rfl

theorem unsubByte_generated : unsubByte (generateSBox zeroed) = AesTiny.getSBoxInvert := by
  rw [generateSBox_zeroed]
  rfl

/-- What is encrypted under a key is decrypted under the same key, set in another context. -/
theorem decrypt_encryptWith (o : ByteOrder) (mode : Mode) (ctx ctx' : Ctx)
    (key iv : ℕ → BitVec 8) (s : Square) :
    (encryptWith (generateSBox zeroed) (setKey (generateSBox zeroed) o ctx key iv mode) s).decrypt
      (unsubByte (generateSBox zeroed))
      (keyBlock (setKey (generateSBox zeroed) o ctx' key iv mode)) mode.last = s := by
  rw [encryptWith, rounds_setKey, Nat.add_sub_cancel,
    Square.encrypt_congr s fun r hr => keyBlock_setKey _ o ctx ctx' key iv mode hr,
    Square.decrypt_encrypt]
  rw [subByte_generated, unsubByte_generated]
  exact AesTiny.getSBoxInvert_getSBoxValue

end HfRisc.Soft.AesLite

namespace HfRisc.Results

open HfRisc.Lib (Apart Square)
open HfRisc.Soft HfRisc.Soft.AesLite

/-- For both sizes of keys, every message, key and vector, every machine and whatever the contexts
were: what is encrypted, in place or not, comes back where it is decrypted with the converted key,
in place or not, up to the last whole block. Both leave the same vector, and write nothing else. -/
theorem aes_lite_round_trip (o : ByteOrder) (mode : Mode) (ctx ctx' : Ctx) (key iv : ℕ → BitVec 8)
    (mem : Word → BitVec 8) (src mid dst : Word) (length : ℤ) (hpos : 16 ≤ length)
    (hlen : length < 2 ^ 31) (hencrypt : mid = src ∨ Apart mid length.toNat src length.toNat)
    (hdecrypt : dst = mid ∨ Apart dst length.toNat mid length.toNat) :
    let tables := generateSBox zeroed
    let encrypted := cbcEncrypt o tables mem (setKey tables o ctx key iv mode) src mid length
    let decrypted := cbcDecrypt o tables encrypted.1
      (convertKey (setKey tables o ctx' key iv mode)) mid dst length
    (∀ i < 16 * (length / 16).toNat,
      decrypted.1 (dst + BitVec.ofNat 32 i) = mem (src + BitVec.ofNat 32 i)) ∧
    (∀ k < 16, decrypted.2.iv k = encrypted.2.iv k) ∧
    ∀ a, length.toNat ≤ (a - mid).toNat → length.toNat ≤ (a - dst).toNat →
      decrypted.1 a = mem a := by
  intro tables encrypted decrypted
  obtain ⟨n, hn⟩ : ∃ n, (length / 16).toNat = n + 1 :=
    ⟨(length / 16).toNat - 1, by omega⟩
  have hfit : 16 * (n + 1) ≤ length.toNat := by omega
  have hplace : ∀ {p q : Word}, p = q ∨ Apart p length.toNat q length.toNat →
      p = q ∨ Apart p (16 * (n + 1)) q (16 * (n + 1)) :=
    fun h => h.imp_right fun hapart => hapart.mono hfit hfit
  have hrounds : ∀ ctx, (setKey tables o ctx key iv mode).rounds = mode.last + 1 :=
    fun ctx => rounds_setKey tables o ctx key iv mode
  -- the two runs
  obtain ⟨s, hs, hto⟩ := exists_encrypted o tables mem
    (show 0 < (setKey tables o ctx key iv mode).rounds by rw [hrounds]; omega)
    (show 16 * (n + 1) ≤ 2 ^ 32 by omega) (hplace hencrypt) hn
  obtain ⟨s', hs', htin, hback⟩ := exists_decrypted o s.mem
    (decrypt_convertKey tables (hrounds ctx')) (show 16 * (n + 1) ≤ 2 ^ 32 by omega)
    (hplace hdecrypt) hn
  have hmem : encrypted.1 = s.mem := congrArg Prod.fst hs
  have hdecrypted := hs'
  rw [← hmem] at hdecrypted
  have hmem' : decrypted.1 = s'.mem := congrArg Prod.fst hdecrypted
  have hiv : Square.layout.read (convertKey (setKey tables o ctx' key iv mode)).iv =
      Square.layout.read (setKey tables o ctx key iv mode).iv :=
    Square.layout.read_congr fun k hk =>
      (iv_setKey tables o ctx' key iv mode hk).trans (iv_setKey tables o ctx key iv mode hk).symm
  rw [hiv] at hback
  refine ⟨fun i hi => ?_, fun k hk => ?_, fun a ha ha' => ?_⟩
  · have hundoes : Lib.Undoes
        (Square.chainDecrypt fun b =>
          b.decrypt (unsubByte tables) (keyBlock (setKey tables o ctx' key iv mode)) mode.last)
        (Square.chainEncrypt (encryptWith tables (setKey tables o ctx key iv mode))) :=
      Square.chainDecrypt_undoes fun b => decrypt_encryptWith o mode ctx ctx' key iv b
    rw [hn] at hi
    rw [hmem']
    exact Lib.byte_of_blocks (fun t ht => hto.walked.back hundoes hback.walked ht) hi
  · have hvector : encrypted.2.iv k =
        s.mem (s.out - BitVec.ofNat 32 blockSize + BitVec.ofNat 32 k) :=
      (congrArg (fun r => r.2.iv k) hs).trans (if_pos hk)
    have hvector' : decrypted.2.iv k = storedByte o s'.tin k :=
      (congrArg (fun r => r.2.iv k) hdecrypted).trans (if_pos hk)
    rw [hvector, hvector', hto.last hk, htin, ← ofBlock_columns s'.buf, storedByte_eq,
      hback.walked.carried]
    rfl
  · rw [hmem', hback.kept a (Nat.le_trans hfit ha'), hto.kept a (Nat.le_trans hfit ha)]

theorem aes_lite_round_trip_place :
    let tables := generateSBox zeroed
    let encrypted := cbcEncrypt .little tables (BitVec.setWidth 8)
      (setKey tables .little ⟨0, 0, 0, 0⟩ (BitVec.ofNat 8) (BitVec.ofNat 8) .mode256)
      0x40001000 0x40001000 70
    let decrypted := cbcDecrypt .little tables encrypted.1
      (convertKey (setKey tables .little encrypted.2 (BitVec.ofNat 8) (BitVec.ofNat 8) .mode256))
      0x40001000 0x40001000 70
    (∀ i < 16 * ((70 : ℤ) / 16).toNat, decrypted.1 (0x40001000 + BitVec.ofNat 32 i) =
      (0x40001000 + BitVec.ofNat 32 i).setWidth 8) ∧
    (∀ k < 16, decrypted.2.iv k = encrypted.2.iv k) ∧
    ∀ a : Word, (70 : ℤ).toNat ≤ (a - 0x40001000).toNat →
      (70 : ℤ).toNat ≤ (a - 0x40001000).toNat → decrypted.1 a = a.setWidth 8 :=
  aes_lite_round_trip .little .mode256 ⟨0, 0, 0, 0⟩ _ (BitVec.ofNat 8) (BitVec.ofNat 8)
    (BitVec.setWidth 8) 0x40001000 0x40001000 0x40001000 70 (by decide) (by decide) (.inl rfl)
    (.inl rfl)

/-- A message may be given in parts: a call for blocks and a call for what follows them do what one
call does, with the memory and the context. -/
theorem aes_lite_continued (o : ByteOrder) (tables : Tables) (mem : Word → BitVec 8) (ctx : Ctx)
    (msg out : Word) (a : ℕ) (rest : ℤ) (ha : 0 < a) (hrest : 16 ≤ rest) :
    (cbcEncrypt o tables mem ctx msg out (16 * a + rest) =
      let first := cbcEncrypt o tables mem ctx msg out (16 * a)
      cbcEncrypt o tables first.1 first.2 (msg + BitVec.ofNat 32 (16 * a))
        (out + BitVec.ofNat 32 (16 * a)) rest) ∧
    (cbcDecrypt o tables mem ctx msg out (16 * a + rest) =
      let first := cbcDecrypt o tables mem ctx msg out (16 * a)
      cbcDecrypt o tables first.1 first.2 (msg + BitVec.ofNat 32 (16 * a))
        (out + BitVec.ofNat 32 (16 * a)) rest) := by
  have hfirst : (16 * (a : ℤ) / 16).toNat = a := by omega
  have hall : ((16 * (a : ℤ) + rest) / 16).toNat = a + (rest / 16).toNat := by omega
  have hpos : 0 < (rest / 16).toNat := by omega
  constructor
  · rw [cbcEncrypt_eq hall, cbcEncrypt_eq hfirst]
    dsimp only
    rw [cbcEncrypt_eq rfl]
    refine (encryptBody_advances.continued (s := init o mem ctx msg out) (fun _ _ => rfl) hpos
      fun iv hiv => ?_).symm
    rw [← encryptBody_advances.withIv]
    have htin : ((encryptBody o tables)^[a] (init o mem ctx msg out)).tin = fun _ => 0 :=
      tin_encrypt
    exact congrArg _ (Vars.ext rfl rfl rfl rfl (encryptBody_resumed ha hiv) htin.symm)
  · rw [cbcDecrypt_eq hall, cbcDecrypt_eq hfirst]
    dsimp only
    rw [cbcDecrypt_eq rfl]
    refine (decryptBody_advances.continued (s := init o mem ctx msg out) (fun _ _ => rfl) hpos
      fun iv hiv => ?_).symm
    rw [← decryptBody_advances.withIv]
    -- `tin` is not read before it gets a value
    have hinit : init o ((decryptBody o tables)^[a] (init o mem ctx msg out)).mem
        { ((decryptBody o tables)^[a] (init o mem ctx msg out)).ctx with iv := iv }
        ((decryptBody o tables)^[a] (init o mem ctx msg out)).msg
        ((decryptBody o tables)^[a] (init o mem ctx msg out)).out =
        { ((decryptBody o tables)^[a] (init o mem ctx msg out)).withIv iv with
          tin := fun _ => 0 } :=
      Vars.ext rfl rfl rfl rfl (decryptBody_resumed ha hiv) rfl
    rw [hinit]
    rfl

theorem aes_lite_continued_blocks :
    (cbcEncrypt .little (generateSBox zeroed) (BitVec.setWidth 8) ⟨10, 4, 0, 0⟩ 0x40001000
        0x40001000 (16 * (1 : ℕ) + 48) =
      let first := cbcEncrypt .little (generateSBox zeroed) (BitVec.setWidth 8) ⟨10, 4, 0, 0⟩
        0x40001000 0x40001000 (16 * (1 : ℕ))
      cbcEncrypt .little (generateSBox zeroed) first.1 first.2
        (0x40001000 + BitVec.ofNat 32 (16 * 1)) (0x40001000 + BitVec.ofNat 32 (16 * 1)) 48) ∧
    (cbcDecrypt .little (generateSBox zeroed) (BitVec.setWidth 8) ⟨10, 4, 0, 0⟩ 0x40001000
        0x40001000 (16 * (1 : ℕ) + 48) =
      let first := cbcDecrypt .little (generateSBox zeroed) (BitVec.setWidth 8) ⟨10, 4, 0, 0⟩
        0x40001000 0x40001000 (16 * (1 : ℕ))
      cbcDecrypt .little (generateSBox zeroed) first.1 first.2
        (0x40001000 + BitVec.ofNat 32 (16 * 1)) (0x40001000 + BitVec.ofNat 32 (16 * 1)) 48) :=
  aes_lite_continued .little (generateSBox zeroed) (BitVec.setWidth 8) ⟨10, 4, 0, 0⟩ 0x40001000
    0x40001000 1 48 (by decide) (by decide)

end HfRisc.Results
