import HfRisc.Soft.XteaCbc

/-!
# The CBC round trip

The loop runs once for every 8 bytes begun, so a message of whole blocks goes through it and
comes back. The rest of a message that ends within a block is taken for a block too, and then
once more behind the loop.
-/

namespace HfRisc.Soft.XteaCbc

open HfRisc.Lib (carried chained)

/-! ## Addresses -/

section Addresses

variable {a p : Word} {j n : ℕ}

theorem mem_span (h : n ≤ 2 ^ 32) : a ∈ span p n ↔ (a - p).toNat < n := by
  rw [span, List.mem_map]
  constructor
  · rintro ⟨k, hk, rfl⟩
    rw [Lib.toNat_offset (by have := List.mem_range.mp hk; omega)]
    exact List.mem_range.mp hk
  · intro hlt
    exact ⟨(a - p).toNat, List.mem_range.mpr hlt, Lib.eq_offset.symm⟩

/-- A pointer moves on to the next block. -/
theorem advance_offset (p : Word) (t : ℕ) :
    p + BitVec.ofNat 32 (8 * t) + BitVec.ofNat 32 blockLen = p + BitVec.ofNat 32 (8 * (t + 1)) := by
  rw [BitVec.add_assoc, ← BitVec.ofNat_add]
  rfl

/-- The addresses of block `t`. -/
theorem span_lt {t : ℕ} (ht : 8 * (t + 1) ≤ 2 ^ 32)
    (ha : a ∈ span (p + BitVec.ofNat 32 (8 * t)) blockLen) : (a - p).toNat < 8 * (t + 1) :=
  ((Lib.toNat_sub_offset_lt ht).mp ((mem_span (by decide)).mp ha)).2

end Addresses

/-! ## The loop over whole blocks -/

/-- The two buffers of `n` bytes have no address in common. -/
def Apart (out inp : Word) (n : ℕ) : Prop :=
  ∀ j < n, ∀ k < n, out + BitVec.ofNat 32 j ≠ inp + BitVec.ofNat 32 k

/-- Only `in[0]` to `in[n - 1]` are read and only `out[0]` to `out[n - 1]` are written. -/
structure Within (mem : Word → BitVec 8) (out inp : Word) (n : ℕ) (s : Vars) : Prop where
  reads : ∀ a ∈ s.reads, (a - inp).toNat < n
  writes : ∀ a ∈ s.writes, (a - out).toNat < n
  kept : ∀ a, n ≤ (a - out).toNat → s.mem a = mem a

/-- The blocks from an address on. -/
def blocks (o : ByteOrder) (mem : Word → BitVec 8) (p : Word) (t : ℕ) : Word × Word :=
  o.words fun k => mem (p + BitVec.ofNat 32 (8 * t + k))

variable {o : ByteOrder} {f : Word × Word → Word × Word → (Word × Word) × (Word × Word)}
  {mem : Word → BitVec 8} {out inp len : Word} {iv : Word × Word} {t n : ℕ} {s : Vars}

/-- `t` blocks are done: `out` has the chain of the blocks that were at `in`. -/
structure After (o : ByteOrder)
    (f : Word × Word → Word × Word → (Word × Word) × (Word × Word)) (mem : Word → BitVec 8)
    (out inp : Word) (iv : Word × Word) (t : ℕ) (s : Vars) : Prop
    extends Within mem out inp (8 * t) s where
  inp_eq : s.inp = inp + BitVec.ofNat 32 (8 * t)
  out_eq : s.out = out + BitVec.ofNat 32 (8 * t)
  tiv : s.tiv = carried f iv (blocks o mem inp) t
  written : ∀ a, (a - out).toNat < 8 * t → s.mem a =
    o.bytes (chained f iv (blocks o mem inp) ((a - out).toNat / 8)) ((a - out).toNat % 8)

theorem after_init : After o f mem out inp iv 0 (init mem out inp iv) where
  reads := fun _ ha => absurd ha List.not_mem_nil
  writes := fun _ ha => absurd ha List.not_mem_nil
  kept := fun _ _ => rfl
  inp_eq := (BitVec.add_zero inp).symm
  out_eq := (BitVec.add_zero out).symm
  tiv := rfl
  written := fun _ ha => absurd ha (Nat.not_lt_zero _)

/-- The block that is loaded is still the one that was there. -/
theorem After.load (h : After o f mem out inp iv t s) (ht : 8 * (t + 1) ≤ n) (hn : n ≤ 2 ^ 32)
    (hplace : out = inp ∨ Apart out inp n) : (s.load o blockLen).block = blocks o mem inp t := by
  rw [Vars.load, blocks]
  dsimp only
  refine ByteOrder.words_congr fun k hk => ?_
  have haddress : s.inp + BitVec.ofNat 32 k = inp + BitVec.ofNat 32 (8 * t + k) := by
    rw [h.inp_eq, BitVec.add_assoc, ← BitVec.ofNat_add]
  rw [if_pos (show k < blockLen from hk), haddress]
  refine h.kept _ (Nat.le_of_not_lt fun hlt => ?_)
  rcases hplace with rfl | hapart
  · rw [Lib.toNat_offset (by omega)] at hlt
    omega
  · exact hapart _ (by omega) (8 * t + k) (by omega) Lib.eq_offset.symm

/-- What the body does with a block and where. -/
theorem After.body_eq (h : After o f mem out inp iv t s) (ht : 8 * (t + 1) ≤ n)
    (hn : n ≤ 2 ^ 32) (hplace : out = inp ∨ Apart out inp n) :
    body o f s =
      { mem := fun a => if (a - s.out).toNat < blockLen then
          o.bytes (chained f iv (blocks o mem inp) t) (a - s.out).toNat else s.mem a
        reads := s.reads ++ span s.inp blockLen
        writes := s.writes ++ span s.out blockLen
        inp := s.inp + BitVec.ofNat 32 blockLen
        out := s.out + BitVec.ofNat 32 blockLen
        block := chained f iv (blocks o mem inp) t
        tiv := carried f iv (blocks o mem inp) (t + 1) } := by
  have hchain : f s.tiv (s.load o blockLen).block =
      (carried f iv (blocks o mem inp) (t + 1), chained f iv (blocks o mem inp) t) := by
    rw [h.tiv, h.load ht hn hplace]
    rfl
  have htiv : (f (s.load o blockLen).tiv (s.load o blockLen).block).1 =
      carried f iv (blocks o mem inp) (t + 1) := congrArg Prod.fst hchain
  have hblock : (f (s.load o blockLen).tiv (s.load o blockLen).block).2 =
      chained f iv (blocks o mem inp) t := congrArg Prod.snd hchain
  rw [body, Vars.chain, htiv, hblock]
  rfl

theorem After.body (h : After o f mem out inp iv t s) (ht : 8 * (t + 1) ≤ n) (hn : n ≤ 2 ^ 32)
    (hplace : out = inp ∨ Apart out inp n) :
    After o f mem out inp iv (t + 1) (body o f s) := by
  have hplaced : ∀ a, (a - s.out).toNat < blockLen ↔
      8 * t ≤ (a - out).toNat ∧ (a - out).toNat < 8 * (t + 1) := fun a => by
    rw [h.out_eq, blockLen, Lib.toNat_sub_offset_lt (by omega)]
    rfl
  rw [h.body_eq ht hn hplace]
  refine ⟨⟨fun a ha => ?_, fun a ha => ?_, fun a ha => ?_⟩, ?_, ?_, rfl, fun a ha => ?_⟩
  · rcases List.mem_append.mp ha with hold | hread
    · exact Nat.lt_of_lt_of_le (h.reads a hold) (by omega)
    · rw [h.inp_eq] at hread
      exact span_lt (by omega) hread
  · rcases List.mem_append.mp ha with hold | hwritten
    · exact Nat.lt_of_lt_of_le (h.writes a hold) (by omega)
    · rw [h.out_eq] at hwritten
      exact span_lt (by omega) hwritten
  · show (if _ then _ else _) = _
    rw [if_neg (fun hlt => by have := (hplaced a).mp hlt; omega)]
    exact h.kept a (by omega)
  · rw [h.inp_eq, advance_offset]
  · rw [h.out_eq, advance_offset]
  · show (if _ then _ else _) = _
    rcases Nat.lt_or_ge (a - out).toNat (8 * t) with hlt | hge
    · -- a block written before
      rw [if_neg (fun hin => by have := (hplaced a).mp hin; omega)]
      exact h.written a hlt
    · have hinside : (a - s.out).toNat = (a - out).toNat - 8 * t := by
        rw [h.out_eq, Lib.toNat_sub_offset hge]
      have hdiv : (a - out).toNat / 8 = t := by omega
      have hmod : (a - out).toNat % 8 = (a - out).toNat - 8 * t := by omega
      rw [if_pos ((hplaced a).mpr ⟨hge, ha⟩), hinside, hdiv, hmod]

/-- The rest of the loop, for a length of whole blocks. -/
theorem After.loop {fuel : ℕ} (h : After o f mem out inp iv t s) (hlen : 8 * n = len.toNat)
    (ht : t ≤ n) (hfuel : n - t < fuel) (hplace : out = inp ∨ Apart out inp len.toNat) :
    ∃ s', loop o f len fuel (BitVec.ofNat 32 (8 * t)) s = some s' ∧
      After o f mem out inp iv n s' := by
  have hlt := len.isLt
  have hindex : BitVec.ofNat 32 (8 * t) < len ↔ t < n := by
    rw [BitVec.lt_def, BitVec.toNat_ofNat]
    omega
  induction fuel generalizing t s with
  | zero => exact absurd hfuel (Nat.not_lt_zero _)
  | succ fuel ih =>
    rw [XteaCbc.loop]
    rcases Nat.lt_or_eq_of_le ht with hless | rfl
    · rw [if_pos (hindex.mpr hless), blockLen, ← BitVec.ofNat_add, ← Nat.mul_succ]
      refine ih (h.body (by omega) (Nat.le_of_lt hlt) hplace) hless (by omega) ?_
      rw [BitVec.lt_def, BitVec.toNat_ofNat]
      omega
    · rw [if_neg (fun hless => Nat.lt_irrefl _ (hindex.mp hless))]
      exact ⟨s, rfl, h⟩

/-- A function on a message of whole blocks. -/
theorem cbc_blocks (g : Word × Word → Word × Word → (Word × Word) × (Word × Word))
    (mem : Word → BitVec 8) (iv : Word × Word) (hlen : 8 * n = len.toNat)
    (hplace : out = inp ∨ Apart out inp len.toNat) :
    ∃ s, cbc o f g (n + 1) mem out inp len iv = some s ∧ After o f mem out inp iv n s := by
  have hrem : len.toNat % blockLen = 0 := by
    rw [← hlen]
    exact Nat.mul_mod_right 8 n
  have hinit : After o f mem out inp iv 0 (init mem out inp iv) := after_init
  obtain ⟨s, hloop, hafter⟩ := hinit.loop hlen (Nat.zero_le n) (Nat.lt_succ_self n) hplace
  refine ⟨s, ?_, hafter⟩
  have hstart : BitVec.ofNat 32 (8 * 0) = 0 := rfl
  rw [hstart] at hloop
  rw [cbc, hloop, hrem]
  rfl

/-! ## The loop over a part of a block -/

theorem reads_loop {fuel : ℕ} {i : Word} {s' : Vars} (h : loop o f len fuel i s = some s')
    {a : Word} (ha : a ∈ s.reads) : a ∈ s'.reads := by
  induction fuel generalizing i s with
  | zero => cases h
  | succ fuel ih =>
    rw [loop] at h
    split at h
    · exact ih h (List.mem_append_left _ ha)
    · cases h
      exact ha

/-- Where the message ends within a block, the loop reads the block to its end. -/
theorem reads_last {fuel : ℕ} {s' : Vars} (hlen : ¬8 ∣ len.toNat) (ht : t ≤ len.toNat / 8)
    (hinp : s.inp = inp + BitVec.ofNat 32 (8 * t))
    (h : loop o f len fuel (BitVec.ofNat 32 (8 * t)) s = some s') :
    inp + BitVec.ofNat 32 (8 * (len.toNat / 8) + 7) ∈ s'.reads := by
  have hlt := len.isLt
  have hless : BitVec.ofNat 32 (8 * t) < len := by
    rw [BitVec.lt_def, BitVec.toNat_ofNat]
    omega
  induction fuel generalizing t s with
  | zero => cases h
  | succ fuel ih =>
    rw [loop, if_pos hless, blockLen, ← BitVec.ofNat_add, ← Nat.mul_succ] at h
    -- the last block begun is the one with the index below `len` and its end behind it
    rcases Nat.lt_or_eq_of_le ht with hmore | rfl
    · refine ih hmore ?_ h ?_
      · show s.inp + BitVec.ofNat 32 blockLen = _
        rw [hinp, advance_offset]
      · rw [BitVec.lt_def, BitVec.toNat_ofNat]
        omega
    · refine reads_loop h (List.mem_append_right _ (List.mem_map.mpr ⟨7, ?_, ?_⟩))
      · exact List.mem_range.mpr (by decide)
      · rw [hinp, BitVec.add_assoc, ← BitVec.ofNat_add]

/-- A run over a message that ends within a block reads behind its end. -/
theorem not_within {g : Word × Word → Word × Word → (Word × Word) × (Word × Word)} {fuel : ℕ}
    (hlen : ¬8 ∣ len.toNat) (h : cbc o f g fuel mem out inp len iv = some s) :
    ¬Within mem out inp len.toNat s := by
  have hlt := len.isLt
  intro hwithin
  rw [cbc, Option.map_eq_some_iff] at h
  obtain ⟨s', hloop, rfl⟩ := h
  have hread := reads_last (t := 0) hlen (Nat.zero_le _) (BitVec.add_zero inp).symm hloop
  have hinside := hwithin.reads (inp + BitVec.ofNat 32 (8 * (len.toNat / 8) + 7)) (by
    split
    · exact List.mem_append_left _ hread
    · exact hread)
  rw [Lib.toNat_offset (by omega)] at hinside
  omega

end HfRisc.Soft.XteaCbc

namespace HfRisc.Results

open HfRisc.Soft HfRisc.Soft.XteaCbc

/-! ## One block -/

/-- The two functions undo each other, whichever comes first. -/
theorem xtea_block_round_trip (numRounds : ℕ) (key : ℕ → Word) (v : Word × Word) :
    decipher numRounds (encipher numRounds v key) key = v ∧
      encipher numRounds (decipher numRounds v key) key = v :=
  ⟨decipher_encipher numRounds v key, encipher_decipher numRounds v key⟩

/-! ## A message -/

/-- The message at `src` is encrypted to `mid` and decrypted from there to `dst`: both functions
return, access only the bytes of the message, and bring it back. -/
def RoundTrip (o : ByteOrder) (mem : Word → BitVec 8) (key : ℕ → Word) (iv : Word × Word)
    (src mid dst len : Word) : Prop :=
  ∃ fuel s s', xteaCbcEncrypt o fuel mem mid src len key iv = some s ∧
    xteaCbcDecrypt o fuel s.mem dst mid len key iv = some s' ∧
    Within mem mid src len.toNat s ∧ Within s.mem dst mid len.toNat s' ∧
    ∀ k < len.toNat, s'.mem (dst + BitVec.ofNat 32 k) = mem (src + BitVec.ofNat 32 k)

/-- For every message, key and iv, in place or with buffers apart: the round trip holds if and
only if the message consists of whole blocks. -/
theorem xtea_cbc_round_trip (o : ByteOrder) (mem : Word → BitVec 8) (key : ℕ → Word)
    (iv : Word × Word) (src mid dst len : Word)
    (hencrypt : mid = src ∨ Apart mid src len.toNat)
    (hdecrypt : dst = mid ∨ Apart dst mid len.toNat) :
    RoundTrip o mem key iv src mid dst len ↔ 8 ∣ len.toNat := by
  have hlt := len.isLt
  constructor
  · rintro ⟨fuel, s, s', hs, -, hwithin, -⟩
    exact Decidable.byContradiction fun hlen => not_within hlen hs hwithin
  · rintro ⟨n, hlen⟩
    obtain ⟨s, hs, hafter⟩ := cbc_blocks (o := o) (f := encryptBlock key) (encryptTail key) mem
      iv hlen.symm hencrypt
    obtain ⟨s', hs', hafter'⟩ := cbc_blocks (o := o) (f := decryptBlock key) (decryptTail key)
      s.mem iv hlen.symm hdecrypt
    rw [RoundTrip, hlen]
    refine ⟨n + 1, s, s', hs, hs', hafter.toWithin, hafter'.toWithin, fun k hk => ?_⟩
    have hmiddle : ∀ t < n, blocks o s.mem mid t =
        Lib.chained (encryptBlock key) iv (blocks o mem src) t := by
      intro t ht
      rw [blocks, ← ByteOrder.words_bytes (o := o) (Lib.chained _ _ _ t)]
      refine ByteOrder.words_congr fun j hj => ?_
      have hoffset : (mid + BitVec.ofNat 32 (8 * t + j) - mid).toNat = 8 * t + j :=
        Lib.toNat_offset (by omega)
      have hdiv : (8 * t + j) / 8 = t := by omega
      have hmod : (8 * t + j) % 8 = j := by omega
      rw [hafter.written _ (by omega), hoffset, hdiv, hmod]
    have hback : Lib.chained (decryptBlock key) iv (blocks o s.mem mid) (k / 8) =
        blocks o mem src (k / 8) := by
      rw [Lib.chained_congr fun t ht => hmiddle t (by omega)]
      exact (decryptBlock_undoes key).chained (k / 8)
    have hoffset : (dst + BitVec.ofNat 32 k - dst).toNat = k := Lib.toNat_offset (by omega)
    rw [hafter'.written _ (by omega), hoffset, hback, blocks,
      ByteOrder.bytes_words _ (Nat.mod_lt k (by decide)), Nat.div_add_mod]

/-- The key of `main`. -/
def mainKey (k : ℕ) : Word :=
  if k = 0 then 0xf0e1d2c3 else if k = 1 then 0xb4a59687 else if k = 2 then 0x78695a4b
  else 0x3c2d1e0f

theorem xtea_cbc_round_trip_blocks :
    RoundTrip .little (fun a => a.setWidth 8) mainKey (0x11223344, 0x55667788)
      0x40001000 0x40001000 0x40001000 40 :=
  (xtea_cbc_round_trip .little (fun a => a.setWidth 8) mainKey (0x11223344, 0x55667788)
    0x40001000 0x40001000 0x40001000 40 (.inl rfl) (.inl rfl)).mpr (by decide)

/-- The message of `main` has 44 bytes with its end: the loop takes 48. -/
theorem xtea_cbc_overrun :
    ¬∀ (o : ByteOrder) (mem : Word → BitVec 8) (key : ℕ → Word) (iv : Word × Word)
        (src mid dst len : Word), (mid = src ∨ Apart mid src len.toNat) →
        (dst = mid ∨ Apart dst mid len.toNat) → RoundTrip o mem key iv src mid dst len := by
  intro h
  obtain ⟨_, _, _, hs, -, hwithin, -⟩ := h .little (fun a => a.setWidth 8) mainKey
    (0x11223344, 0x55667788) 0x40001000 0x40001000 0x40001000 44 (.inl rfl) (.inl rfl)
  exact not_within (by decide) hs hwithin

end HfRisc.Results
