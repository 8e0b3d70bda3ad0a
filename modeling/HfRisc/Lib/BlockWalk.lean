import Mathlib.Data.BitVec
import Mathlib.Data.Nat.Notation
import Mathlib.Logic.Function.Basic

/-!
# Chained maps and walks over blocks in memory

A map over a stream that carries a value from one element to the next, as the modes of a block
cipher do. Where one element can be undone with the value carried before it, so can the stream.

Values of `w` bytes that lie in memory one behind the other. A walk takes the blocks of one buffer
in their order and leaves others in a second buffer, with a value carried from one block to the
next. The buffers are the same or apart, so each block is still there when the walk comes to it.
-/

namespace HfRisc.Lib

variable {σ α β : Type*} {f : σ → α → σ × β} {g : σ → β → σ × α} {s : σ} {x y : ℕ → α}

/-- The value carried to element `t`. -/
def carried (f : σ → α → σ × β) (s : σ) (x : ℕ → α) : ℕ → σ
  | 0 => s
  | t + 1 => (f (carried f s x t) (x t)).1

/-- What becomes of element `t`. -/
def chained (f : σ → α → σ × β) (s : σ) (x : ℕ → α) (t : ℕ) : β := (f (carried f s x t) (x t)).2

/-- Only the elements before count. -/
theorem carried_congr {t : ℕ} (h : ∀ u < t, x u = y u) : carried f s x t = carried f s y t := by
  induction t with
  | zero => rfl
  | succ t ih =>
    rw [carried, carried, ih fun u hu => h u (Nat.lt_succ_of_lt hu), h t (Nat.lt_succ_self t)]

theorem chained_congr {t : ℕ} (h : ∀ u ≤ t, x u = y u) : chained f s x t = chained f s y t := by
  rw [chained, chained, carried_congr fun u hu => h u (Nat.le_of_lt hu), h t (Nat.le_refl t)]

/-- `g` gives back what `f` was given, and carries on the same value. -/
def Undoes (g : σ → β → σ × α) (f : σ → α → σ × β) : Prop :=
  ∀ s a, g s (f s a).2 = ((f s a).1, a)

namespace Undoes

theorem carried (h : Undoes g f) (t : ℕ) :
    carried g s (chained f s x) t = carried f s x t := by
  induction t with
  | zero => rfl
  | succ t ih => rw [Lib.carried, ih, chained, h, Lib.carried]

/-- The stream is undone element by element. -/
theorem chained (h : Undoes g f) (t : ℕ) : chained g s (chained f s x) t = x t := by
  rw [Lib.chained, h.carried, Lib.chained, h]

end Undoes

end HfRisc.Lib

/-! ## Walks over blocks in memory -/

namespace HfRisc.Lib

variable {δ β σ : Type*} {n w : ℕ}

/-! ## Addresses -/

section Addresses

variable {p q x : BitVec n} {i j k m : ℕ}

theorem toNat_offset (h : j < 2 ^ n) : (p + BitVec.ofNat n j - p).toNat = j := by
  rw [BitVec.add_comm, BitVec.add_sub_cancel, BitVec.toNat_ofNat, Nat.mod_eq_of_lt h]

theorem eq_offset : x = p + BitVec.ofNat n (x - p).toNat := by
  rw [BitVec.ofNat_toNat, BitVec.setWidth_eq, BitVec.add_comm, BitVec.sub_add_cancel]

/-- The distance from an address behind `p`. -/
theorem toNat_sub_offset (hle : j ≤ (x - p).toNat) :
    (x - (p + BitVec.ofNat n j)).toNat = (x - p).toNat - j := by
  have hlt := (x - p).isLt
  have hj : (BitVec.ofNat n j).toNat = j := by
    rw [BitVec.toNat_ofNat, Nat.mod_eq_of_lt (Nat.lt_of_le_of_lt hle hlt)]
  rw [sub_add_eq_sub_sub, BitVec.toNat_sub_of_le (by rw [BitVec.le_def, hj]; exact hle), hj]

/-- The `m` addresses from `p + j` on. -/
theorem toNat_sub_offset_lt (h : j + m ≤ 2 ^ n) :
    (x - (p + BitVec.ofNat n j)).toNat < m ↔ j ≤ (x - p).toNat ∧ (x - p).toNat < j + m := by
  constructor
  · intro hlt
    have hx : x - p = BitVec.ofNat n (j + (x - (p + BitVec.ofNat n j)).toNat) := by
      rw [BitVec.ofNat_add, BitVec.ofNat_toNat, BitVec.setWidth_eq, sub_add_eq_sub_sub,
        add_sub_cancel]
    rw [hx, BitVec.toNat_ofNat, Nat.mod_eq_of_lt (by omega)]
    omega
  · rintro ⟨hle, hlt⟩
    rw [toNat_sub_offset hle]
    omega

/-- No address is among the `m` from `p` on and the `k` from `q` on. -/
def Apart (p : BitVec n) (m : ℕ) (q : BitVec n) (k : ℕ) : Prop :=
  ∀ x : BitVec n, (x - p).toNat < m → k ≤ (x - q).toNat

theorem Apart.symm (h : Apart p m q k) : Apart q k p m := fun x hx =>
  Nat.le_of_not_lt fun hlt => Nat.not_lt.mpr (h x hlt) hx

theorem Apart.mono (h : Apart p m q k) {m' k' : ℕ} (hm : m' ≤ m) (hk : k' ≤ k) :
    Apart p m' q k' := fun x hx =>
  Nat.le_trans hk (h x (Nat.lt_of_lt_of_le hx hm))

/-- Parts of two buffers that are apart. -/
theorem Apart.offsets (h : Apart p m q k) {i j m' k' : ℕ} (hi : i + m' ≤ m) (hj : j + k' ≤ k)
    (hm : m ≤ 2 ^ n) (hk : k ≤ 2 ^ n) :
    Apart (p + BitVec.ofNat n i) m' (q + BitVec.ofNat n j) k' := by
  intro x hx
  have hfar := h x (Nat.lt_of_lt_of_le ((toNat_sub_offset_lt (by omega)).mp hx).2 hi)
  refine Nat.le_of_not_lt fun hlt => ?_
  have := ((toNat_sub_offset_lt (by omega)).mp hlt).2
  omega

/-- Two parts of one buffer. -/
theorem apart_offsets {i j : ℕ} (hij : i + m ≤ j) (hj : j + k ≤ 2 ^ n) :
    Apart (p + BitVec.ofNat n i) m (p + BitVec.ofNat n j) k := by
  intro x hx
  have hbefore := ((toNat_sub_offset_lt (by omega)).mp hx).2
  refine Nat.le_of_not_lt fun hlt => ?_
  have := ((toNat_sub_offset_lt hj).mp hlt).1
  omega

/-- One buffer is behind the other. -/
theorem apart_of_le (hpq : p.toNat + m ≤ q.toNat) (hq : q.toNat + k ≤ 2 ^ n) : Apart p m q k := by
  have happart := apart_offsets (p := (0 : BitVec n)) hpq hq
  rwa [BitVec.ofNat_toNat, BitVec.setWidth_eq, BitVec.ofNat_toNat, BitVec.setWidth_eq, zero_add,
    zero_add] at happart

/-- A loop over the bytes of a buffer, upward, where no byte is read after it has been written. -/
theorem foldl_update {g : (BitVec n → δ) → ℕ → δ} {mem : BitVec n → δ} (hk : k ≤ 2 ^ n)
    (hread : ∀ i < k, ∀ mem', (∀ a, i ≤ (a - p).toNat → mem' a = mem a) → g mem' i = g mem i) :
    (List.range k).foldl (fun mem i => Function.update mem (p + BitVec.ofNat n i) (g mem i)) mem =
      fun a => if (a - p).toNat < k then g mem (a - p).toNat else mem a := by
  induction k with
  | zero => rfl
  | succ k ih =>
    rw [List.range_succ, List.foldl_append, ih (by omega) fun i hi => hread i (by omega)]
    funext a
    rw [List.foldl_cons, List.foldl_nil, Function.update_apply,
      hread k (Nat.lt_succ_self k) _ fun a ha => if_neg (Nat.not_lt.mpr ha)]
    by_cases ha : a = p + BitVec.ofNat n k
    · have hdist : (a - p).toNat = k := by rw [ha, toNat_offset (by omega)]
      rw [if_pos ha, if_pos (by omega), hdist]
    · have hdist : (a - p).toNat ≠ k := fun h => ha (h ▸ eq_offset)
      rw [if_neg ha, if_congr (show (a - p).toNat < k ↔ (a - p).toNat < k + 1 by omega) rfl rfl]

end Addresses

/-! ## Blocks -/

/-- How a value lies in memory, in `w` bytes. -/
structure Layout (δ β : Type*) (w : ℕ) where
  read : (ℕ → δ) → β
  bytes : β → ℕ → δ
  read_congr : ∀ {b c : ℕ → δ}, (∀ k < w, b k = c k) → read b = read c
  read_bytes : ∀ v, read (bytes v) = v
  bytes_read : ∀ b, ∀ k < w, bytes (read b) k = b k

namespace Layout

variable (L : Layout δ β w) (mem : BitVec n → δ) (p : BitVec n)

/-- The value at an address. -/
def load : β := L.read fun k => mem (p + BitVec.ofNat n k)

/-- The memory with a value at an address. -/
def store (v : β) : BitVec n → δ := fun a =>
  if (a - p).toNat < w then L.bytes v (a - p).toNat else mem a

variable {L mem p} {mem' : BitVec n → δ} {q : BitVec n} {u v : β}

theorem load_congr (hw : w ≤ 2 ^ n) (h : ∀ a, (a - p).toNat < w → mem a = mem' a) :
    L.load mem p = L.load mem' p :=
  L.read_congr fun k hk => h _ (by rwa [toNat_offset (Nat.lt_of_lt_of_le hk hw)])

/-- Where two values are the same, so are their bytes. -/
theorem byte_of_load (h : L.load mem p = L.load mem' q) {k : ℕ} (hk : k < w) :
    mem (p + BitVec.ofNat n k) = mem' (q + BitVec.ofNat n k) := by
  have hbytes := congrArg (fun v => L.bytes v k) h
  simp only [load] at hbytes
  rwa [L.bytes_read _ _ hk, L.bytes_read _ _ hk] at hbytes

theorem load_store (hw : w ≤ 2 ^ n) : L.load (L.store mem p v) p = v := by
  rw [load, ← L.read_bytes v]
  refine L.read_congr fun k hk => ?_
  rw [L.read_bytes, store, toNat_offset (Nat.lt_of_lt_of_le hk hw), if_pos hk]

theorem store_outside {a : BitVec n} (h : w ≤ (a - p).toNat) : L.store mem p v a = mem a :=
  if_neg (Nat.not_lt.mpr h)

theorem load_store_apart (hw : w ≤ 2 ^ n) (h : Apart q w p w) :
    L.load (L.store mem p v) q = L.load mem q :=
  load_congr hw fun a ha => store_outside (h a ha)

theorem store_load : L.store mem p (L.load mem p) = mem := by
  funext a
  rw [store]
  split
  · next ha => rw [load, L.bytes_read _ _ ha, ← eq_offset]
  · rfl

theorem store_comm (h : Apart p w q w) :
    L.store (L.store mem p u) q v = L.store (L.store mem q v) p u := by
  funext a
  simp only [store]
  by_cases hp : (a - p).toNat < w
  · rw [if_neg (Nat.not_lt.mpr (h a hp)), if_pos hp, if_pos hp]
  · rw [if_neg hp, if_neg hp]

theorem store_store : L.store (L.store mem p u) p v = L.store mem p v := by
  funext a
  simp only [store]
  split <;> rfl

end Layout

/-! ## Walks -/

section Walks

variable (L : Layout δ β w) (f : σ → β → σ × β) (mem : BitVec n → δ) (out inp : BitVec n) (c : σ)

/-- The blocks from an address on. -/
def blocks (p : BitVec n) (t : ℕ) : β := L.load mem (p + BitVec.ofNat n (w * t))

/-- `t` of the blocks at `inp` are done, and `out` has what becomes of them. Nothing else has
changed but the blocks that were read. -/
structure Walked (t : ℕ) (mem' : BitVec n → δ) (c' : σ) : Prop where
  carried : c' = carried f c (blocks L mem inp) t
  written : ∀ u < t, blocks L mem' out u = chained f c (blocks L mem inp) u
  kept : ∀ a, w * t ≤ (a - out).toNat → w * t ≤ (a - inp).toNat → mem' a = mem a

variable {L f mem out inp c} {mem' mem'' : BitVec n → δ} {c' c'' : σ} {t N : ℕ}

theorem walked_zero : Walked L f mem out inp c 0 mem c where
  carried := rfl
  written := fun u hu => absurd hu (Nat.not_lt_zero u)
  kept := fun _ _ _ => rfl

/-- Where the blocks are the same, so are the bytes. -/
theorem byte_of_blocks {p q : BitVec n} (h : ∀ t < N, blocks L mem p t = blocks L mem' q t) {i : ℕ}
    (hi : i < w * N) : mem (p + BitVec.ofNat n i) = mem' (q + BitVec.ofNat n i) := by
  have hw : 0 < w := Nat.pos_of_mul_pos_right (Nat.zero_lt_of_lt hi)
  have hbyte := Layout.byte_of_load (h (i / w) (Nat.div_lt_of_lt_mul hi)) (Nat.mod_lt i hw)
  rwa [BitVec.add_assoc, BitVec.add_assoc, ← BitVec.ofNat_add, Nat.div_add_mod] at hbyte

/-- The addresses of a block. -/
theorem block_lt (h : w * (t + 1) ≤ 2 ^ n) {a p : BitVec n} :
    (a - (p + BitVec.ofNat n (w * t))).toNat < w ↔
      w * t ≤ (a - p).toNat ∧ (a - p).toNat < w * (t + 1) := by
  rw [Nat.mul_succ] at h ⊢
  exact toNat_sub_offset_lt h

namespace Walked

/-- The blocks that are still to be read. -/
theorem unread (h : Walked L f mem out inp c t mem' c') (hN : w * N ≤ 2 ^ n)
    (hplace : out = inp ∨ Apart out (w * N) inp (w * N)) (ht : t < N) :
    blocks L mem' inp t = blocks L mem inp t := by
  have hblock : w * (t + 1) ≤ w * N := Nat.mul_le_mul_left w ht
  have hw : w ≤ w * (t + 1) := Nat.le_mul_of_pos_right w (Nat.succ_pos t)
  refine Layout.load_congr (by omega) fun a ha => ?_
  obtain ⟨hge, hlt⟩ := (block_lt (by omega)).mp ha
  refine h.kept a ?_ hge
  rcases hplace with rfl | hapart
  · exact hge
  · -- an address that is read is not among those of `out`
    have := hapart.symm a (Nat.lt_of_lt_of_le hlt hblock)
    rw [Nat.mul_succ] at hblock
    omega

/-- One block more: what was at the address of the block that is written or read may change. -/
theorem step (h : Walked L f mem out inp c t mem' c') (hN : w * N ≤ 2 ^ n)
    (hplace : out = inp ∨ Apart out (w * N) inp (w * N)) (ht : t < N)
    (hcarried : c'' = (f c' (blocks L mem' inp t)).1)
    (hwritten : blocks L mem'' out t = (f c' (blocks L mem' inp t)).2)
    (hkept : ∀ a, ¬(a - (out + BitVec.ofNat n (w * t))).toNat < w →
      ¬(a - (inp + BitVec.ofNat n (w * t))).toNat < w → mem'' a = mem' a) :
    Walked L f mem out inp c (t + 1) mem'' c'' := by
  have hblock : w * (t + 1) ≤ w * N := Nat.mul_le_mul_left w ht
  have hw : w ≤ w * (t + 1) := Nat.le_mul_of_pos_right w (Nat.succ_pos t)
  have hnext : w * t ≤ w * (t + 1) := Nat.mul_le_mul_left w (Nat.le_succ t)
  rw [h.unread hN hplace ht, h.carried] at hcarried hwritten
  refine ⟨hcarried, fun u hu => ?_, fun a hout hinp => ?_⟩
  · rcases Nat.lt_succ_iff_lt_or_eq.mp hu with hlt | rfl
    · have hdone : w * (u + 1) ≤ w * t := Nat.mul_le_mul_left w hlt
      rw [← h.written u hlt]
      refine Layout.load_congr (by omega) fun a ha => ?_
      obtain ⟨-, hbefore⟩ := (block_lt (by omega)).mp ha
      -- a block written before is neither the one that is written nor the one that is read
      refine hkept a (fun hin => ?_) (fun hin => ?_)
      · have := ((block_lt (by omega)).mp hin).1
        omega
      · obtain ⟨hge, hlast⟩ := (block_lt (by omega)).mp hin
        rcases hplace with rfl | hapart
        · omega
        · have := hapart a (by omega)
          omega
    · exact hwritten
  · rw [hkept a (fun hin => ?_) (fun hin => ?_)]
    · rw [Nat.mul_succ] at hout hinp
      exact h.kept a (by omega) (by omega)
    · have := ((block_lt (by omega)).mp hin).2
      omega
    · have := ((block_lt (by omega)).mp hin).2
      omega

end Walked

/-- The memory at the start may be another one in what is not read and not kept. -/
theorem Walked.congr_mem {mem₀ : BitVec n → δ} (h : Walked L f mem₀ out inp c t mem' c')
    (hblocks : ∀ u < t, blocks L mem₀ inp u = blocks L mem inp u)
    (hkept : ∀ a, w * t ≤ (a - out).toNat → w * t ≤ (a - inp).toNat → mem₀ a = mem a) :
    Walked L f mem out inp c t mem' c' where
  carried := h.carried.trans (carried_congr hblocks)
  written u hu := (h.written u hu).trans
    (chained_congr fun v hv => hblocks v (Nat.lt_of_le_of_lt hv hu))
  kept a hout hinp := (h.kept a hout hinp).trans (hkept a hout hinp)

/-- A walk back over what a walk has left, from a buffer apart from the first one or not. -/
theorem Walked.back {g : σ → β → σ × β} {dst : BitVec n} {mem₂ : BitVec n → δ} {c₂ : σ}
    (hundoes : Undoes g f) (h : Walked L f mem out inp c N mem' c')
    (hback : Walked L g mem' dst out c N mem₂ c₂) (ht : t < N) :
    blocks L mem₂ dst t = blocks L mem inp t := by
  rw [hback.written t ht, chained_congr fun u hu => h.written u (Nat.lt_of_le_of_lt hu ht)]
  exact hundoes.chained t

end Walks

end HfRisc.Lib
