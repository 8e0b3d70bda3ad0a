import HfRisc.Isa.Fields
import HfRisc.Pipe.Sequential
import HfRisc.Rtl.Step

/-!
# Bytes in banks

The RAM of the test bench is an array of words whose highest byte has the lowest
address; the instruction set has a byte memory. `memOf` reads the array as bytes.
An aligned load of the circuit is the load of the instruction set, and writing
the lanes of a store is writing its bytes.
-/

namespace HfRisc.Isa

open HfRisc.Rtl HfRisc.Lib HfRisc.Pipe

variable {n : ℕ}

/-- The byte at offset `j` of a bus word. -/
def lane (j : BitVec 2) (w : Word) : BitVec 8 :=
  if j = 0 then w.extractLsb' 24 8
  else if j = 1 then w.extractLsb' 16 8
  else if j = 2 then w.extractLsb' 8 8
  else w.extractLsb' 0 8

/-- The offset of an address in its word. -/
def offset (a : Word) : BitVec 2 := a.extractLsb' 0 2

/-- The RAM as a byte memory. -/
def memOf (ram : BitVec n → Word) : BitVec (n + 2) → BitVec 8 :=
  fun k => lane (k.extractLsb' 0 2) (ram (k.extractLsb' 2 n))

/-! ## Addresses -/

theorem index_setWidth (a : Word) : (a.setWidth (n + 2)).extractLsb' 2 n = wordIndex n a := by
  ext i hi
  simp only [wordIndex, BitVec.getElem_extractLsb', BitVec.getLsbD_setWidth]
  simp [show 2 + i < n + 2 by omega]

theorem offset_setWidth (a : Word) : (a.setWidth (n + 2)).extractLsb' 0 2 = offset a := by
  ext i hi
  simp only [offset, BitVec.getElem_extractLsb', BitVec.getLsbD_setWidth]
  simp [show i < n + 2 by omega]

/-- A byte address is its word index and its offset. -/
theorem eq_setWidth_iff (k : BitVec (n + 2)) (a : Word) :
    k = a.setWidth (n + 2) ↔
      k.extractLsb' 2 n = wordIndex n a ∧ k.extractLsb' 0 2 = offset a := by
  rw [← index_setWidth (n := n) a, ← offset_setWidth (n := n) a]
  refine ⟨fun h => by rw [h]; exact ⟨rfl, rfl⟩, fun ⟨hi, ho⟩ => ?_⟩
  apply BitVec.eq_of_toNat_eq
  have hi' := congrArg BitVec.toNat hi
  have ho' := congrArg BitVec.toNat ho
  have hk := k.isLt
  have ha := (a.setWidth (n + 2)).isLt
  rw [toNat_extract, toNat_extract] at hi' ho'
  have hdiv : ∀ z < 2 ^ (n + 2), z / 2 ^ 2 % 2 ^ n = z / 4 := fun z hz =>
    Nat.mod_eq_of_lt (by rw [Nat.pow_add] at hz; omega)
  rw [hdiv _ hk, hdiv _ ha] at hi'
  rw [Nat.pow_zero, Nat.div_one, Nat.div_one] at ho'
  omega

theorem byte_memOf (regs : BitVec 5 → Word) (pc : Word) (ram : BitVec n → Word) (a : Word) :
    State.byte ⟨regs, pc, memOf ram⟩ a = lane (offset a) (ram (wordIndex n a)) := by
  show lane _ (ram _) = _
  rw [index_setWidth, offset_setWidth]

theorem toNat_offset (a : Word) : (offset a).toNat = a.toNat % 4 := by
  rw [offset, toNat_extract, Nat.pow_zero, Nat.div_one]
  rfl

theorem toNat_wordIndex (a : Word) : (wordIndex n a).toNat = a.toNat / 4 % 2 ^ n := by
  rw [wordIndex, toNat_extract]
  rfl

/-- Inside an aligned word the index does not change and the offset counts. -/
theorem offset_add {a : Word} {size : ℕ} (hsize : size = 2 ∨ size = 4) (h : Aligned size a) (j : ℕ)
    (hj : j < size) :
    wordIndex n (a + BitVec.ofNat 32 j) = wordIndex n a ∧
      offset (a + BitVec.ofNat 32 j) = offset a + BitVec.ofNat 2 j := by
  have ha := a.isLt
  rw [Aligned] at h
  have hj4 : j < 4 := by omega
  have hsum : (a + BitVec.ofNat 32 j).toNat = a.toNat + j := by
    rw [BitVec.toNat_add, BitVec.toNat_ofNat, Nat.mod_eq_of_lt (show j < 2 ^ 32 by omega),
      Nat.mod_eq_of_lt]
    rcases hsize with rfl | rfl <;> omega
  constructor
  · apply BitVec.eq_of_toNat_eq
    rw [toNat_wordIndex, toNat_wordIndex, hsum]
    congr 1
    rcases hsize with rfl | rfl <;> omega
  · apply BitVec.eq_of_toNat_eq
    rw [BitVec.toNat_add, toNat_offset, toNat_offset, hsum, BitVec.toNat_ofNat]
    omega

theorem offset_of_aligned4 {a : Word} (h : Aligned 4 a) : offset a = 0 :=
  BitVec.eq_of_toNat_eq (by rw [toNat_offset, h]; rfl)

theorem offset_of_aligned2 {a : Word} (h : Aligned 2 a) : offset a = 0 ∨ offset a = 2 := by
  rw [Aligned] at h
  rcases (show a.toNat % 4 = 0 ∨ a.toNat % 4 = 2 by omega) with h' | h'
  · exact .inl (BitVec.eq_of_toNat_eq (by rw [toNat_offset, h']; rfl))
  · exact .inr (BitVec.eq_of_toNat_eq (by rw [toNat_offset, h']; rfl))

/-- An offset has four values. -/
theorem offset_values (j : BitVec 2) : j = 0 ∨ j = 1 ∨ j = 2 ∨ j = 3 := by
  revert j
  decide

theorem offset_cases (a : Word) : offset a = 0 ∨ offset a = 1 ∨ offset a = 2 ∨ offset a = 3 :=
  offset_values (offset a)

/-! ## Loads -/

section Loads

variable (regs : BitVec 5 → Word) (pc : Word) (ram : BitVec n → Word) {a : Word}

/-- The byte at a small displacement inside an aligned word. -/
theorem byte_add {size : ℕ} (hsize : size = 2 ∨ size = 4) (h : Aligned size a) (j : ℕ)
    (hj : j < size) :
    State.byte ⟨regs, pc, memOf ram⟩ (a + BitVec.ofNat 32 j) =
      lane (offset a + BitVec.ofNat 2 j) (ram (wordIndex n a)) := by
  obtain ⟨hidx, hoff⟩ := offset_add (n := n) hsize h j hj
  rw [byte_memOf, hidx, hoff]

/-- An aligned word, byte by byte. -/
theorem lw_value (h : Aligned 4 a) :
    LoadOp.lw.value (State.byte ⟨regs, pc, memOf ram⟩) a = swapBytes (ram (wordIndex n a)) := by
  have h₁ := byte_add regs pc ram (.inr rfl) h 1 (by omega)
  have h₂ := byte_add regs pc ram (.inr rfl) h 2 (by omega)
  have h₃ := byte_add regs pc ram (.inr rfl) h 3 (by omega)
  rw [offset_of_aligned4 h] at h₁ h₂ h₃
  simp only [LoadOp.value]
  rw [show (3 : Word) = BitVec.ofNat 32 3 from rfl, show (2 : Word) = BitVec.ofNat 32 2 from rfl,
    show (1 : Word) = BitVec.ofNat 32 1 from rfl, h₁, h₂, h₃, byte_memOf, offset_of_aligned4 h]
  rfl

/-- An aligned half word, byte by byte. -/
theorem half_value (h : Aligned 2 a) :
    State.byte ⟨regs, pc, memOf ram⟩ (a + 1) ++ State.byte ⟨regs, pc, memOf ram⟩ a =
      lane (offset a + 1) (ram (wordIndex n a)) ++ lane (offset a) (ram (wordIndex n a)) := by
  have h₁ := byte_add regs pc ram (.inl rfl) h 1 (by omega)
  rw [show (1 : Word) = BitVec.ofNat 32 1 from rfl, h₁, byte_memOf]
  rfl

end Loads

/-- The byte the circuit selects. -/
theorem dataInS_byte {e : Execute} (h : e.ctl.memRead = 0b01) (a d : Word) :
    e.dataInS a d = 0#24 ++ lane (offset a) d := by
  rw [Execute.dataInS, if_pos h]
  rcases offset_cases a with ho | ho | ho | ho <;>
    rw [ho] <;> rw [offset] at ho <;> simp [ho, lane]

/-- The half word the circuit selects. -/
theorem dataInS_half {e : Execute} (h : e.ctl.memRead = 0b10) {a : Word} (ha : Aligned 2 a)
    (d : Word) : e.dataInS a d = 0#16 ++ (lane (offset a + 1) d ++ lane (offset a) d) := by
  have hbit : a.getLsbD 1 = (offset a).getLsbD 1 := by simp [offset]
  rw [Execute.dataInS, if_neg (by rw [h]; decide), if_pos h, hbit]
  rcases offset_of_aligned2 ha with ho | ho
  · rw [ho]
    apply BitVec.eq_of_toNat_eq
    simp only [lane]
    simp
    rw [toNat_append, toNat_append, toNat_append, toNat_append]
    omega
  · rw [ho]
    apply BitVec.eq_of_toNat_eq
    simp only [lane]
    simp
    rw [toNat_append, toNat_append, toNat_append, toNat_append]
    omega

theorem dataInS_word {e : Execute} (h : e.ctl.memRead = 0b11) (a d : Word) :
    e.dataInS a d = swapBytes d := by
  rw [Execute.dataInS, if_neg (by rw [h]; decide), if_neg (by rw [h]; decide)]

/-- Sign or zero extension of a byte. -/
theorem ext32b_eq (e : Execute) (v : BitVec 8) :
    e.ext32b (0#24 ++ v) = if e.ctl.sigRead then v.signExtend 32 else v.setWidth 32 := by
  have hlow : (0#24 ++ v : Word).extractLsb' 0 8 = v := BitVec.extractLsb'_append_eq_right
  have hsign : (0#24 ++ v : Word).getLsbD 7 = v.msb := by
    rw [BitVec.getLsbD_append, if_pos (by decide), BitVec.msb_eq_getLsbD_last]
  have hzero : (0#24 ++ v : Word) = v.setWidth 32 := by
    apply BitVec.eq_of_toNat_eq
    rw [toNat_append, BitVec.toNat_setWidth]
    simp
    omega
  rw [Execute.ext32b, hlow, hsign, hzero]
  cases hs : e.ctl.sigRead with
  | false => simp
  | true =>
    rw [if_pos rfl]
    refine eq_signExtend (j := 24) (k := 8) rfl ?_
    cases hm : v.msb with
    | false =>
      have hv := v.isLt
      simp
      omega
    | true =>
      simp
      rw [toNat_append]
      rfl

/-- Sign or zero extension of a half word. -/
theorem ext32h_eq (e : Execute) (v : BitVec 16) :
    e.ext32h (0#16 ++ v) = if e.ctl.sigRead then v.signExtend 32 else v.setWidth 32 := by
  have hlow : (0#16 ++ v : Word).extractLsb' 0 16 = v := BitVec.extractLsb'_append_eq_right
  have hsign : (0#16 ++ v : Word).getLsbD 15 = v.msb := by
    rw [BitVec.getLsbD_append, if_pos (by decide), BitVec.msb_eq_getLsbD_last]
  have hzero : (0#16 ++ v : Word) = v.setWidth 32 := by
    apply BitVec.eq_of_toNat_eq
    rw [toNat_append, BitVec.toNat_setWidth]
    simp
    omega
  rw [Execute.ext32h, hlow, hsign, hzero]
  cases hs : e.ctl.sigRead with
  | false => simp
  | true =>
    rw [if_pos rfl]
    refine eq_signExtend (j := 16) (k := 16) rfl ?_
    cases hm : v.msb with
    | false =>
      have hv := v.isLt
      simp
      omega
    | true =>
      simp
      rw [toNat_append]
      rfl

/-! ## Stores -/

/-- Merging lanes, byte by byte: bit 3 belongs to offset 0. -/
theorem lane_mergeLanes (j : BitVec 2) (lanes : BitVec 4) (data old : Word) :
    lane j (mergeLanes lanes data old) =
      if lanes.getLsbD (3 - j.toNat) then lane j data else lane j old := by
  rcases (show j = 0 ∨ j = 1 ∨ j = 2 ∨ j = 3 by revert j; decide) with rfl | rfl | rfl | rfl
  · exact byte3 _ _ _ _
  · exact byte2 _ _ _ _
  · exact byte1 _ _ _ _
  · exact byte0 _ _ _ _

theorem memOf_writeRam (ram : BitVec n → Word) (a : Word) (lanes : BitVec 4) (data : Word)
    (k : BitVec (n + 2)) :
    memOf (writeRam ram a lanes data) k =
      if k.extractLsb' 2 n = wordIndex n a ∧
          lanes.getLsbD (3 - (k.extractLsb' 0 2).toNat) = true then
        lane (k.extractLsb' 0 2) data
      else memOf ram k := by
  show lane _ (writeRam ram a lanes data _) = _
  rw [writeRam]
  by_cases hidx : k.extractLsb' 2 n = wordIndex n a
  · rw [if_pos hidx, lane_mergeLanes]
    simp only [hidx, true_and]
    rw [memOf, hidx]
  · rw [if_neg hidx, if_neg (by simp [hidx])]
    rfl

theorem poke_eq (mem : BitVec (n + 2) → BitVec 8) (a : Word) (b : BitVec 8) (k : BitVec (n + 2)) :
    State.poke mem (a, b) k =
      if k.extractLsb' 2 n = wordIndex n a ∧ k.extractLsb' 0 2 = offset a then b else mem k := by
  simp only [State.poke, eq_setWidth_iff]

/-- The mask `3` covers the two offset bits only. -/
theorem mask_getElem {i : ℕ} (hi : i < 32) (h : 2 ≤ i) : (3#32)[i] = false := by
  rw [BitVec.getElem_eq_testBit_toNat]
  exact Nat.testBit_lt_two_pow
    (Nat.lt_of_lt_of_le (show 3 < 2 ^ 2 by decide) (Nat.pow_le_pow_right (by decide) h))

/-- An address is the address of its word and its offset. -/
theorem base_add_offset (a : Word) : (a &&& ~~~3#32) + (offset a).setWidth 32 = a := by
  have hdisj : (a &&& ~~~3#32) &&& (offset a).setWidth 32 = 0#32 := by
    ext i hi
    simp only [offset, BitVec.getElem_and, BitVec.getElem_not, BitVec.getElem_setWidth,
      BitVec.getLsbD_extractLsb', BitVec.getElem_zero]
    rcases Nat.lt_or_ge i 2 with h | h
    · rcases (show i = 0 ∨ i = 1 by omega) with rfl | rfl <;> simp
    · simp [show ¬ i < 2 by omega]
  rw [BitVec.add_eq_or_of_and_eq_zero _ _ hdisj]
  ext i hi
  simp only [offset, BitVec.getElem_or, BitVec.getElem_and, BitVec.getElem_not,
    BitVec.getElem_setWidth, BitVec.getLsbD_extractLsb']
  rcases Nat.lt_or_ge i 2 with h | h
  · rcases (show i = 0 ∨ i = 1 by omega) with rfl | rfl <;> simp
  · simp [show ¬ i < 2 by omega, mask_getElem hi h]

theorem aligned_base (a : Word) : Aligned 4 (a &&& ~~~3#32) := by
  have hoff : offset (a &&& ~~~3#32) = 0 := by
    ext i hi
    simp only [offset, BitVec.getElem_extractLsb', BitVec.getLsbD_and, BitVec.getLsbD_not]
    rcases (show i = 0 ∨ i = 1 by omega) with rfl | rfl <;> simp
  have hmod := congrArg BitVec.toNat hoff
  rw [toNat_offset] at hmod
  exact hmod

/-- An aligned address is the address of its word. -/
theorem base_eq_iff {a : Word} : a &&& ~~~3#32 = a ↔ Aligned 4 a := by
  constructor
  · intro h
    rw [← h]
    exact aligned_base a
  · intro h
    have hb := base_add_offset a
    rw [offset_of_aligned4 h] at hb
    exact (BitVec.add_zero _).symm.trans hb

/-- The bytes of a word have its index, and offsets in order. -/
theorem lane_address (a : Word) (j : ℕ) (hj : j < 4) :
    wordIndex n ((a &&& ~~~3#32) + BitVec.ofNat 32 j) = wordIndex n a ∧
      offset ((a &&& ~~~3#32) + BitVec.ofNat 32 j) = BitVec.ofNat 2 j := by
  obtain ⟨hidx, hoff⟩ := offset_add (n := n) (.inr rfl) (aligned_base a) j hj
  have hbase : wordIndex n (a &&& ~~~3#32) = wordIndex n a := by
    ext i hi
    simp only [wordIndex, BitVec.getElem_extractLsb', BitVec.getLsbD_and, BitVec.getLsbD_not]
    by_cases h32 : 2 + i < 32
    · simp only [h32, BitVec.getLsbD_eq_getElem, mask_getElem h32 (by omega), decide_true,
        Bool.not_false, Bool.and_self, Bool.and_true]
    · simp [BitVec.getLsbD_of_ge _ _ (show 32 ≤ 2 + i by omega)]
  rw [hidx, hoff, hbase, offset_of_aligned4 (aligned_base a)]
  exact ⟨rfl, BitVec.zero_add _⟩

/-- One lane of a bus write. -/
theorem foldl_poke_ite (mem : BitVec (n + 2) → BitVec 8) (b : Bool) (a : Word) (v : BitVec 8)
    (k : BitVec (n + 2)) :
    (if b then [(a, v)] else []).foldl State.poke mem k =
      if b = true ∧ k.extractLsb' 2 n = wordIndex n a ∧ k.extractLsb' 0 2 = offset a then v
      else mem k := by
  cases b with
  | false => simp
  | true => simp [poke_eq]

/-- Writing the selected lanes is writing their bytes. -/
theorem memOf_writeRam_eq (ram : BitVec n → Word) (a : Word) (lanes : BitVec 4) (data : Word) :
    memOf (writeRam ram a lanes data) =
      (laneBytes a lanes data).foldl State.poke (memOf ram) := by
  funext k
  obtain ⟨hi₀, ho₀⟩ := lane_address (n := n) a 0 (by omega)
  obtain ⟨hi₁, ho₁⟩ := lane_address (n := n) a 1 (by omega)
  obtain ⟨hi₂, ho₂⟩ := lane_address (n := n) a 2 (by omega)
  obtain ⟨hi₃, ho₃⟩ := lane_address (n := n) a 3 (by omega)
  rw [BitVec.add_zero] at hi₀ ho₀
  rw [memOf_writeRam, laneBytes, List.foldl_append, List.foldl_append, List.foldl_append]
  simp only [foldl_poke_ite, BitVec.ofNat_eq_ofNat, hi₀, ho₀, hi₁, ho₁, hi₂, ho₂, hi₃, ho₃]
  by_cases hk : k.extractLsb' 2 n = wordIndex n a
  · rcases offset_values (k.extractLsb' 0 2) with hj | hj | hj | hj <;> simp [hk, hj, lane]
  · simp [hk]

/-- What a store has to do to be the store of the instruction set. -/
structure Stores (n : ℕ) (a v : Word) (o : StoreOp) (lanes : BitVec 4) (data : Word) : Prop where
  ram : ∀ ram : BitVec n → Word,
    memOf (writeRam ram a lanes data) = (o.bytes a v).foldl State.poke (memOf ram)
  effect : commitMem a lanes data = [.mem (o.bytes a v)]

/-- Enough is that the lanes are the bytes of the store. -/
theorem Stores.of_bytes {a v : Word} {o : StoreOp} {lanes : BitVec 4} {data : Word}
    (hne : lanes ≠ 0) (h : laneBytes a lanes data = o.bytes a v) : Stores n a v o lanes data where
  ram ram := by rw [memOf_writeRam_eq, h]
  effect := by rw [commitMem, if_pos hne, h]

variable {e : Execute} (v : Word)

theorem stores_sb (h : e.ctl.memWrite = 0b01) (a : Word) :
    Stores n a v .sb (e.dataW a) (e.dataOut v) := by
  have hdata : e.dataOut v = v.extractLsb' 0 8 ++ v.extractLsb' 0 8 ++ v.extractLsb' 0 8 ++
      v.extractLsb' 0 8 := by rw [Execute.dataOut, if_pos h]
  have hlanes : e.dataW a = 1#4 <<< (3 - (offset a).toNat) := by
    rw [Execute.dataW, if_neg (by rw [h]; decide), if_pos h]
    rcases offset_cases a with ho | ho | ho | ho <;> rw [ho] <;> rw [offset] at ho <;>
      simp [ho]
  have hne : e.dataW a ≠ 0 := by
    rw [hlanes]
    rcases offset_cases a with ho | ho | ho | ho <;> rw [ho] <;> decide
  refine .of_bytes hne ?_
  have hb := base_add_offset a
  rw [laneBytes, hlanes, hdata, byte0, byte1, byte2, byte3]
  rcases offset_cases a with ho | ho | ho | ho <;> rw [ho] at hb ⊢ <;>
    simp at hb ⊢ <;> simp [hb, StoreOp.bytes]

theorem stores_sh (h : e.ctl.memWrite = 0b10) {a : Word} (ha : Aligned 2 a) :
    Stores n a v .sh (e.dataW a) (e.dataOut v) := by
  have hdata : e.dataOut v = v.extractLsb' 0 8 ++ v.extractLsb' 8 8 ++ v.extractLsb' 0 8 ++
      v.extractLsb' 8 8 := by
    rw [Execute.dataOut, if_neg (by rw [h]; decide), if_pos h]
  have hlanes : e.dataW a = if offset a = 0 then 0b1100 else 0b0011 := by
    have hbit : a.getLsbD 1 = (offset a).getLsbD 1 := by simp [offset]
    rw [Execute.dataW, if_neg (by rw [h]; decide), if_neg (by rw [h]; decide), if_pos h, hbit]
    rcases offset_of_aligned2 ha with ho | ho <;> rw [ho] <;> rfl
  have hne : e.dataW a ≠ 0 := by
    rw [hlanes]
    rcases offset_of_aligned2 ha with ho | ho <;> rw [ho] <;> decide
  refine .of_bytes hne ?_
  have hb := base_add_offset a
  rw [laneBytes, hlanes, hdata, byte0, byte1, byte2, byte3]
  rcases offset_of_aligned2 ha with ho | ho <;> rw [ho] at hb ⊢
  · simp at hb ⊢
    simp [hb, StoreOp.bytes]
  · have hb' : (a &&& ~~~3#32) + 3 = a + 1 := by
      calc (a &&& ~~~3#32) + 3 = (a &&& ~~~3#32) + 2 + 1 := by rw [BitVec.add_assoc]; rfl
        _ = a + 1 := congrArg (· + 1) hb
    simp at hb hb' ⊢
    simp [hb, hb', StoreOp.bytes]

theorem stores_sw (h : e.ctl.memWrite = 0b11) {a : Word} (ha : Aligned 4 a) :
    Stores n a v .sw (e.dataW a) (e.dataOut v) := by
  have hdata : e.dataOut v = swapBytes v := by
    rw [Execute.dataOut, if_neg (by rw [h]; decide), if_neg (by rw [h]; decide)]
  have hlanes : e.dataW a = 0b1111 := by rw [Execute.dataW, if_pos h]
  refine .of_bytes (by rw [hlanes]; decide) ?_
  have hb := base_add_offset a
  rw [offset_of_aligned4 ha] at hb
  rw [laneBytes, hlanes, hdata, swapBytes, byte0, byte1, byte2, byte3]
  simp at hb ⊢
  simp [hb, StoreOp.bytes]

end HfRisc.Isa
