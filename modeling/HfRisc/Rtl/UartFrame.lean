import HfRisc.Rtl.Uart

/-!
# The frames of the UART

A wire is idle or carries a frame: the start bit, the eight bits of a byte from the
lowest, the stop bit, each for `D + 1` cycles. The transmitter puts such frames on the
line, whatever it is asked to write. The receiver sees the line 128 cycles late. From
there it counts one cycle after the other, from the start bit to the middle of the stop
bit, and its counters are a function of the age of the frame.
-/

namespace HfRisc.Rtl

/-- What a wire carries: nothing, or the frame of a byte that began `t` cycles ago. -/
inductive Wire where
  | idle
  | sending (byte : BitVec 8) (t : ℕ)
deriving DecidableEq

/-- The bits of a frame. -/
def frameBit (byte : BitVec 8) (j : ℕ) : Bool :=
  if j = 0 then false else if j ≤ 8 then byte.getLsbD (j - 1) else true

theorem frameBit_stop (byte : BitVec 8) {j : ℕ} (hj : 8 < j) : frameBit byte j = true := by
  rw [frameBit, if_neg (by omega), if_neg (by omega)]

/-- A counter of the bits that are left. -/
theorem pred_toNat {x : BitVec 4} (h : 1 ≤ x.toNat) : (x - 1).toNat = x.toNat - 1 := by
  bv_omega

namespace Wire

variable (D : ℕ)

/-- One cycle later, when `w` was written. A write during a frame is lost. -/
def next : Wire → Option (BitVec 8) → Wire
  | idle, none => idle
  | idle, some byte => sending byte 0
  | sending byte t, _ => if t + 1 < 10 * (D + 1) then sending byte (t + 1) else idle

/-- The level of the wire. -/
def line : Wire → Bool
  | idle => true
  | sending byte t => frameBit byte (t / (D + 1))

/-- The cycles for which the level has been kept, as far as they are known. -/
def age : Wire → ℕ
  | idle => D
  | sending _ t => t % (D + 1)

/-- A frame has ten bits. -/
def Valid : Wire → Prop
  | idle => True
  | sending _ t => t < 10 * (D + 1)

/-- The byte of the frame that began `T` cycles ago. -/
def begun (T : ℕ) : Wire → Option (BitVec 8)
  | idle => none
  | sending byte t => if t = T then some byte else none

variable {D}

/-! ## Cells -/

theorem cell_same {t : ℕ} (h : t % (D + 1) < D) :
    (t + 1) / (D + 1) = t / (D + 1) ∧ (t + 1) % (D + 1) = t % (D + 1) + 1 := by
  have hmod : (t + 1) % (D + 1) = t % (D + 1) + 1 := by
    rw [← Nat.mod_add_mod]
    exact Nat.mod_eq_of_lt (Nat.succ_lt_succ h)
  refine ⟨?_, hmod⟩
  rw [Nat.succ_div_of_not_dvd]
  intro hdvd
  rw [Nat.mod_eq_zero_of_dvd hdvd] at hmod
  exact Nat.succ_ne_zero _ hmod.symm

theorem cell_next {t : ℕ} (h : t % (D + 1) = D) :
    (t + 1) / (D + 1) = t / (D + 1) + 1 ∧ (t + 1) % (D + 1) = 0 := by
  have hmod : (t + 1) % (D + 1) = 0 := by
    rw [← Nat.mod_add_mod, h, Nat.mod_self]
  exact ⟨Nat.succ_div_of_dvd (Nat.dvd_of_mod_eq_zero hmod), hmod⟩

theorem cell_cases (t : ℕ) : t % (D + 1) < D ∨ t % (D + 1) = D :=
  Nat.lt_succ_iff_lt_or_eq.mp (Nat.mod_lt t (Nat.succ_pos D))

/-- The last cycle of a frame ends its last cell. -/
theorem last_cell {t : ℕ} (h : t < 10 * (D + 1)) (hlast : ¬ t + 1 < 10 * (D + 1)) :
    t % (D + 1) = D ∧ t / (D + 1) = 9 := by
  have ht : t = D + (D + 1) * 9 := by omega
  constructor
  · rw [ht, Nat.add_mul_mod_self_left, Nat.mod_eq_of_lt (Nat.lt_succ_self D)]
  · rw [ht, Nat.add_mul_div_left _ _ (Nat.succ_pos D), Nat.div_eq_of_lt (Nat.lt_succ_self D)]

theorem Valid.next {p : Wire} (h : p.Valid D) (w : Option (BitVec 8)) : (p.next D w).Valid D := by
  cases p with
  | idle =>
    cases w with
    | none => trivial
    | some byte => exact Nat.mul_pos (by decide) (Nat.succ_pos D)
  | sending byte t =>
    rw [Wire.next]
    split
    · assumption
    · trivial

/-! ## A run of the wire -/

/-- The wire `p` carries the bytes that `w` writes. -/
structure Carries (D : ℕ) (w : ℕ → Option (BitVec 8)) (p : ℕ → Wire) : Prop where
  start : p 0 = idle
  step : ∀ n, p (n + 1) = (p n).next D (w n)

/-- The wire of a sequence of writes. -/
def wire (D : ℕ) (w : ℕ → Option (BitVec 8)) : ℕ → Wire
  | 0 => idle
  | n + 1 => (wire D w n).next D (w n)

theorem carries_wire (w : ℕ → Option (BitVec 8)) : Carries D w (wire D w) := ⟨rfl, fun _ => rfl⟩

namespace Carries

variable {w : ℕ → Option (BitVec 8)} {p : ℕ → Wire}

theorem valid (h : Carries D w p) : ∀ n, (p n).Valid D := by
  intro n
  induction n with
  | zero =>
    rw [h.start]
    trivial
  | succ n ih =>
    rw [h.step]
    exact ih.next (w n)

/-- The level has been the same for `age` cycles. -/
theorem kept (h : Carries D w p) (n : ℕ) :
    ∀ i ≤ n, n ≤ i + (p n).age D → (p i).line D = (p n).line D := by
  induction n with
  | zero =>
    intro i hi _
    rw [Nat.le_zero.mp hi]
  | succ n ih =>
    intro i hi hage
    rcases Nat.le_succ_iff.mp hi with hle | rfl
    swap
    · rfl
    have hvalid := h.valid n
    have hstep := h.step n
    cases hp : p n with
    | idle =>
      rw [hp] at ih hstep
      cases hw : w n with
      | none =>
        rw [hstep, hw] at hage ⊢
        exact ih i hle (Nat.le_of_succ_le hage)
      | some byte =>
        -- the start bit is new
        rw [hstep, hw] at hage
        have hzero : (sending byte 0).age D = 0 := Nat.zero_mod _
        rw [next, hzero] at hage
        omega
    | sending byte t =>
      rw [hp] at ih hstep hvalid
      rw [next] at hstep
      split at hstep
      · rw [hstep] at hage ⊢
        rcases cell_cases (D := D) t with hlt | heq
        · obtain ⟨hdiv, hmod⟩ := cell_same hlt
          rw [age, hmod] at hage
          rw [line, hdiv]
          exact ih i hle (by rw [age]; omega)
        · rw [age, (cell_next heq).2] at hage
          omega
      · -- the stop bit goes on as the idle level
        rename_i hlast
        obtain ⟨hmod, hdiv⟩ := last_cell hvalid hlast
        rw [hstep] at hage ⊢
        rw [ih i hle (by rw [age, hmod]; exact Nat.le_of_succ_le hage)]
        show frameBit byte (t / (D + 1)) = true
        rw [hdiv]
        rfl

/-- A change of the level ends a cell, or an idle time, of at least `D + 1` cycles. -/
theorem age_of_change (h : Carries D w p) {n : ℕ}
    (hn : (p (n + 1)).line D ≠ (p n).line D) : (p n).age D = D := by
  have hvalid := h.valid n
  rw [h.step] at hn
  cases hp : p n with
  | idle => rfl
  | sending byte t =>
    rw [hp] at hn hvalid
    rcases cell_cases (D := D) t with hlt | heq
    · have hin : t + 1 < 10 * (D + 1) := by
        by_contra hlast
        exact absurd (last_cell hvalid hlast).1 hlt.ne
      rw [next, if_pos hin, line, (cell_same hlt).1] at hn
      exact absurd rfl hn
    · exact heq

theorem steady (h : Carries D w p) {M : ℕ} (hM : M ≤ D + 1) :
    Lib.Steady M fun n => (p n).line D := by
  intro n hn i hi hin
  refine h.kept n i hi ?_
  rw [h.age_of_change hn]
  omega

/-! ## Frames and writes -/

theorem begun_succ (h : Carries D w p) {T : ℕ} (hT : T + 1 < 10 * (D + 1)) (n : ℕ) :
    (p (n + 1)).begun (T + 1) = (p n).begun T := by
  rw [h.step]
  cases p n with
  | idle => cases w n <;> rfl
  | sending byte t =>
    rw [next]
    split
    · simp only [begun, Nat.add_right_cancel_iff]
    · rw [begun, begun, if_neg]
      omega

/-- A byte written to a free wire is a frame from the next cycle on. -/
theorem begun_write (h : Carries D w p) (hfree : ∀ n, (w n).isSome → p n = idle) (n : ℕ) :
    (p (n + 1)).begun 0 = w n := by
  rw [h.step]
  cases hw : w n with
  | some byte =>
    rw [hfree n (by rw [hw]; rfl)]
    rfl
  | none =>
    cases p n with
    | idle => rfl
    | sending byte t =>
      rw [next]
      split <;> rfl

theorem begun_early (h : Carries D w p) {T : ℕ} (hT : T < 10 * (D + 1)) :
    ∀ n ≤ T, (p n).begun T = none := by
  intro n hn
  induction n generalizing T with
  | zero =>
    rw [h.start]
    rfl
  | succ n ih =>
    obtain ⟨T, rfl⟩ : ∃ T', T = T' + 1 := ⟨T - 1, by omega⟩
    rw [h.begun_succ hT]
    exact ih (Nat.lt_of_succ_lt hT) (Nat.le_of_succ_le_succ hn)

theorem begun_late (h : Carries D w p) (hfree : ∀ n, (w n).isSome → p n = idle) {T : ℕ}
    (hT : T < 10 * (D + 1)) (n : ℕ) : (p (n + (T + 1))).begun T = w n := by
  induction T with
  | zero => exact h.begun_write hfree n
  | succ T ih =>
    rw [← Nat.add_assoc, h.begun_succ hT]
    exact ih (Nat.lt_of_succ_lt hT)

/-! ## A wire that is seen late -/

/-- The wire `k` cycles ago, idle before its start. -/
def late (k : ℕ) (p : ℕ → Wire) (n : ℕ) : Wire := if n < k then idle else p (n - k)

theorem late_add (k n : ℕ) : late k p (n + k) = p n := by
  rw [late, if_neg (Nat.not_lt.mpr (Nat.le_add_left k n)), Nat.add_sub_cancel]

theorem late_succ (h : Carries D w p) (k n : ℕ) :
    ∃ v, late k p (n + 1) = (late k p n).next D v := by
  rcases Nat.lt_trichotomy (n + 1) k with hlt | heq | hgt
  · refine ⟨none, ?_⟩
    rw [late, late, if_pos hlt, if_pos (Nat.lt_of_succ_lt hlt)]
    rfl
  · refine ⟨none, ?_⟩
    rw [late, late, if_neg heq.not_lt, if_pos (heq ▸ Nat.lt_succ_self n), ← heq, Nat.sub_self,
      h.start]
    rfl
  · obtain ⟨m, rfl⟩ := Nat.exists_eq_add_of_le' (Nat.lt_succ_iff.mp hgt)
    refine ⟨w m, ?_⟩
    rw [Nat.add_right_comm, late_add, late_add, h.step]

theorem late_valid (h : Carries D w p) (k n : ℕ) : (late k p n).Valid D := by
  rw [late]
  split
  · trivial
  · exact h.valid _

/-- The bytes arrive in order when each frame is taken at age `T`. -/
theorem emitted_begun (h : Carries D w p) (hfree : ∀ n, (w n).isSome → p n = idle) {T k : ℕ}
    (hT : T < 10 * (D + 1)) (N : ℕ) :
    Lib.emitted (fun n => (late k p n).begun T) (N + (T + 1 + k)) = Lib.emitted w N := by
  refine Lib.emitted_delay (fun n hn => ?_) (fun n => ?_) N
  · rw [late]
    split
    · rfl
    · exact h.begun_early hT _ (by omega)
  · rw [← Nat.add_assoc, late_add, h.begun_late hfree hT]

end Carries

end Wire

/-! ## The transmitter -/

namespace Transmitter

/-- The byte that this cycle asks to write. -/
def written (i : UartIn) : Option (BitVec 8) := if i.enableWrite then some i.dataIn else none

/-- The registers of a transmitter that puts this wire on the line. -/
inductive Sends (D : ℕ) : Wire → Transmitter → Prop where
  | idle {s : Transmitter} (bits : s.bitsWriteReg = 0b0000)
      (data : s.dataWriteReg.getLsbD 0 = true) : Sends D .idle s
  | sending {s : Transmitter} {byte : BitVec 8} {t : ℕ}
      (bits : s.bitsWriteReg.toNat = 10 - t / (D + 1))
      (delay : s.delayWriteReg.toNat = t % (D + 1))
      (data : ∀ k < 9, s.dataWriteReg.getLsbD k = frameBit byte (t / (D + 1) + k)) :
      Sends D (.sending byte t) s

variable {D : ℕ} {p : Wire} {s : Transmitter} {i : UartIn}

theorem Sends.uartWrite (h : Sends D p s) : s.uartWrite = p.line D := by
  cases h with
  | idle _ data => exact data
  | sending _ _ data => exact data 0 (by decide)

theorem sent_lt_ten {t : ℕ} (h : t < 10 * (D + 1)) : t / (D + 1) < 10 :=
  (Nat.div_lt_iff_lt_mul (Nat.succ_pos D)).mpr h

theorem Sends.busyWrite (h : Sends D p s) (hp : p.Valid D) :
    s.busyWrite = false ↔ p = .idle := by
  cases h with
  | idle bits _ => exact iff_of_true (by rw [Transmitter.busyWrite, bits]; rfl) rfl
  | sending bits _ _ =>
    refine iff_of_false (fun hz => ?_) Wire.noConfusion
    rw [Transmitter.busyWrite, decide_eq_false_iff_not, not_not] at hz
    rw [hz] at bits
    exact absurd bits.symm (Nat.sub_ne_zero_of_lt (sent_lt_ten hp))

theorem sends_reset : Sends D .idle reset := .idle rfl rfl

theorem frame_getLsbD (byte : BitVec 8) {k : ℕ} (hk : k < 9) :
    (byte ++ 0#1).getLsbD k = frameBit byte k := by
  rw [BitVec.getLsbD_append, frameBit]
  by_cases h0 : k = 0
  · subst h0
    rfl
  · rw [if_neg (by omega), if_neg h0, if_pos (by omega)]

theorem shift_getLsbD (x : BitVec 9) {k : ℕ} (hk : k < 9) :
    (1#1 ++ x.extractLsb' 1 8).getLsbD k = if k = 8 then true else x.getLsbD (k + 1) := by
  rw [BitVec.getLsbD_append, BitVec.getLsbD_extractLsb']
  by_cases h8 : k = 8
  · subst h8
    rfl
  · have hlt : k < 8 := by omega
    simp [h8, hlt, Nat.add_comm]

section Sending

variable {byte : BitVec 8} {t : ℕ}

theorem Sends.bits_ne_zero (h : Sends D (.sending byte t) s) (ht : t < 10 * (D + 1)) :
    s.bitsWriteReg ≠ 0b0000 := by
  cases h with
  | sending hbits _ _ =>
    intro hz
    rw [hz] at hbits
    exact absurd hbits.symm (Nat.sub_ne_zero_of_lt (sent_lt_ten ht))

/-- Inside a cell only the delay counts. -/
theorem Sends.step_inside (h : Sends D (.sending byte t) s) (ht : t < 10 * (D + 1))
    (hD : i.divisor.toNat = D) (hin : t % (D + 1) < D) :
    Sends D ((Wire.sending byte t).next D (written i)) (s.step i) := by
  have hbusy := h.bits_ne_zero ht
  cases h with
  | sending hbits hdelay hdata =>
    obtain ⟨hdiv, hmod⟩ := Wire.cell_same hin
    have hne : s.delayWriteReg ≠ i.divisor := fun hc => by
      rw [hc, hD] at hdelay
      exact absurd hdelay hin.ne'
    have hnext : t + 1 < 10 * (D + 1) := by
      by_contra hlast
      exact absurd (Wire.last_cell ht hlast).1 hin.ne
    have hd := i.divisor.isLt
    rw [Transmitter.step, if_neg hbusy, if_pos hne, Wire.next, if_pos hnext]
    refine .sending ?_ ?_ fun k hk => ?_
    · rw [hdiv]
      exact hbits
    · rw [hmod, ← hdelay, BitVec.toNat_add]
      refine Nat.mod_eq_of_lt ?_
      show s.delayWriteReg.toNat + 1 < 2 ^ 12
      omega
    · rw [hdiv]
      exact hdata k hk

/-- At the end of a cell the next bit is shifted out. -/
theorem Sends.step_end (h : Sends D (.sending byte t) s) (ht : t < 10 * (D + 1))
    (hD : i.divisor.toNat = D) (hend : t % (D + 1) = D) :
    Sends D ((Wire.sending byte t).next D (written i)) (s.step i) := by
  have hlt := sent_lt_ten (D := D) ht
  have hbusy := h.bits_ne_zero ht
  cases h with
  | sending hbits hdelay hdata =>
    obtain ⟨hdiv, hmod⟩ := Wire.cell_next hend
    have heq : s.delayWriteReg = i.divisor := BitVec.eq_of_toNat_eq (by rw [hdelay, hD, hend])
    have hone : 1 ≤ s.bitsWriteReg.toNat := by
      rw [hbits]
      exact Nat.sub_pos_of_lt hlt
    have hsub : (s.bitsWriteReg - 1).toNat = 9 - t / (D + 1) := by
      rw [pred_toNat hone, hbits]
      exact Nat.sub_right_comm 10 _ 1
    have hshift : ∀ k < 9, (1#1 ++ s.dataWriteReg.extractLsb' 1 8).getLsbD k =
        frameBit byte (t / (D + 1) + 1 + k) := fun k hk => by
      rw [shift_getLsbD _ hk]
      split
      · rename_i h8
        rw [h8]
        exact (frameBit_stop byte (Nat.lt_add_of_pos_left (Nat.succ_pos _))).symm
      · rw [hdata (k + 1) (by omega), Nat.add_assoc, Nat.add_comm 1 k]
    rw [Transmitter.step, if_neg hbusy, if_neg (not_not.mpr heq), Wire.next]
    split
    · refine .sending ?_ ?_ fun k hk => ?_
      · rw [hdiv]
        exact hsub.trans (Nat.succ_sub_succ 9 _).symm
      · rw [hmod]
        rfl
      · rw [hdiv]
        exact hshift k hk
    · -- the stop bit was the last one
      rename_i hlast
      have h9 := (Wire.last_cell ht hlast).2
      refine .idle (BitVec.eq_of_toNat_eq ?_) ?_
      · rw [hsub, h9]
        rfl
      · show (1#1 ++ s.dataWriteReg.extractLsb' 1 8).getLsbD 0 = true
        rw [hshift 0 (by decide), h9]
        rfl

end Sending

/-- One cycle of the transmitter is one cycle of the wire. -/
theorem Sends.step (h : Sends D p s) (hp : p.Valid D) (hD : i.divisor.toNat = D) :
    Sends D (p.next D (written i)) (s.step i) := by
  cases p with
  | idle =>
    cases h with
    | idle hbits hdata =>
      rw [Transmitter.step, if_pos hbits, written]
      cases i.enableWrite with
      | false => exact .idle hbits hdata
      | true =>
        refine .sending ?_ ?_ fun k hk => ?_
        · rw [Nat.zero_div]
          rfl
        · rw [Nat.zero_mod]
          rfl
        · rw [Nat.zero_div, Nat.zero_add]
          exact frame_getLsbD i.dataIn hk
  | sending byte t =>
    rcases Wire.cell_cases (D := D) t with hin | hend
    · exact h.step_inside hp hD hin
    · exact h.step_end hp hD hend

/-- Along a run the transmitter sends what it is asked to write. -/
theorem sends_run {D : ℕ} {x : ℕ → UartIn} (hD : ∀ n, (x n).divisor.toNat = D) (n : ℕ) :
    Sends D (Wire.wire D (fun m => written (x m)) n) (Uart.after x n).toTransmitter := by
  induction n with
  | zero => exact sends_reset
  | succ n ih =>
    rw [Uart.after_succ]
    exact ih.step ((Wire.carries_wire _).valid n) (hD n)

end Transmitter

/-! ## The receiver -/

namespace Wire

/-- The cycles until a receiver that hears this wire is at rest. It notices the start
bit in its first cycle and waits half a period, then comes a period for each of the nine
samples. -/
def left (D : ℕ) : Wire → ℕ
  | idle => 0
  | sending _ 0 => 0
  | sending _ (t + 1) => 9 * (D + 1) + D / 2 - t

/-- The age of a frame when its byte is complete. -/
def byteAge (D : ℕ) : ℕ := 8 * (D + 1) + D / 2 + 2

variable {D : ℕ}

theorem byteAge_lt (hD : 2 ≤ D) : byteAge D < 10 * (D + 1) := by
  unfold byteAge
  omega

/-- With `m` samples to come, the receiver samples inside the cell of bit `9 - m`. -/
theorem sampled_cell (hD : 2 ≤ D) {m t : ℕ} (hm : 1 ≤ m)
    (h : m * (D + 1) = 9 * (D + 1) + D / 2 - t) : m ≤ 9 ∧ (t + 1) / (D + 1) = 9 - m := by
  have hle : m ≤ 9 := by
    by_contra hgt
    have hmul := Nat.mul_le_mul_right (D + 1) (Nat.lt_of_not_le hgt)
    omega
  have hsplit : m * (D + 1) + (9 - m) * (D + 1) = 9 * (D + 1) := by
    rw [← Nat.add_mul, Nat.add_sub_cancel' hle]
  have hpos : 0 < m * (D + 1) := Nat.mul_pos hm (Nat.succ_pos D)
  generalize m * (D + 1) = a at h hsplit hpos
  refine ⟨hle, Nat.div_eq_of_lt_le ?_ ?_⟩
  · generalize (9 - m) * (D + 1) = b at hsplit ⊢
    omega
  · rw [Nat.succ_mul]
    generalize (9 - m) * (D + 1) = b at hsplit ⊢
    omega

/-- A receiver at rest before the end of a frame sees the stop bit. -/
theorem rest_cell {t : ℕ} (ht : t + 1 < 10 * (D + 1))
    (h : 9 * (D + 1) + D / 2 - t = 0) : (t + 1) / (D + 1) = 9 :=
  Nat.div_eq_of_lt_le (by omega) (by omega)

/-- While the receiver is busy the frame goes on. -/
theorem left_next {byte : BitVec 8} {t : ℕ} (hD : 2 ≤ D) (h : 0 < 9 * (D + 1) + D / 2 - t)
    (w : Option (BitVec 8)) :
    (sending byte (t + 1)).next D w = sending byte (t + 2) ∧
      (sending byte (t + 2)).left D + 1 = 9 * (D + 1) + D / 2 - t := by
  constructor
  · rw [next, if_pos (by omega)]
  · show 9 * (D + 1) + D / 2 - (t + 1) + 1 = _
    omega

end Wire

namespace Receiver

/-- The registers of a receiver that hears this wire. -/
structure Hears (D : ℕ) (p : Wire) (s : Receiver) : Prop where
  count : s.bitsReadReg.toNat * (D + 1) + s.delayReadReg.toNat = p.left D
  delay_le : s.delayReadReg.toNat ≤ D
  data : ∀ byte t, p = .sending byte t → 0 < t → ∀ k, k + s.bitsReadReg.toNat < 8 →
    s.dataReadReg.getLsbD (k + s.bitsReadReg.toNat) = byte.getLsbD k

variable {D : ℕ} {p : Wire} {s : Receiver} {i : UartIn}

theorem hears_reset : Hears D .idle reset := ⟨Nat.zero_mul _, Nat.zero_le D, by simp⟩

/-- The receiver is at rest. -/
def Rests (s : Receiver) : Prop := s.bitsReadReg = 0b0000 ∧ s.delayReadReg = 0

theorem Hears.rests (h : Hears D p s) (hp : p.left D = 0) : s.Rests := by
  have hcount := h.count
  rw [hp, Nat.add_eq_zero_iff, Nat.mul_eq_zero] at hcount
  exact ⟨BitVec.eq_of_toNat_eq (hcount.1.resolve_right (Nat.succ_ne_zero D)),
    BitVec.eq_of_toNat_eq hcount.2⟩

theorem sample_rests (h : s.Rests) (hline : s.uartRead2 = true) : s.sample i = s := by
  rw [sample, if_pos h.2, if_pos h.1, if_neg (by rw [hline]; decide)]

theorem sample_start (h : s.Rests) (hline : s.uartRead2 = false) :
    s.sample i =
      { s with
        delayReadReg := 0#1 ++ i.divisor.extractLsb' 1 11
        bitsReadReg := 0b1001 } := by
  rw [sample, if_pos h.2, if_pos h.1, if_pos hline]

theorem half_toNat (d : BitVec 12) : (0#1 ++ d.extractLsb' 1 11).toNat = d.toNat / 2 := by
  have hd := d.isLt
  rw [BitVec.toNat_append, BitVec.extractLsb'_toNat, Nat.shiftRight_one]
  show 0 <<< 11 ||| d.toNat / 2 % 2 ^ 11 = d.toNat / 2
  rw [Nat.zero_shiftLeft, Nat.zero_or]
  exact Nat.mod_eq_of_lt (by omega)

theorem shiftIn_getLsbD (b : Bool) (x : BitVec 8) {k : ℕ} (hk : k < 8) :
    (BitVec.ofBool b ++ x.extractLsb' 1 7).getLsbD k = if k = 7 then b else x.getLsbD (k + 1) := by
  rw [BitVec.getLsbD_append, BitVec.getLsbD_extractLsb']
  by_cases h7 : k = 7
  · subst h7
    simp
  · have hlt : k < 7 := by omega
    simp [h7, hlt, Nat.add_comm]

section Frame

variable {byte : BitVec 8} {t : ℕ}

/-- The start bit is noticed. -/
theorem Hears.start (h : Hears D (.sending byte 0) s) (hD : i.divisor.toNat = D)
    (hline : s.uartRead2 = (Wire.sending byte 0).line D) :
    Hears D (.sending byte 1) (s.sample i) := by
  rw [Wire.line, Nat.zero_div] at hline
  have hhalf := half_toNat i.divisor
  rw [hD] at hhalf
  rw [sample_start (h.rests rfl) hline]
  refine ⟨?_, ?_, fun _ _ _ _ k hk => ?_⟩
  · show 9 * (D + 1) + (0#1 ++ i.divisor.extractLsb' 1 11).toNat = 9 * (D + 1) + D / 2 - 0
    rw [hhalf, Nat.sub_zero]
  · show (0#1 ++ i.divisor.extractLsb' 1 11).toNat ≤ D
    rw [hhalf]
    exact Nat.div_le_self D 2
  · replace hk : k + 9 < 8 := hk
    omega

/-- A receiver at rest waits for the end of the frame. -/
theorem Hears.rest (h : Hears D (.sending byte (t + 1)) s) (ht : t + 1 < 10 * (D + 1))
    (hline : s.uartRead2 = (Wire.sending byte (t + 1)).line D)
    (hzero : 9 * (D + 1) + D / 2 - t = 0) (w : Option (BitVec 8)) :
    Hears D ((Wire.sending byte (t + 1)).next D w) (s.sample i) := by
  have hhigh : s.uartRead2 = true := by
    rw [hline, Wire.line, Wire.rest_cell ht hzero]
    rfl
  rw [sample_rests (h.rests hzero) hhigh, Wire.next]
  split
  · refine ⟨h.count.trans ?_, h.delay_le, fun byte' t' heq _ => ?_⟩
    · show 9 * (D + 1) + D / 2 - t = 9 * (D + 1) + D / 2 - (t + 1)
      omega
    · obtain ⟨rfl, -⟩ := Wire.sending.inj heq
      exact h.data byte (t + 1) rfl (Nat.succ_pos t)
  · exact ⟨h.count.trans hzero, h.delay_le, fun _ _ heq => Wire.noConfusion heq⟩

/-- A busy receiver lets the delay run down. -/
theorem Hears.wait (h : Hears D (.sending byte (t + 1)) s) (hdelay : s.delayReadReg ≠ 0)
    (hleft : (Wire.sending byte (t + 2)).left D + 1 = 9 * (D + 1) + D / 2 - t) :
    Hears D (.sending byte (t + 2)) (s.sample i) := by
  have hcount : s.bitsReadReg.toNat * (D + 1) + s.delayReadReg.toNat =
    9 * (D + 1) + D / 2 - t := h.count
  have hle := h.delay_le
  have hpred : (s.delayReadReg - 1).toNat + 1 = s.delayReadReg.toNat := by
    bv_omega
  rw [sample, if_neg hdelay]
  refine ⟨?_, ?_, fun byte' t' heq _ => ?_⟩
  · show s.bitsReadReg.toNat * (D + 1) + (s.delayReadReg - 1).toNat = _
    omega
  · show (s.delayReadReg - 1).toNat ≤ D
    omega
  · obtain ⟨rfl, -⟩ := Wire.sending.inj heq
    exact h.data byte (t + 1) rfl (Nat.succ_pos t)

/-- A busy receiver samples the bit of the cell it is in. -/
theorem Hears.sampled (h : Hears D (.sending byte (t + 1)) s) (hD : i.divisor.toNat = D)
    (h2 : 2 ≤ D) (hline : s.uartRead2 = (Wire.sending byte (t + 1)).line D)
    (hdelay : s.delayReadReg = 0)
    (hleft : (Wire.sending byte (t + 2)).left D + 1 = 9 * (D + 1) + D / 2 - t) :
    Hears D (.sending byte (t + 2)) (s.sample i) := by
  have hcount : s.bitsReadReg.toNat * (D + 1) = 9 * (D + 1) + D / 2 - t := by
    have hc := h.count
    rw [hdelay] at hc
    exact hc
  obtain ⟨m, hm⟩ : ∃ m, s.bitsReadReg.toNat = m + 1 := by
    refine Nat.exists_eq_succ_of_ne_zero fun hz => ?_
    rw [hz, Nat.zero_mul] at hcount
    omega
  have hone : 1 ≤ s.bitsReadReg.toNat := hm ▸ Nat.succ_pos m
  obtain ⟨hnine, hcell⟩ := Wire.sampled_cell h2 hone hcount
  have hne : s.bitsReadReg ≠ 0b0000 := fun hz => by
    rw [hz] at hone
    exact absurd hone (by decide)
  have hpred := pred_toNat hone
  rw [hm, Nat.add_sub_cancel] at hpred
  rw [Wire.line, hcell, hm] at hline
  rw [hm, Nat.succ_mul] at hcount
  rw [sample, if_pos hdelay, if_neg hne]
  refine ⟨?_, hD.le, fun byte' t' heq _ k hk => ?_⟩
  · show (s.bitsReadReg - 1).toNat * (D + 1) + i.divisor.toNat = _
    rw [hpred, hD]
    omega
  · obtain ⟨rfl, -⟩ := Wire.sending.inj heq
    show (BitVec.ofBool s.uartRead2 ++ s.dataReadReg.extractLsb' 1 7).getLsbD
      (k + (s.bitsReadReg - 1).toNat) = byte.getLsbD k
    replace hk : k + (s.bitsReadReg - 1).toNat < 8 := hk
    rw [hpred] at hk ⊢
    rw [shiftIn_getLsbD _ _ hk]
    split
    · -- the new bit
      rw [hline, show 9 - (m + 1) = k + 1 by omega, frameBit, if_neg (Nat.succ_ne_zero k),
        if_pos (by omega), Nat.add_sub_cancel]
    · have hdata := h.data byte (t + 1) rfl (Nat.succ_pos t) k
      rw [hm] at hdata
      exact hdata (by omega)

end Frame

/-- One cycle of the receiver follows one cycle of the wire. -/
theorem Hears.step (h : Hears D p s) (hp : p.Valid D) (hD : i.divisor.toNat = D) (h2 : 2 ≤ D)
    (hline : s.uartRead2 = p.line D) (w : Option (BitVec 8)) :
    Hears D (p.next D w) (s.step i) := by
  have hsample : ∀ q, Hears D q (s.sample i) → Hears D q (s.step i) := fun q hq =>
    ⟨hq.count, hq.delay_le, hq.data⟩
  apply hsample
  rcases p with _ | ⟨byte, _ | t⟩
  · rw [sample_rests (h.rests rfl) hline]
    cases w with
    | none => exact h
    | some byte =>
      refine ⟨h.count, h.delay_le, fun _ _ heq hpos => ?_⟩
      rw [(Wire.sending.inj heq).2] at hpos
      exact absurd hpos (Nat.lt_irrefl _)
  · rw [Wire.next, if_pos (by omega)]
    exact h.start hD hline
  · rcases Nat.eq_zero_or_pos (9 * (D + 1) + D / 2 - t) with hzero | hpos
    · exact h.rest hp hline hzero w
    · obtain ⟨hnext, hleft⟩ := @Wire.left_next D byte t h2 hpos w
      rw [hnext]
      by_cases hdelay : s.delayReadReg = 0
      · exact h.sampled hD h2 hline hdelay hleft
      · exact h.wait hdelay hleft

/-- A byte is complete when its frame has reached `byteAge`. -/
theorem Hears.completed (h : Hears D p s) (hD : i.divisor.toNat = D) (hpos : 0 < D) :
    s.completed i = p.begun (Wire.byteAge D) := by
  have hcount := h.count
  have hle := h.delay_le
  have hiff : s.complete i = true ↔ p.left D = D := by
    rw [complete, decide_eq_true_iff, ← hcount, ← BitVec.toNat_inj, ← BitVec.toNat_inj, hD]
    constructor
    · rintro ⟨hbits, hdelay⟩
      rw [hbits, hdelay]
      simp
    · intro hsum
      have hbits : s.bitsReadReg.toNat = 0 := by
        by_contra hne
        have hmul := Nat.le_mul_of_pos_left (D + 1) (Nat.pos_of_ne_zero hne)
        omega
      rw [hbits, Nat.zero_mul, Nat.zero_add] at hsum
      exact ⟨hbits, hsum⟩
  rw [Receiver.completed]
  rcases p with _ | ⟨byte, _ | t⟩
  · rw [if_neg (fun hc => hpos.ne (hiff.mp hc)), Wire.begun]
  · rw [if_neg (fun hc => hpos.ne (hiff.mp hc)), Wire.begun, if_neg]
    unfold Wire.byteAge
    omega
  · have hage : (Wire.sending byte (t + 1)).left D = D ↔ t + 1 = Wire.byteAge D := by
      show 9 * (D + 1) + D / 2 - t = D ↔ _
      unfold Wire.byteAge
      omega
    rw [Wire.begun]
    by_cases hc : s.complete i = true
    · rw [if_pos hc, if_pos (hage.mp (hiff.mp hc))]
      rw [complete, decide_eq_true_iff] at hc
      congr 1
      refine BitVec.eq_of_getLsbD_eq fun k hk => ?_
      have hdata := h.data byte (t + 1) rfl (Nat.succ_pos t) k
      rw [hc.1] at hdata
      exact hdata hk
    · rw [if_neg hc, if_neg fun hb => hc (hiff.mpr (hage.mpr hb))]

/-- A receiver connected to a wire sees it 128 cycles late. -/
theorem uartRead2_late {w : ℕ → Option (BitVec 8)} {q : ℕ → Wire} (hq : Wire.Carries D w q)
    (hD : 254 ≤ D) {y : ℕ → UartIn} (hline : ∀ n, (y n).uartRead = (q n).line D) (n : ℕ) :
    (Uart.after y n).uartRead2 = (Wire.Carries.late 128 q n).line D := by
  have hup := upDown (r := fun n => (Uart.after y n).toReceiver)
    (fun n => congrArg Uart.toReceiver (Uart.after_succ y n)) rfl
  have hsteady : Lib.Steady 255 fun n => (y n).uartRead := by
    simp only [hline]
    exact hq.steady (by omega)
  have hstart : (y 0).uartRead = true := by
    rw [hline, hq.start]
    rfl
  rw [Bool.eq_iff_iff, uartRead2_iff, Wire.Carries.late]
  split
  · rename_i hn
    exact iff_of_true (hup.initial (k := 128) rfl hn) rfl
  · rename_i hn
    obtain ⟨m, rfl⟩ := Nat.exists_eq_add_of_le' (Nat.le_of_not_lt hn)
    rw [Nat.add_sub_cancel, ← hline]
    exact hup.delay hsteady hstart rfl m

/-- Along a run the receiver hears the wire. -/
theorem hears_run {w : ℕ → Option (BitVec 8)} {q : ℕ → Wire} (hq : Wire.Carries D w q)
    (h254 : 254 ≤ D) {y : ℕ → UartIn} (hD : ∀ n, (y n).divisor.toNat = D)
    (hline : ∀ n, (y n).uartRead = (q n).line D) (n : ℕ) :
    Hears D (Wire.Carries.late 128 q n) (Uart.after y n).toReceiver := by
  induction n with
  | zero => exact hears_reset
  | succ n ih =>
    obtain ⟨v, hv⟩ := hq.late_succ 128 n
    rw [hv, Uart.after_succ]
    exact ih.step (hq.late_valid 128 n) (hD n) (by omega) (uartRead2_late hq h254 hline n) v

end Receiver

end HfRisc.Rtl
