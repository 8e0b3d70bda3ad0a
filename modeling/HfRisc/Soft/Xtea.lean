import HfRisc.Arch
import Mathlib.Logic.Function.Iterate

/-!
# XTEA (`xtea.c`)

`encipher` and `decipher`, as `xtea.c` and `xtea2.c` have them (there as `xtea_encrypt` and
`xtea_decrypt`). The loops are iterations of one round over the local variables. A round of
the one undoes a round of the other.
-/

namespace HfRisc.Soft

namespace Xtea

def delta : Word := 0x9E3779B9

/-- `((v << 4) ^ (v >> 5)) + v`. -/
def mix (v : Word) : Word := ((v <<< 4) ^^^ (v >>> 5)) + v

/-- The variables of the loops. -/
structure Vars where
  v0 : Word
  v1 : Word
  sum : Word
deriving DecidableEq, Repr

variable (key : ℕ → Word)

/-- `sum + key[sum & 3]`. -/
def lowKey (sum : Word) : Word := sum + key (sum &&& 3).toNat

/-- `sum + key[(sum >> 11) & 3]`. -/
def highKey (sum : Word) : Word := sum + key ((sum >>> 11) &&& 3).toNat

/-- The body of the loop of `encipher`. -/
def encipherRound (s : Vars) : Vars :=
  let v0 := s.v0 + (mix s.v1 ^^^ lowKey key s.sum)
  let sum := s.sum + delta
  { v0 := v0, v1 := s.v1 + (mix v0 ^^^ highKey key sum), sum := sum }

/-- The body of the loop of `decipher`. -/
def decipherRound (s : Vars) : Vars :=
  let v1 := s.v1 - (mix s.v0 ^^^ highKey key s.sum)
  let sum := s.sum - delta
  { v0 := s.v0 - (mix v1 ^^^ lowKey key sum), v1 := v1, sum := sum }

end Xtea

open Xtea

/-- `encipher`. -/
def encipher (numRounds : ℕ) (v : Word × Word) (key : ℕ → Word) : Word × Word :=
  let s := (encipherRound key)^[numRounds] ⟨v.1, v.2, 0⟩
  (s.v0, s.v1)

/-- `decipher`. -/
def decipher (numRounds : ℕ) (v : Word × Word) (key : ℕ → Word) : Word × Word :=
  let s := (decipherRound key)^[numRounds] ⟨v.1, v.2, delta * BitVec.ofNat 32 numRounds⟩
  (s.v0, s.v1)

namespace Xtea

variable {key : ℕ → Word}

theorem decipherRound_encipherRound :
    Function.LeftInverse (decipherRound key) (encipherRound key) := by
  rintro ⟨v0, v1, sum⟩
  simp [encipherRound, decipherRound]

theorem encipherRound_decipherRound :
    Function.LeftInverse (encipherRound key) (decipherRound key) := by
  rintro ⟨v0, v1, sum⟩
  simp [encipherRound, decipherRound]

/-- The sum after some rounds. -/
theorem iterate_sum (n : ℕ) (s : Vars) :
    ((encipherRound key)^[n] s).sum = s.sum + delta * BitVec.ofNat 32 n := by
  induction n with
  | zero => simp
  | succ n ih =>
    rw [Function.iterate_succ_apply']
    show ((encipherRound key)^[n] s).sum + delta = _
    rw [ih, BitVec.ofNat_add, BitVec.mul_add, BitVec.add_assoc]
    simp

/-- The sum after some rounds back. -/
theorem iterate_sum_back (n : ℕ) (s : Vars) :
    ((decipherRound key)^[n] s).sum = s.sum - delta * BitVec.ofNat 32 n := by
  have hsum := @iterate_sum key n ((decipherRound key)^[n] s)
  rw [(@encipherRound_decipherRound key).iterate n s] at hsum
  exact BitVec.eq_sub_iff_add_eq.mpr hsum.symm

end Xtea

/-- `decipher` undoes `encipher`. -/
theorem decipher_encipher (numRounds : ℕ) (v : Word × Word) (key : ℕ → Word) :
    decipher numRounds (encipher numRounds v key) key = v := by
  have hsum : ((encipherRound key)^[numRounds] ⟨v.1, v.2, 0⟩).sum =
      delta * BitVec.ofNat 32 numRounds :=
    (iterate_sum numRounds _).trans (BitVec.zero_add _)
  have hback := (@decipherRound_encipherRound key).iterate numRounds ⟨v.1, v.2, 0⟩
  have hvars : (⟨(encipher numRounds v key).1, (encipher numRounds v key).2,
      delta * BitVec.ofNat 32 numRounds⟩ : Vars) =
      (encipherRound key)^[numRounds] ⟨v.1, v.2, 0⟩ := by
    rw [← hsum]
    rfl
  rw [decipher, hvars, hback]

/-- `encipher` undoes `decipher`: the sum has come down to 0, from where `encipher` starts. -/
theorem encipher_decipher (numRounds : ℕ) (v : Word × Word) (key : ℕ → Word) :
    encipher numRounds (decipher numRounds v key) key = v := by
  have hsum : ((decipherRound key)^[numRounds]
      ⟨v.1, v.2, delta * BitVec.ofNat 32 numRounds⟩).sum = 0 :=
    (iterate_sum_back numRounds _).trans (BitVec.sub_self _)
  have hback := (@encipherRound_decipherRound key).iterate numRounds
    ⟨v.1, v.2, delta * BitVec.ofNat 32 numRounds⟩
  have hvars : (⟨(decipher numRounds v key).1, (decipher numRounds v key).2, 0⟩ : Vars) =
      (decipherRound key)^[numRounds] ⟨v.1, v.2, delta * BitVec.ofNat 32 numRounds⟩ := by
    rw [← hsum]
    rfl
  rw [encipher, hvars, hback]

end HfRisc.Soft
