import HfRisc.Arch
import HfRisc.Lib.Mealy

/-!
# The XTEA core (`xtea.vhd`)

A round takes four cycles: a word of the key is selected by the sum and registered, one half
of the block is changed, and the same for the other half. Encryption selects by the low bits
of the sum first, decryption by the high ones.
-/

namespace HfRisc.Rtl

/-- The states of the core. -/
inductive XteaState
  | idle | encStep1 | encStep2 | encStep3 | decStep1 | decStep2 | decStep3
  | keySel1 | keySel2 | done
deriving DecidableEq, Repr

/-- The registers. -/
structure Xtea where
  state : XteaState
  v0 : Word
  v1 : Word
  sum : Word
  keySel : Word
  counter : BitVec 8
  output : BitVec 64
  ready : Bool
deriving DecidableEq, Repr

/-- The inputs in one cycle. -/
structure XteaIn where
  start : Bool
  encrypt : Bool
  key : BitVec 128
  input : BitVec 64

namespace Xtea

/-- `ROUNDS`. -/
def rounds : ℕ := 32

def delta : Word := 0x9e3779b9

/-- The registers after `reset`. -/
def reset : Xtea where
  state := .idle
  v0 := 0
  v1 := 0
  sum := 0
  keySel := 0
  counter := 0
  output := 0
  ready := false

/-- The word of the key that two bits of the sum select. -/
def keyWord (key : BitVec 128) (k : BitVec 2) : Word :=
  if k = 0b00 then key.extractLsb' 96 32
  else if k = 0b01 then key.extractLsb' 64 32
  else if k = 0b10 then key.extractLsb' 32 32
  else key.extractLsb' 0 32

/-- `((v(27 downto 0) & "0000") xor ("00000" & v(31 downto 5))) + v`. -/
def mix (v : Word) : Word := ((v.extractLsb' 0 28 ++ 0#4) ^^^ (0#5 ++ v.extractLsb' 5 27)) + v

/-- One clock edge. -/
def step (s : Xtea) (i : XteaIn) : Xtea :=
  match s.state with
  | .idle =>
    -- `ready` goes down with the next edge, so it is still up in the first of these cycles
    { s with
      state := if i.start then if i.encrypt then .encStep1 else .decStep1 else .idle
      ready := false
      counter := 0 }
  | .keySel1 =>
    { s with
      state := if i.encrypt then .encStep2 else .decStep3
      keySel := keyWord i.key (s.sum.extractLsb' 0 2) }
  | .keySel2 =>
    { s with
      state := if i.encrypt then .encStep3 else .decStep2
      keySel := keyWord i.key (s.sum.extractLsb' 11 2) }
  | .encStep1 =>
    { s with
      state := .keySel1
      v1 := i.input.extractLsb' 0 32
      v0 := i.input.extractLsb' 32 32
      sum := 0 }
  | .encStep2 =>
    { s with
      state := .keySel2
      v0 := s.v0 + (mix s.v1 ^^^ (s.sum + s.keySel))
      sum := s.sum + delta }
  | .encStep3 =>
    { s with
      state := if s.counter.toNat < rounds - 1 then .keySel1 else .done
      v1 := s.v1 + (mix s.v0 ^^^ (s.sum + s.keySel))
      counter := s.counter + 1 }
  | .decStep1 =>
    -- the sum of 32 rounds of `delta`
    { s with
      state := .keySel2
      v1 := i.input.extractLsb' 0 32
      v0 := i.input.extractLsb' 32 32
      sum := 0xc6ef3720 }
  | .decStep2 =>
    { s with
      state := .keySel1
      v1 := s.v1 - (mix s.v0 ^^^ (s.sum + s.keySel))
      sum := s.sum - delta }
  | .decStep3 =>
    { s with
      state := if s.counter.toNat < rounds - 1 then .keySel2 else .done
      v0 := s.v0 - (mix s.v1 ^^^ (s.sum + s.keySel))
      counter := s.counter + 1 }
  | .done =>
    { s with
      state := if i.start then .done else .idle
      output := s.v0 ++ s.v1
      ready := true }

/-- The entity as a machine that emits its outputs. -/
def machine : Lib.Mealy Xtea XteaIn (BitVec 64 × Bool) where
  step := step
  out s _ := [(s.output, s.ready)]

/-- The registers after the first `k` inputs of a stream. -/
def after (s : Xtea) (x : ℕ → XteaIn) (k : ℕ) : Xtea := machine.run s (Lib.Mealy.inputs x k)

theorem after_succ (s : Xtea) (x : ℕ → XteaIn) (k : ℕ) :
    s.after x (k + 1) = (s.after x k).step (x k) :=
  machine.run_inputs_succ s x k

end Xtea

end HfRisc.Rtl
