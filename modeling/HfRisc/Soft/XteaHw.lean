import HfRisc.Rtl.Step
import HfRisc.Rtl.XteaPort
import HfRisc.Soft.Xtea

/-!
# The driver of the XTEA core (`xtea_hw_vec.c`)

The functions access the registers of the test bench in the order of the source. Between two
accesses the processor takes any number of cycles and does anything else on its bus. The polling
loop returns nothing when it runs out of fuel.
-/

namespace HfRisc.Soft.XteaHw

open HfRisc.Rtl (ExtBus XteaPort swapBytes)

/-! ## Registers (`hf-risc.h`) -/

def xteaControl : Word := 0xfa000000
def xteaKey0 : Word := 0xfa000010
def xteaKey1 : Word := 0xfa000020
def xteaKey2 : Word := 0xfa000030
def xteaKey3 : Word := 0xfa000040
def xteaIn0 : Word := 0xfa000050
def xteaIn1 : Word := 0xfa000060
def xteaOut0 : Word := 0xfa000070
def xteaOut1 : Word := 0xfa000080

/-! ## Accesses -/

/-- What the processor does in a cycle without an access of the driver, and how many of them come
before an access, by the time. -/
structure World where
  bus : ℕ → ExtBus
  gap : ℕ → ℕ

structure Machine where
  port : XteaPort
  time : ℕ

namespace Machine

variable (env : World) (m : Machine)

/-- A cycle without an access. -/
def tick : Machine := ⟨m.port.step (env.bus m.time), m.time + 1⟩

/-- The cycles before an access. -/
def wait : Machine := (tick env)^[env.gap m.time] m

/-- The cycle of an access. -/
def access (b : ExtBus) : Machine := ⟨(m.wait env).port.step b, (m.wait env).time + 1⟩

def store (address value : Word) : Machine := m.access env ⟨address, swapBytes value, 0b1111⟩

/-- The word is on the bus in the cycle behind the address. -/
def load (address : Word) : Word × Machine :=
  let m := m.access env ⟨address, 0, 0b0000⟩
  (swapBytes m.port.dataReadXtea, m)

/-! ## The driver -/

/-- `while (!(XTEA_CONTROL & 0x4));` -/
def poll : ℕ → Machine → Option Machine
  | 0, _ => none
  | fuel + 1, m =>
    let (control, m) := m.load env xteaControl
    if control &&& 0x4 = 0 then poll fuel m else some m

/-- The four stores of the key. -/
def xteaHwSetkey (key : ℕ → Word) : Machine :=
  (((m.store env xteaKey0 (key 0)).store env xteaKey1 (key 1)).store env xteaKey2 (key 2)).store env
    xteaKey3 (key 3)

/-- From the stores of the block to the loads of the result. -/
def process (fuel : ℕ) (control : Word) (v : Word × Word) : Option ((Word × Word) × Machine) := do
  let m := m.store env xteaIn0 v.1
  let m := m.store env xteaIn1 v.2
  let m := m.store env xteaControl control
  let m ← poll env fuel m
  let m := m.store env xteaControl 0x0
  let (v0, m) := m.load env xteaOut0
  let (v1, m) := m.load env xteaOut1
  some ((v0, v1), m)

def xteaHwEncipher (fuel : ℕ) (v : Word × Word) (key : ℕ → Word) :
    Option ((Word × Word) × Machine) :=
  ((m.store env xteaControl 0x2).xteaHwSetkey env key).process env fuel 0x3 v

def xteaHwDecipher (fuel : ℕ) (v : Word × Word) (key : ℕ → Word) :
    Option ((Word × Word) × Machine) :=
  ((m.store env xteaControl 0x2).xteaHwSetkey env key).process env fuel 0x1 v

def xteaHwEncipherFast (fuel : ℕ) (v : Word × Word) : Option ((Word × Word) × Machine) :=
  (m.store env xteaControl 0x2).process env fuel 0x3 v

def xteaHwDecipherFast (fuel : ℕ) (v : Word × Word) : Option ((Word × Word) × Machine) :=
  (m.store env xteaControl 0x2).process env fuel 0x1 v

end Machine

/-! ## Programs -/

/-- A call of the driver. -/
inductive Request
  | encipher (v : Word × Word) (key : ℕ → Word)
  | decipher (v : Word × Word) (key : ℕ → Word)
  | setkey (key : ℕ → Word)
  | encipherFast (v : Word × Word)
  | decipherFast (v : Word × Word)

/-- A call gives back a block, or none where only the key is set. -/
def Machine.call (env : World) (fuel : ℕ) (m : Machine) :
    Request → Option (Option (Word × Word) × Machine)
  | .encipher v key => (m.xteaHwEncipher env fuel v key).map fun r => (some r.1, r.2)
  | .decipher v key => (m.xteaHwDecipher env fuel v key).map fun r => (some r.1, r.2)
  | .setkey key => some (none, m.xteaHwSetkey env key)
  | .encipherFast v => (m.xteaHwEncipherFast env fuel v).map fun r => (some r.1, r.2)
  | .decipherFast v => (m.xteaHwDecipherFast env fuel v).map fun r => (some r.1, r.2)

/-- Calls one behind the other. -/
def Machine.serve (env : World) (fuel : ℕ) :
    List Request → Machine → Option (List (Option (Word × Word)) × Machine)
  | [], m => some ([], m)
  | r :: rs, m => do
    let (v, m) ← m.call env fuel r
    let (vs, m) ← Machine.serve env fuel rs m
    some (v :: vs, m)

/-- The device that the driver is there for: it holds a key, and a call gives back what the
functions of `xtea.c` compute in 32 rounds. -/
def reference (key : ℕ → Word) : Request → Option (Word × Word) × (ℕ → Word)
  | .encipher v key => (some (encipher 32 v key), key)
  | .decipher v key => (some (decipher 32 v key), key)
  | .setkey key => (none, key)
  | .encipherFast v => (some (encipher 32 v key), key)
  | .decipherFast v => (some (decipher 32 v key), key)

def references (key : ℕ → Word) : List Request → List (Option (Word × Word))
  | [] => []
  | r :: rs => (reference key r).1 :: references (reference key r).2 rs

end HfRisc.Soft.XteaHw
