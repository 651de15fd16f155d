import Nmos6502.Word

namespace Nmos6502

inductive Flag where
  | carry | zero | interruptDisable | decimal | brk | unused | overflow | negative
  deriving DecidableEq, Repr

namespace Flag

def mask : Flag → Byte
  | carry => 0x01
  | zero => 0x02
  | interruptDisable => 0x04
  | decimal => 0x08
  | brk => 0x10
  | unused => 0x20
  | overflow => 0x40
  | negative => 0x80

def name : Flag → String
  | carry => "C"
  | zero => "Z"
  | interruptDisable => "I"
  | decimal => "D"
  | brk => "B"
  | unused => "B2"
  | overflow => "V"
  | negative => "N"

def all : List Flag :=
  [carry, zero, interruptDisable, decimal, brk, unused, overflow, negative]

/-- The flag whose bit is exactly `mask`. -/
def ofMask? (mask : Byte) : Option Flag :=
  all.find? fun flag => flag.mask == mask

/-- The name of the one flag in `mask`, or `?` when there is not exactly one. -/
def nameOf (mask : Byte) : String :=
  match ofMask? mask with
  | some flag => flag.name
  | none => "?"

theorem mask_injective {f g : Flag} (h : f.mask = g.mask) : f = g := by
  revert h
  cases f <;> cases g <;> decide

theorem ofMask?_mask (flag : Flag) : ofMask? flag.mask = some flag := by
  cases flag <;> rfl

end Flag

structure Status where
  bits : Byte
  deriving DecidableEq, Repr

namespace Status

def reset : Status := ⟨0x24⟩

def contains (s : Status) (mask : Byte) : Bool :=
  s.bits &&& mask == mask

def assign (s : Status) (mask : Byte) (on : Bool) : Status :=
  ⟨if on then s.bits ||| mask else s.bits &&& ~~~mask⟩

/-- The register as a byte, which always shows bit 5. -/
def packed (s : Status) : Byte :=
  s.bits ||| Flag.unused.mask

def has (s : Status) (flag : Flag) : Bool :=
  s.contains flag.mask

end Status

end Nmos6502
