import Nmos6502.Word
import Nmos6502.Control.Signal

namespace Nmos6502

universe u

class Bus (β : Type u) where
  read : β → Word → Byte
  write : β → Word → Byte → β
  /-- What the device that takes a write asks for. -/
  signal : β → Word → Byte → Option Signal := fun _ _ _ => none

/-- A write as the bus saw it, with what the device asked for. -/
structure Store where
  address : Word
  value : Byte
  signal : Option Signal
  deriving DecidableEq, Repr

namespace Bus

variable {β : Type u} [Bus β]

/-- Performs a write and tells how the bus saw it. -/
def store (bus : β) (address : Word) (value : Byte) : β × Store :=
  (write bus address value, ⟨address, value, signal bus address value⟩)

def readWord (bus : β) (address : Word) : Word :=
  Word.ofBytes (read bus address) (read bus (address + 1))

/-- Writes consecutive bytes from `address` on, wrapping at the top. Nobody hears of signals. -/
def writeAll (bus : β) (address : Word) : List Byte → β
  | [] => bus
  | value :: rest => writeAll (write bus address value) (address + 1) rest

def readAll (bus : β) (address : Word) (count : Nat) : List Byte :=
  (List.range count).map fun i => read bus (address + BitVec.ofNat 16 i)

end Bus

end Nmos6502
