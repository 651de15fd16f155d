import Nmos6502.Word

namespace Nmos6502.Alu

structure Sum where
  result : Byte
  carry : Bool
  overflow : Bool
  deriving DecidableEq, Repr

/-- Adds two bytes and a carry. Overflow means that the operands agree in sign and the result does
not agree with them. -/
def add (a b : Byte) (carry : Bool) : Sum :=
  let sum := a.toNat + b.toNat + carry.toNat
  let result := BitVec.ofNat 8 sum
  ⟨result, decide (255 < sum), ((a ^^^ result) &&& (b ^^^ result)).msb⟩

/-- The outcome of a shift: the byte and the bit that fell out of it. -/
structure Shifted where
  result : Byte
  carry : Bool
  deriving DecidableEq, Repr

/-- Moves every bit up, with `carry` coming in below. -/
def shiftLeft (value : Byte) (carry : Bool) : Shifted :=
  ⟨BitVec.ofNat 8 (2 * value.toNat + carry.toNat), value.msb⟩

/-- Moves every bit down, with `carry` coming in above. -/
def shiftRight (value : Byte) (carry : Bool) : Shifted :=
  ⟨BitVec.ofNat 8 (value.toNat / 2 + 128 * carry.toNat), value.getLsbD 0⟩

end Nmos6502.Alu
