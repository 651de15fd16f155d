import Nmos6502.Cpu.Basic
import Nmos6502.Isa.Mode

namespace Nmos6502.Cpu

universe u

variable {β : Type u} [Bus β]

def operandByte (c : Cpu β) : Byte :=
  Bus.read c.bus c.pc

def operandWord (c : Cpu β) : Word :=
  Bus.readWord c.bus c.pc

/-- The word in page zero whose low byte is at `slot`. -/
def pointerAt (c : Cpu β) (slot : Byte) : Word :=
  Word.ofBytes (Bus.read c.bus (Byte.toWord slot)) (Bus.read c.bus (Byte.toWord (slot + 1)))

def nextInPage (address : Word) : Word :=
  Word.ofBytes (Word.low address + 1) (Word.high address)

/-- The address of the operand. For a branch it is the target. The two modes without an address have
none. -/
def address? (c : Cpu β) : Mode → Option Word
  | .implicit | .accumulator => none
  | .immediate => some c.pc
  | .zeroPage => some (Byte.toWord c.operandByte)
  | .zeroPageX => some (Byte.toWord (c.operandByte + c.x))
  | .zeroPageY => some (Byte.toWord (c.operandByte + c.y))
  | .relative => some (c.pc + 1 + Byte.displacement c.operandByte)
  | .absolute => some c.operandWord
  | .absoluteX => some (c.operandWord + Byte.toWord c.x)
  | .absoluteY => some (c.operandWord + Byte.toWord c.y)
  | .indirect =>
    let pointer := c.operandWord
    some (Word.ofBytes (Bus.read c.bus pointer) (Bus.read c.bus (nextInPage pointer)))
  | .indirectX => some (c.pointerAt (c.operandByte + c.x))
  | .indirectY => some (c.pointerAt c.operandByte + Byte.toWord c.y)

/-- The address of the operand, for instructions whose modes all have one. -/
def address (c : Cpu β) (mode : Mode) : Word :=
  (c.address? mode).getD c.pc

/-- The operand itself: the accumulator, or the byte at the address. -/
def operand (c : Cpu β) (mode : Mode) : Byte :=
  if mode = .accumulator then c.a else Bus.read c.bus (c.address mode)

def skipOperand (c : Cpu β) (mode : Mode) : Cpu β :=
  { c with pc := c.pc + BitVec.ofNat 16 mode.operandSize }

theorem isSome_address?_iff (c : Cpu β) (mode : Mode) :
    (c.address? mode).isSome ↔ 0 < mode.operandSize := by
  cases mode <;> simp [address?, Mode.operandSize]

end Nmos6502.Cpu
