
namespace Nmos6502

/-- The thirteen ways in which an instruction names its operand. -/
inductive Mode where
  /-- No operand: `CLC`, `RTS`. -/
  | implicit
  /-- The accumulator itself: `LSR A`. -/
  | accumulator
  /-- The operand byte is the value: `LDA #$10`. -/
  | immediate
  | zeroPage
  /-- A page-zero address indexed by X, staying in page zero. -/
  | zeroPageX
  /-- A page-zero address indexed by Y, staying in page zero. -/
  | zeroPageY
  /-- A signed displacement from the address after the operand byte. -/
  | relative
  /-- A full address, low byte first. -/
  | absolute
  | absoluteX
  | absoluteY
  | indirect
  /-- The page-zero pointer at the operand plus X: `LDA ($40,X)`. -/
  | indirectX
  /-- The page-zero pointer at the operand, then plus Y: `LDA ($40),Y`. -/
  | indirectY
  deriving DecidableEq, Repr

namespace Mode

def operandSize : Mode → Nat
  | implicit | accumulator => 0
  | immediate | zeroPage | zeroPageX | zeroPageY | relative | indirectX | indirectY => 1
  | absolute | absoluteX | absoluteY | indirect => 2

/-- The name under which messages quote the mode. -/
def name : Mode → String
  | implicit => "Implicit"
  | accumulator => "Accumulator"
  | immediate => "Immediate"
  | zeroPage => "ZeroPage"
  | zeroPageX => "ZeroPageX"
  | zeroPageY => "ZeroPageY"
  | relative => "Relative"
  | absolute => "Absolute"
  | absoluteX => "AbsoluteX"
  | absoluteY => "AbsoluteY"
  | indirect => "Indirect"
  | indirectX => "IndirectX"
  | indirectY => "IndirectY"

def all : List Mode :=
  [implicit, accumulator, immediate, zeroPage, zeroPageX, zeroPageY, relative, absolute, absoluteX,
    absoluteY, indirect, indirectX, indirectY]

def ofName? (text : String) : Option Mode :=
  all.find? fun mode => mode.name == text

theorem mem_all (mode : Mode) : mode ∈ all := by
  cases mode <;> decide

end Mode

end Nmos6502
