import Nmos6502.Cpu.Alu
import Nmos6502.Cpu.Operand
import Nmos6502.Isa.Opcode

namespace Nmos6502.Cpu

universe u

variable {β : Type u} [Bus β]

def addToA (c : Cpu β) (value : Byte) : Cpu β :=
  let sum := Alu.add c.a value (c.status.has .carry)
  ((((c.setFlag .carry sum.carry).setFlag .overflow sum.overflow).setA sum.result).setZN sum.result)

def resultInA (c : Cpu β) (value : Byte) : Cpu β :=
  (c.setA value).setZN value

def resultInX (c : Cpu β) (value : Byte) : Cpu β :=
  (c.setX value).setZN value

def resultInY (c : Cpu β) (value : Byte) : Cpu β :=
  (c.setY value).setZN value

/-- Compares a register with an operand. Negative shows the sign of the operand, unless the two are
equal. -/
def compare (c : Cpu β) (register operand : Byte) : Cpu β :=
  let equal := register == operand
  ((c.setFlag .zero equal).setFlag .carry (decide (operand ≤ register))).setFlag .negative
    (!equal && operand.msb)

/-- Tests bits of the accumulator. Negative and Overflow show the two highest bits of the operand.
-/
def testBits (c : Cpu β) (operand : Byte) : Cpu β :=
  ((c.setFlag .zero (c.a &&& operand == 0)).setFlag .negative operand.msb).setFlag .overflow
    (operand.getLsbD 6)

/-- Puts a result back where the operand came from. -/
def putBack (c : Cpu β) (mode : Mode) (address : Word) (value : Byte) : Cpu β :=
  let c := if mode = .accumulator then c.setA value else c.store address value
  c.setZN value

def putShifted (c : Cpu β) (mode : Mode) (address : Word) (shifted : Alu.Shifted) : Cpu β :=
  (c.setFlag .carry shifted.carry).putBack mode address shifted.result

def branch (c : Cpu β) (taken : Bool) (target : Word) : Cpu β :=
  if taken then { c with pc := target } else c

/-- Calls a subroutine. The address of the last byte of the call is pushed. -/
def call (c : Cpu β) (target : Word) : Cpu β :=
  { c.pushWord (c.pc - 1) with pc := target }

/-- Returns from a subroutine, to the byte after the address pulled. -/
def returnFromCall (c : Cpu β) : Cpu β :=
  let (address, c) := c.pullWord
  { c with pc := address + 1 }

/-- Returns from an interrupt handler, which always leaves interrupts enabled. -/
def returnFromInterrupt (c : Cpu β) : Cpu β :=
  let (packed, c) := c.pull
  let (address, c) := (c.setStatus packed).pullWord
  { { c with pc := address }.setFlag .interruptDisable false with servicing := false }

/-- Halts the program, leaving the program counter on the instruction. -/
def haltHere (c : Cpu β) : Cpu β :=
  { c with pc := c.pc - 1 }.stop .brk

/-- The action of an instruction, given the address of its operand and the operand. -/
def act (c : Cpu β) (mode : Mode) (address : Word) (operand : Byte) : Mnemonic → Cpu β
  | .adc => c.addToA operand
  | .sbc => c.addToA (~~~operand)
  | .and => c.resultInA (c.a &&& operand)
  | .ora => c.resultInA (c.a ||| operand)
  | .eor => c.resultInA (c.a ^^^ operand)
  | .cmp => c.compare c.a operand
  | .cpx => c.compare c.x operand
  | .cpy => c.compare c.y operand
  | .bit => c.testBits operand
  | .bcc => c.branch (!c.status.has .carry) address
  | .bcs => c.branch (c.status.has .carry) address
  | .bne => c.branch (!c.status.has .zero) address
  | .beq => c.branch (c.status.has .zero) address
  | .bpl => c.branch (!c.status.has .negative) address
  | .bmi => c.branch (c.status.has .negative) address
  | .bvc => c.branch (!c.status.has .overflow) address
  | .bvs => c.branch (c.status.has .overflow) address
  | .asl => c.putShifted mode address (Alu.shiftLeft operand false)
  | .lsr => c.putShifted mode address (Alu.shiftRight operand false)
  | .rol => c.putShifted mode address (Alu.shiftLeft operand (c.status.has .carry))
  | .ror => c.putShifted mode address (Alu.shiftRight operand (c.status.has .carry))
  | .lda => c.resultInA operand
  | .ldx => c.resultInX operand
  | .ldy => c.resultInY operand
  | .sta => c.store address c.a
  | .stx => c.store address c.x
  | .sty => c.store address c.y
  | .inc => c.putBack mode address (operand + 1)
  | .dec => c.putBack mode address (operand - 1)
  | .inx => c.resultInX (c.x + 1)
  | .iny => c.resultInY (c.y + 1)
  | .dex => c.resultInX (c.x - 1)
  | .dey => c.resultInY (c.y - 1)
  | .jmp => { c with pc := address }
  | .jsr => c.call address
  | .rts => c.returnFromCall
  | .rti => c.returnFromInterrupt
  | .brk => c.haltHere
  | .nop => c
  | .pha => c.push c.a
  | .php => c.push (c.status.packed ||| Flag.brk.mask)
  | .pla =>
    let (value, c) := c.pull
    c.resultInA value
  | .plp =>
    let (packed, c) := c.pull
    c.setStatus packed
  | .clc => c.setFlag .carry false
  | .sec => c.setFlag .carry true
  | .cli => c.setFlag .interruptDisable false
  | .sei => c.setFlag .interruptDisable true
  | .cld => c.setFlag .decimal false
  | .sed => c.setFlag .decimal true
  | .clv => c.setFlag .overflow false
  | .tax => c.resultInX c.a
  | .tay => c.resultInY c.a
  | .txa => c.resultInA c.x
  | .tya => c.resultInA c.y
  | .tsx => c.resultInX c.sp
  | .txs => c.setSp c.x

def execute (c : Cpu β) (op : Opcode) : Cpu β :=
  (c.skipOperand op.mode).act op.mode (c.address op.mode) (c.operand op.mode) op.mnemonic

def executeNext (c : Cpu β) : Cpu β :=
  let fetched := { c with pc := c.pc + 1, fetched := c.fetched + 1 }
  match Opcode.decode (Bus.read c.bus c.pc) with
  | some op => fetched.execute op
  | none => { fetched with undocumented := fetched.undocumented + 1 }

end Nmos6502.Cpu
