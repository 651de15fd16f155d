import Nmos6502.Machine.Basic

namespace Nmos6502

universe u

inductive Register where
  | a | x | y | sp | pc
  /-- The flags that a packed byte carries. -/
  | status
  | flag (flag : Flag)
  deriving DecidableEq, Repr

variable {β : Type u}

/-- Gives a register a value of any size. A register keeps the bits that it has room for, in two's
complement; a flag is set by every number but zero, also by one whose low bits are all clear. -/
def Cpu.setRegister (c : Cpu β) (register : Register) (value : Int) : Cpu β :=
  match register with
  | .a => c.setA (BitVec.ofInt 8 value)
  | .x => c.setX (BitVec.ofInt 8 value)
  | .y => c.setY (BitVec.ofInt 8 value)
  | .sp => c.setSp (BitVec.ofInt 8 value)
  | .pc => c.setPc (BitVec.ofInt 16 value)
  | .status => c.setStatus (BitVec.ofInt 8 value)
  | .flag flag => c.setFlag flag (value != 0)

/-- What a piece of code needs around it. -/
structure Setup where
  /-- Blocks of bytes and where they go. -/
  memory : List (Word × List Byte)
  registers : List (Register × Int)
  /-- The code itself, which goes where the program counter then is. -/
  code : List Byte
  deriving DecidableEq, Repr

namespace Machine

def setRegister (m : Machine β) (register : Register) (value : Int) : Machine β :=
  m.perform fun c => c.setRegister register value

/-- Puts everything in its place: memory first, then the registers in order, then the code. -/
def setUp [Bus β] (m : Machine β) (setup : Setup) : Machine β :=
  let furnished := setup.memory.foldl (fun m block => m.poke block.1 block.2) m
  let ready := setup.registers.foldl (fun m entry => m.setRegister entry.1 entry.2) furnished
  ready.poke ready.cpu.pc setup.code

/-- A device asks for a maskable interrupt and waits for the processor, which meanwhile enables
maskable interrupts. Tells whether the processor is ready then. -/
def requestIrqAndEnable (m : Machine β) : Machine β × Bool :=
  let requested := { m with lines := m.lines.request .irq }
  let enabled := requested.setRegister (.flag .interruptDisable) 0
  (enabled, !enabled.lines.masked)

end Machine

end Nmos6502
