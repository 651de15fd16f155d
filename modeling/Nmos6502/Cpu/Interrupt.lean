import Nmos6502.Cpu.Basic

namespace Nmos6502

universe u

inductive Interrupt where
  /-- Always accepted outside a handler. -/
  | nmi
  /-- Accepted outside a handler while Interrupt Disable is clear. -/
  | irq
  deriving DecidableEq, Repr

namespace Cpu

variable {β : Type u} [Bus β]

def pushFrame (c : Cpu β) : Cpu β :=
  let c := c.pushWord c.pc
  c.push c.status.packed

/-- Continues at the handler whose address is kept at `vector`. -/
def serve (c : Cpu β) (vector : Word) : Cpu β :=
  { c with servicing := true, pc := Bus.readWord c.bus vector }

/-- Enters an interrupt. A maskable one disables further maskable ones. -/
def enter (c : Cpu β) : Interrupt → Cpu β
  | .nmi => c.pushFrame.serve nmiVector
  | .irq => (c.pushFrame.setFlag .interruptDisable true).serve irqVector

/-- Brings the registers back to their values at power-on, with the program counter from the reset
vector, and forgets how the program ended and what was counted. -/
def reset (c : Cpu β) : Cpu β :=
  let c := (((c.setA 0).setX 0).setY 0).setSp 0xFF
  let c := (c.setStatus Status.reset.bits).setFlag .brk false
  let c := c.setPc (Bus.readWord c.bus resetVector)
  { c with servicing := false, halt := none, fetched := 0, undocumented := 0 }

end Cpu

end Nmos6502
