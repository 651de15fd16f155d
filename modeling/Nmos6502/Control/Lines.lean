import Nmos6502.Control.Signal
import Nmos6502.Cpu.Interrupt

namespace Nmos6502

structure Lines where
  nmi : Bool
  irq : Bool
  /-- What the devices know of the processor's Interrupt Disable flag. -/
  masked : Bool
  deriving DecidableEq, Repr

namespace Lines

def fresh : Lines := ⟨false, false, true⟩

def request (l : Lines) : Interrupt → Lines
  | .nmi => { l with nmi := true }
  | .irq => { l with irq := true }

/-- A device asks for a maskable interrupt and learns whether the processor is ready for it. -/
def requestIrq (l : Lines) : Lines × Bool :=
  (l.request .irq, !l.masked)

def acknowledge (l : Lines) : Interrupt → Lines
  | .nmi => { l with nmi := false }
  | .irq => { l with irq := false }

def clear (l : Lines) : Lines :=
  { l with nmi := false, irq := false }

def apply (l : Lines) : Signal → Lines
  | .nmi => l.request .nmi
  | .irq => l.request .irq
  | .clear => l.clear
  | .go | .stop | .step | .cancel | .resetCancel => l

/-- The interrupt to enter at an instruction boundary. None is entered while a handler runs, a
non-maskable one goes first, and a maskable one needs Interrupt Disable clear. -/
def accepted (l : Lines) (servicing disabled : Bool) : Option Interrupt :=
  if servicing then none
  else if l.nmi then some .nmi
  else if l.irq && !disabled then some .irq
  else none

end Lines

end Nmos6502
