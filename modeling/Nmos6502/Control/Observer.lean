import Nmos6502.Control.Signal
import Nmos6502.Cpu.Basic

namespace Nmos6502

/-- Acts when the quantity of that name takes that value. -/
structure Trigger where
  name : String
  value : Word
  signal : Signal
  deriving DecidableEq, Repr

structure Observer where
  triggers : List Trigger
  deriving DecidableEq, Repr

namespace Observer

def passive : Observer := ⟨[]⟩

def reactions (o : Observer) (change : Change) : List Signal :=
  (o.triggers.filter fun t => t.name == change.what.name && t.value == change.value).map
    Trigger.signal

end Observer

end Nmos6502
