
namespace Nmos6502

/-- One action on the interrupt lines or on the run gate. -/
inductive Signal where
  | nmi
  | irq
  | clear
  /-- Let the program run freely. -/
  | go
  /-- Park the program before its next instruction. -/
  | stop
  /-- Park the program, granting it one instruction first. -/
  | step
  /-- Ask the run to end. -/
  | cancel
  /-- Withdraw the request to end. -/
  | resetCancel
  deriving DecidableEq, Repr

namespace Signal

/-- Whether the signal moves the run gate, and so wakes a program that waits there. -/
def movesGate : Signal → Bool
  | nmi | irq | clear => false
  | go | stop | step | cancel | resetCancel => true

end Signal

end Nmos6502
