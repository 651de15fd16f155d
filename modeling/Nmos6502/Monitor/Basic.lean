import Nmos6502.Bus.Board
import Nmos6502.Label.Table
import Nmos6502.Machine.Setup

/-!
A monitor is a desk at which a machine is operated: besides the machine it holds what the operator
works with, a set of breakpoints and a table of labels, and everything that has ever been attached
to the machine, numbered in the order of its coming.

What is attached now is kept in the machine. `Monitor.allLines` and `Monitor.allGates` put it back
into the row of its kind.
-/

namespace Nmos6502

/-- Where a subscriber has its mailbox. -/
structure Subscription where
  gate : Nat
  mailbox : Nat
  deriving DecidableEq, Repr

/-- A machine and the desk around it. -/
structure Monitor where
  machine : Machine Board
  /-- All sets of interrupt lines; the attached one is out of date here. -/
  lines : List Lines
  attached : Nat
  /-- The gates before the attached one. -/
  retired : List Gate
  subscriptions : List Subscription
  breakpoints : Breakpoints
  labels : LabelTable

/-- What can be wrong with a request to a monitor. -/
inductive Refusal where
  | device (error : DeviceError)
  /-- Nothing has the number that was given. -/
  | noSuchNumber
  /-- Flat memory has no devices. -/
  | noDevices
  /-- More instructions were asked for than any listing has room for. -/
  | listingTooLong
  deriving DecidableEq, Repr

namespace Refusal

def message : Refusal → String
  | device error => error.message
  | noSuchNumber => "index out of bounds"
  | noDevices => "flat memory has no devices"
  | listingTooLong => "capacity overflow"

end Refusal

namespace Monitor

def start (board : Board) : Monitor where
  machine := .powerOn board
  lines := [.fresh]
  attached := 0
  retired := []
  subscriptions := []
  breakpoints := .empty
  labels := .empty

def board (m : Monitor) : Board :=
  m.machine.cpu.bus

def operate (m : Monitor) (operation : Machine Board → Machine Board) : Monitor :=
  { m with machine := operation m.machine }

def trial (m : Monitor) (setup : Setup) : Monitor :=
  m.operate fun machine => (machine.setUp setup).step

def define (m : Monitor) (name : String) (address : Word) : Except LabelError Monitor := do
  let labels ← m.labels.define name address
  return { m with labels := labels }

def editLabels (m : Monitor) (edit : LabelTable → LabelTable) : Monitor :=
  { m with labels := edit m.labels }

def observe (m : Monitor) (observer : Option Observer) : Monitor :=
  m.operate fun machine => { machine with observer := observer }

def takeTrace (m : Monitor) : Monitor × List Change :=
  (m.operate fun machine => { machine with trace := #[] }, m.machine.trace.toList)

end Monitor

end Nmos6502
