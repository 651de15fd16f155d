import Nmos6502.Monitor.Basic

namespace Nmos6502.Monitor

def allLines (m : Monitor) : List Lines :=
  m.lines.set m.attached m.machine.lines

/-- The lines of a number, or the attached ones. -/
def linesOf (m : Monitor) (number : Option Nat) : Except Refusal Lines :=
  match number with
  | none => .ok m.machine.lines
  | some number => (m.allLines[number]?).elim (.error .noSuchNumber) .ok

def useLines (m : Monitor) (number : Nat) : Except Refusal Monitor := do
  let lines ← m.linesOf (some number)
  return { m with
    lines := m.allLines
    attached := number
    machine := m.machine.attachLines lines }

def useFreshLines (m : Monitor) : Monitor :=
  { m with
    lines := m.allLines ++ [.fresh]
    attached := m.lines.length
    machine := m.machine.attachLines .fresh }

/-- A device on the lines of a number, or on the attached ones, asks for a maskable interrupt and
learns whether the processor is ready for it. -/
def requestIrq (m : Monitor) (number : Option Nat) : Except Refusal (Monitor × Bool) := do
  let (lines, ready) := (← m.linesOf number).requestIrq
  let target := number.getD m.attached
  if target = m.attached then
    return (m.operate fun machine => { machine with lines := lines }, ready)
  else return ({ m with lines := m.lines.set target lines }, ready)

/-- A device on the attached lines asks for a maskable interrupt and waits, while Interrupt Disable
is cleared. A wait without a bound ends only when the processor is ready. -/
def awaitIrq (m : Monitor) (bounded : Bool) : Monitor × Bool :=
  let (machine, ready) := m.machine.requestIrqAndEnable
  ({ m with machine := machine }, !bounded || ready)

def allGates (m : Monitor) : List Gate :=
  m.retired ++ [m.machine.gate]

def setGate (m : Monitor) (number : Nat) (gate : Gate) : Monitor :=
  if number < m.retired.length then { m with retired := m.retired.set number gate }
  else m.operate fun machine => { machine with gate := gate }

def useGate (m : Monitor) (gate : Gate) : Monitor :=
  { m with retired := m.allGates }.operate fun machine => { machine with gate := gate }

/-- Switches the machine off and on again. It keeps its memory and the trace; lines and gate are new
and nothing else is attached. -/
def powerCycle (m : Monitor) : Monitor :=
  { m with
    machine := { Machine.powerOn m.board with trace := m.machine.trace }
    lines := m.allLines ++ [.fresh]
    attached := m.lines.length
    retired := m.allGates }

def subscribe (m : Monitor) : Monitor × Nat :=
  let (gate, mailbox) := m.machine.gate.subscribe
  let subscription := ⟨m.retired.length, mailbox⟩
  ({ m with subscriptions := m.subscriptions ++ [subscription] }.operate fun machine =>
    { machine with gate := gate }, m.subscriptions.length)

def subscriptionOf (m : Monitor) (number : Nat) : Except Refusal (Subscription × Gate) :=
  let found := do
    let subscription ← m.subscriptions[number]?
    let gate ← m.allGates[subscription.gate]?
    return (subscription, gate)
  found.elim (.error .noSuchNumber) .ok

def unsubscribe (m : Monitor) (number : Nat) : Except Refusal Monitor := do
  let (subscription, gate) ← m.subscriptionOf number
  return m.setGate subscription.gate (gate.unsubscribe subscription.mailbox)

/-- Tells what has come for a subscriber since the last time, unless the subscription has ended. -/
def collect (m : Monitor) (number : Nat) : Except Refusal (Monitor × Option (List Event)) := do
  let (subscription, gate) ← m.subscriptionOf number
  let (gate, events) := gate.collect subscription.mailbox
  return (m.setGate subscription.gate gate, events)

end Nmos6502.Monitor
