import Nmos6502.Control.Gate
import Nmos6502.Control.Lines
import Nmos6502.Control.Observer
import Nmos6502.Cpu.Execute

/-!
A processor with everything attached to it: the interrupt lines, the run gate, an observer and a
breakpoint evaluator.

An operation of the processor leaves a log, and the machine then goes through the log in order: the
lines learn about Interrupt Disable, the observer sees the changes, and what devices and triggers
ask for is done. The processor itself looks at none of these within an operation, so nothing is lost
by looking afterwards.
-/

namespace Nmos6502

universe u

structure Machine (β : Type u) where
  cpu : Cpu β
  lines : Lines
  gate : Gate
  observer : Option Observer
  /-- The changes that observers have seen, oldest first. -/
  trace : Array Change
  breakpoints : Option Evaluator
  /-- Where the last hit paused the program; the instruction there runs once without being looked
  at. -/
  resumePc : Option Word

namespace Machine

variable {β : Type u}

/-- A machine just switched on, with nothing attached but fresh lines and an open gate. -/
def powerOn [Bus β] (bus : β) : Machine β where
  cpu := .powerOn bus
  lines := .fresh
  gate := .opened
  observer := none
  trace := #[]
  breakpoints := none
  resumePc := none

def signal (m : Machine β) (s : Signal) : Machine β :=
  { m with lines := m.lines.apply s, gate := m.gate.apply s }

def signals (m : Machine β) (ss : List Signal) : Machine β :=
  ss.foldl signal m

/-- Tells the lines when Interrupt Disable has changed. -/
def tellLines (m : Machine β) (change : Change) : Machine β :=
  if change.what = .flag Flag.interruptDisable.mask then
    { m with lines := { m.lines with masked := change.value != 0 } }
  else m

/-- Shows a change to the observer, which may react. -/
def reveal (m : Machine β) (change : Change) : Machine β :=
  match m.observer with
  | none => m
  | some observer =>
    { m with trace := m.trace.push change }.signals (observer.reactions change)

/-- Takes notice of one entry of the processor's log. -/
def notice (m : Machine β) : Happening → Machine β
  | .changed change => (m.tellLines change).reveal change
  | .stored entry => m.signals entry.signal.toList

/-- Performs an operation of the processor and takes notice of all that happened. -/
def perform (m : Machine β) (operation : Cpu β → Cpu β) : Machine β :=
  let cpu := operation m.cpu
  cpu.log.foldl notice { m with cpu := { cpu with log := [] } }

variable [Bus β]

/-- Stores bytes from `address` on, wrapping at the top. -/
def poke (m : Machine β) (address : Word) : List Byte → Machine β
  | [] => m
  | value :: rest => (m.perform fun c => c.store address value).poke (address + 1) rest

def accepted (m : Machine β) : Option Interrupt :=
  m.lines.accepted m.cpu.servicing (m.cpu.status.has .interruptDisable)

/-- Enters an interrupt, taking its request back. -/
def enter (m : Machine β) (kind : Interrupt) : Machine β :=
  { m with lines := m.lines.acknowledge kind }.perform fun c => c.enter kind

/-- One boundary: an interrupt that is accepted is entered, otherwise one instruction runs. The gate
is not asked. After a run with a delay a `NOP` still sets the time until which the program would
sleep, but here nobody looks at it and every run begins without one, so it is left out. -/
def step (m : Machine β) : Machine β :=
  let m := match m.accepted with
    | some kind => m.enter kind
    | none => m.perform Cpu.executeNext
  m.perform Cpu.reportPc

/-- Brings the registers back to their values at power-on and drops pending requests. What is
attached stays attached. -/
def reset (m : Machine β) : Machine β :=
  let m := m.perform Cpu.reset
  { m with lines := m.lines.clear, resumePc := none }

/-- Replaces the lines; the new ones learn about Interrupt Disable. -/
def attachLines (m : Machine β) (lines : Lines) : Machine β :=
  { m with lines := { lines with masked := m.cpu.status.has .interruptDisable } }

def setBreakpoints (m : Machine β) (evaluator : Option Evaluator) : Machine β :=
  { m with breakpoints := evaluator, resumePc := none }

/-- What a breakpoint evaluator would see if the program counter were at `pc`. -/
def snapshotAt (m : Machine β) (pc : Word) : Snapshot where
  pc := pc
  opcode := Bus.read m.cpu.bus pc
  a := m.cpu.a
  x := m.cpu.x
  y := m.cpu.y
  sp := m.cpu.sp
  status := m.cpu.status.packed
  read := Bus.read m.cpu.bus

def snapshot (m : Machine β) : Snapshot :=
  m.snapshotAt m.cpu.pc

/-- Asks the breakpoint evaluator about the instruction at the program counter, unless the last hit
was there. Either way the place of the last hit is forgotten, and a new hit is remembered. -/
def consult (m : Machine β) : Machine β × Option Hit :=
  let forgetful := { m with resumePc := none }
  if m.resumePc = some m.cpu.pc then (forgetful, none)
  else match m.breakpoints with
    | none => (forgetful, none)
    | some evaluator =>
      let (verdict, evaluator) := evaluator.ask m.snapshot
      let acted := { forgetful with breakpoints := some evaluator }.signals verdict.signal.toList
      match verdict.hit with
      | none => (acted, none)
      | some hit => ({ acted with resumePc := some m.cpu.pc }, some hit)

end Machine

end Nmos6502
