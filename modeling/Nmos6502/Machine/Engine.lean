import Nmos6502.Machine.Basic

/-!
A run is a sequence of small moves, each of which touches what it shares with its surroundings at
most once: it looks whether the run is cancelled, polls the interrupt lines, asks the gate, consults
the breakpoints, stops the gate on a hit, tells the subscribers, executes an instruction. Between
any two moves a controller or a device may act.

Time is a count of nanoseconds. A move takes one, a nap as long as it lasts, and a wait at the gate
until somebody moves the gate or the wait is over. Only the surroundings end a wait: `Engine.wake`
and `Engine.expire`.
-/

namespace Nmos6502

universe u

/-- How a run is bounded and slowed down. -/
structure RunOptions where
  /-- How long the run may last, in nanoseconds. -/
  limit : Option Nat
  /-- How long the program sleeps after every `NOP`, in nanoseconds. Interrupts still wake it. Time
  has no end here; that a clock may be too small for the end of a long sleep is left out. -/
  nopDelay : Nat
  deriving DecidableEq, Repr

inductive Phase where
  | boundary
  /-- Enters an accepted interrupt, or naps if the program sleeps. -/
  | poll
  | gate
  /-- Waits at the closed gate, at most so long. -/
  | parked (allowance : Nat)
  /-- Consults the breakpoints about an instruction that was granted. -/
  | watch
  /-- Stops the gate because of a hit. -/
  | pausing (hit : Hit)
  | notifying (hit : Hit)
  | fetch
  /-- Ends the iteration: records the program counter and looks for a halt and for the limit. -/
  | settle
  /-- Tells the subscribers that the run ends. -/
  | announcing (outcome : Outcome)
  | finished (result : Except Stall Outcome)

structure Engine (β : Type u) where
  machine : Machine β
  options : RunOptions
  elapsed : Nat
  asleepUntil : Option Nat
  phase : Phase

namespace Engine

/-- The longest single nap; interrupts are polled in between. -/
def napSlice : Nat := 1000000

variable {β : Type u}

/-- Begins a run. The Break flag and the reason of an earlier halt are taken back. -/
def start (m : Machine β) (options : RunOptions) : Engine β where
  machine := m.perform fun c => { c with halt := none }.setFlag .brk false
  options := options
  elapsed := 0
  asleepUntil := none
  phase := .boundary

/-- How long the program still sleeps. A handler runs in spite of it. -/
def sleepLeft (e : Engine β) : Option Nat :=
  if e.machine.cpu.servicing then none
  else match e.asleepUntil with
    | some wakeTime => if e.elapsed < wakeTime then some (wakeTime - e.elapsed) else none
    | none => none

/-- How long a wait at the gate may last: the gate's patience, or less if the limit comes first. -/
def allowance (e : Engine β) : Nat :=
  match e.options.limit with
  | some limit => min (limit - e.elapsed) e.machine.gate.patience
  | none => e.machine.gate.patience

def overdue (e : Engine β) : Bool :=
  match e.options.limit with
  | some limit => decide (limit ≤ e.elapsed)
  | none => false

/-- Goes on with what the gate answers; `closed` says what to do without a grant. -/
def askGate (e : Engine β) (closed : Phase) : Engine β :=
  match e.machine.gate.ask with
  | (.granted, gate) => { e with machine := { e.machine with gate := gate }, phase := .watch }
  | (.refused, gate) => { e with machine := { e.machine with gate := gate }, phase := .settle }
  | (.closed, gate) => { e with machine := { e.machine with gate := gate }, phase := closed }

def signal (e : Engine β) (s : Signal) : Engine β :=
  { e with machine := e.machine.signal s }

/-- Somebody has moved the gate: a parked program asks again. Without a grant it gives the iteration
up. -/
def wake (e : Engine β) : Engine β :=
  match e.phase with
  | .parked _ => e.askGate .settle
  | _ => e

/-- The wait is over: a parked program asks for the last time. Without a grant the run has stalled,
if the wait was as long as the gate allows, and gives the iteration up otherwise. -/
def expire (e : Engine β) : Engine β :=
  match e.phase with
  | .parked allowance =>
    let patience := e.machine.gate.patience
    { e with elapsed := e.elapsed + allowance }.askGate
      (if allowance = patience then .finished (.error ⟨patience⟩) else .settle)
  | _ => e

variable [Bus β]

/-- Enters an accepted interrupt, naps, or goes on to the gate. -/
def pollMove (e : Engine β) : Engine β :=
  match e.machine.accepted with
  | some kind => { e with machine := e.machine.enter kind, phase := .settle }
  | none => match e.sleepLeft with
    | some left => { e with elapsed := e.elapsed + min left napSlice, phase := .settle }
    | none => { e with phase := .gate }

def watchMove (e : Engine β) : Engine β :=
  match e.machine.consult with
  | (m, none) => { e with machine := m, phase := .fetch }
  | (m, some hit) => { e with machine := m, phase := .pausing hit }

def atNop (m : Machine β) : Bool :=
  (Opcode.decode (Bus.read m.cpu.bus m.cpu.pc)).any fun op => op.mnemonic == .nop

def fetchMove (e : Engine β) : Engine β :=
  let asleepUntil :=
    if atNop e.machine && e.options.nopDelay != 0 then some (e.elapsed + e.options.nopDelay)
    else e.asleepUntil
  { e with
    machine := e.machine.perform Cpu.executeNext
    asleepUntil := asleepUntil
    phase := .settle }

/-- Ends an iteration. A Break flag that nothing else explains counts as a `BRK`. -/
def settleMove (e : Engine β) : Engine β :=
  let m := e.machine.perform Cpu.reportPc
  if m.cpu.status.has .brk then
    let why := m.cpu.halt.getD .brk
    { e with
      machine := { m with cpu := { m.cpu with halt := some why } }
      phase := .announcing (.halted why) }
  else { e with machine := m, phase := if e.overdue then .announcing .timeLimit else .boundary }

/-- The next move of the run itself. A parked run and a finished one stay as they are. -/
def move (e : Engine β) : Engine β :=
  match e.phase with
  | .boundary =>
    { e with phase := if e.machine.gate.cancelled then .announcing .cancelled else .poll }
  | .poll => e.pollMove
  | .gate => e.askGate (.parked e.allowance)
  | .watch => e.watchMove
  | .pausing hit => { e.signal .stop with phase := .notifying hit }
  | .notifying hit =>
    { e with
      machine := { e.machine with gate := e.machine.gate.publish (.breakpoint hit) }
      phase := .settle }
  | .fetch => e.fetchMove
  | .settle => e.settleMove
  | .announcing outcome =>
    { e with
      machine := { e.machine with gate := e.machine.gate.publish (.finished outcome) }
      phase := .finished (.ok outcome) }
  | .parked _ | .finished _ => e

/-- A move of the run, which takes its time. -/
def advance (e : Engine β) : Engine β :=
  { e with elapsed := e.elapsed + 1 }.move

end Engine

end Nmos6502
