import Nmos6502.Disassembly.Instruction
import Nmos6502.Loader
import Nmos6502.Machine.Controller
import Nmos6502.Monitor.Basic

namespace Nmos6502.Monitor

def watch (m : Monitor) (evaluator : Option Evaluator) : Monitor :=
  m.operate fun machine => machine.setBreakpoints evaluator

/-- Attaches the breakpoints as they are now. Later changes of the set do not matter. -/
def attachBreakpoints (m : Monitor) : Monitor :=
  m.watch (some m.breakpoints.evaluator)

def editBreakpoints (m : Monitor) (edit : Breakpoints → Breakpoints) : Monitor :=
  { m with breakpoints := edit m.breakpoints }

/-- The hit that the set of breakpoints reports at an address, or at the program counter. -/
def hitAt (m : Monitor) (pc : Option Word) : Option Hit :=
  m.breakpoints.hit? (m.machine.snapshotAt (pc.getD m.machine.cpu.pc))

/-- After so many happenings a run is given up as endless. -/
def maxHappenings : Nat := 1000000000000

/-- Runs the program, with a controller that answers hits from a script or without one. A run that
is given up has no result. -/
def run (m : Monitor) (options : RunOptions) (script : Option (List (List Signal))) :
    Option (Monitor × Except Stall Outcome) :=
  let controller := script.map Controller.ofScript
  (m.machine.run options controller maxHappenings).map fun (machine, result) =>
    ({ m with machine := machine }, result)

/-- A loader on the memory and the labels of the monitor. -/
def beginLoad (m : Monitor) : Loader Board :=
  .start m.board m.labels

/-- Ends a load: memory and labels are taken back, and what devices asked for meanwhile is done. -/
def endLoad (m : Monitor) (loader : Loader Board) : Monitor :=
  let ended := loader.finish
  { m with labels := ended.labels }.operate fun machine =>
    ended.stores.foldl (fun machine entry => machine.notice (.stored entry))
      { machine with cpu := { machine.cpu with bus := ended.bus } }

def disassemble (m : Monitor) (count : Nat) (address : Word) : Except Refusal (List Instruction) :=
  match Instruction.disassemble? m.board count address with
  | some listed => .ok listed
  | none => .error .listingTooLong

end Nmos6502.Monitor
