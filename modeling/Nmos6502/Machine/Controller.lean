import Nmos6502.Machine.Engine

/-!
A controller that listens to a run and answers every breakpoint hit with a prepared list of actions;
when the lists are used up it cancels the run. `Machine.run` plays a run against such a controller,
or against none: the controller acts while the program is parked, and a program that nobody wakes
waits its time out.
-/

namespace Nmos6502

universe u

/-- A controller with its answers, and how many hits it has yet to answer. -/
structure Controller where
  script : List (List Signal)
  unanswered : Nat
  deriving DecidableEq, Repr

namespace Controller

def ofScript (script : List (List Signal)) : Controller := ⟨script, 0⟩

def hear (c : Controller) : Controller :=
  { c with unanswered := c.unanswered + 1 }

/-- The answer to the next hit, if there is one to answer. -/
def answer? (c : Controller) : Option (List Signal × Controller) :=
  match c.unanswered, c.script with
  | 0, _ => none
  | n + 1, [] => some ([.cancel], ⟨[], n⟩)
  | n + 1, answer :: rest => some (answer, ⟨rest, n⟩)

end Controller

namespace Engine

variable {β : Type u}

/-- A controller acts on the run. A parked program wakes if that moves the gate. -/
def receive (e : Engine β) (signals : List Signal) : Engine β :=
  let acted := { e with machine := e.machine.signals signals }
  if signals.any Signal.movesGate then acted.wake else acted

/-- What happens next: the controller answers if the program is parked and there is something to
answer, a wait that nobody ends runs out, and otherwise the run moves. -/
def next [Bus β] (e : Engine β) (controller : Option Controller) : Engine β × Option Controller :=
  match e.phase with
  | .parked _ =>
    match controller.bind Controller.answer? with
    | some (answer, rest) => (e.receive answer, some rest)
    | none => (e.expire, controller)
  | .notifying _ => (e.advance, controller.map Controller.hear)
  | _ => (e.advance, controller)

/-- Gives the answers that the controller still owes when the run is over. -/
def settleAccounts (e : Engine β) : Nat → Controller → Engine β
  | 0, _ => e
  | n + 1, c =>
    match c.answer? with
    | some (answer, rest) => (e.receive answer).settleAccounts n rest
    | none => e

/-- Plays the run to its end, for at most `fuel` happenings. -/
def play [Bus β] :
    (fuel : Nat) → Engine β → Option Controller → Option (Machine β × Except Stall Outcome)
  | 0, _, _ => none
  | fuel + 1, e, controller =>
    match e.phase with
    | .finished result =>
      match controller with
      | some c => some ((e.settleAccounts c.unanswered c).machine, result)
      | none => some (e.machine, result)
    | _ =>
      let (e, controller) := e.next controller
      play fuel e controller

end Engine

namespace Machine

variable {β : Type u} [Bus β]

/-- Runs the program until it halts, is cancelled, stalls or reaches its limit; `none` if it has not
ended after `fuel` happenings. Without a controller nobody answers hits. -/
def run (m : Machine β) (options : RunOptions) (controller : Option Controller) (fuel : Nat) :
    Option (Machine β × Except Stall Outcome) :=
  (Engine.start m options).play fuel controller

end Machine

end Nmos6502
