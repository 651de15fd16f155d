import Nmos6502.Control.Audience
import Nmos6502.Text.Duration

/-!
Every instruction of a run needs a grant from the gate. While the gate is held open grants are free;
one step hands out a single grant; otherwise the program parks at the gate until a controller moves
it. A cancelled gate grants nothing and ends the run. Behind the gate are its subscribers.
-/

namespace Nmos6502

/-- A run that parked at the gate for so long that its controller counts as gone. -/
structure Stall where
  /-- The longest wait that the gate allows, in nanoseconds. -/
  waited : Nat
  deriving DecidableEq, Repr

namespace Stall

def message (stall : Stall) : String :=
  "no run control event within " ++ Duration.text stall.waited

end Stall

/-- The gate between a controller and a running program. -/
structure Gate where
  /-- Grants are free. -/
  hold : Bool
  /-- One grant is left. -/
  step : Bool
  cancelled : Bool
  /-- The longest that a program waits here, in nanoseconds. -/
  patience : Nat
  audience : Audience
  deriving DecidableEq, Repr

namespace Gate

def defaultPatience : Nat := 3600 * 1000000000

def fresh (hold : Bool) (patience : Nat) : Gate where
  hold := hold
  step := false
  cancelled := false
  patience := patience
  audience := .empty

def opened : Gate := fresh true defaultPatience

def apply (g : Gate) : Signal → Gate
  | .go => { g with hold := true, step := false }
  | .stop => { g with hold := false, step := false }
  | .step => { g with hold := false, step := true }
  | .cancel => { g with cancelled := true }
  | .resetCancel => { g with cancelled := false }
  | .nmi | .irq | .clear => g

/-- What the gate answers to a program that wants to go on. -/
inductive Answer where
  | granted
  | refused
  /-- There is no grant to hand out now. -/
  | closed
  deriving DecidableEq, Repr

/-- Asks for a grant. Taking the grant of a step uses it up. -/
def ask (g : Gate) : Answer × Gate :=
  if g.cancelled then (.refused, g)
  else if g.hold then (.granted, g)
  else if g.step then (.granted, { g with step := false })
  else (.closed, g)

def mailboxes (g : Gate) : List Mailbox :=
  g.audience.mailboxes

def publish (g : Gate) (event : Event) : Gate :=
  { g with audience := g.audience.publish event }

def subscribe (g : Gate) : Gate × Nat :=
  let (audience, number) := g.audience.subscribe
  ({ g with audience := audience }, number)

def unsubscribe (g : Gate) (number : Nat) : Gate :=
  { g with audience := g.audience.unsubscribe number }

def collect (g : Gate) (number : Nat) : Gate × Option (List Event) :=
  let (audience, events) := g.audience.collect number
  ({ g with audience := audience }, events)

theorem mailboxes_publish (g : Gate) (event : Event) :
    (g.publish event).mailboxes = g.mailboxes.map fun box => box.deliver event :=
  g.audience.mailboxes_publish event

theorem ask_fst_eq_granted_iff (g : Gate) :
    g.ask.1 = .granted ↔ g.cancelled = false ∧ (g.hold = true ∨ g.step = true) := by
  unfold ask
  cases g.cancelled <;> cases g.hold <;> cases g.step <;> simp

end Gate

end Nmos6502
