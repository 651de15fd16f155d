import Nmos6502.Proofs.Run.Schedule
import Nmos6502.Proofs.Run.Tracking

namespace Nmos6502

universe u

variable {β : Type u}

namespace Machine

variable [Bus β]

/-- One step for each entry of the list, with the requests that arrive before it. -/
def steps (m : Machine β) (arriving : List (List Interrupt)) : Machine β :=
  arriving.foldl (fun m kinds => (m.request kinds).step) m

theorem steps_concat (m : Machine β) (arriving : List (List Interrupt)) (kinds : List Interrupt) :
    m.steps (arriving ++ [kinds]) = ((m.steps arriving).request kinds).step := by
  simp [steps]

theorem step_observer (m : Machine β) : m.step.observer = m.observer := by
  rw [step]
  cases m.accepted <;> simp [enter]

theorem steps_observer (m : Machine β) (arriving : List (List Interrupt)) :
    (m.steps arriving).observer = m.observer := by
  induction arriving generalizing m with
  | nil => rfl
  | cons kinds arriving ih => exact (ih _).trans (step_observer _)

theorem latched_steps {m : Machine β} (h : m.cpu.Latched) (arriving : List (List Interrupt)) :
    (m.steps arriving).cpu.Latched := by
  induction arriving generalizing m with
  | nil => exact h
  | cons kinds arriving ih =>
    refine ih ?_
    have hboundary : (m.request kinds).boundary.Latched := by
      rw [boundary]
      split
      · exact Cpu.stable_latched.enter _ h
      · exact Cpu.stable_latched.executeNext h
    rw [step_cpu]
    exact hboundary

/-- Whether the machine has come to a halt, for this reason. -/
def Halted (m : Machine β) (why : Halt) : Prop :=
  m.cpu.status.has .brk = true ∧ m.cpu.halt = some why

end Machine

/-- When requests arrive, as the boundaries of a run see it. -/
structure Arrivals where
  /-- For each boundary that had work to do, the requests that arrived in time for it. -/
  served : List (List Interrupt)
  /-- The requests that have arrived since, before the lines were last polled. -/
  seen : List Interrupt
  /-- The requests that have arrived after that. -/
  unseen : List Interrupt
  deriving DecidableEq, Repr

namespace Arrivals

def none : Arrivals := ⟨[], [], []⟩

/-- The requests that are not in time for any boundary yet. -/
def late (a : Arrivals) : List Interrupt :=
  a.seen ++ a.unseen

end Arrivals

namespace Engine

/-- A boundary is in time for the requests that arrive before its poll. -/
def arrive (e : Engine β) (a : Arrivals) : Occurrence → Arrivals
  | .act s => { a with unseen := a.unseen ++ s.request?.toList }
  | .move =>
    match e.phase with
    | .poll =>
      if e.machine.accepted.isSome then ⟨a.served ++ [a.late], [], []⟩
      else ⟨a.served, a.late, []⟩
    | .fetch => ⟨a.served ++ [a.seen], [], a.unseen⟩
    | _ => a
  | .wake | .expire | .pass _ => a

theorem arrive_move {e : Engine β} (hpoll : e.phase ≠ .poll) (hfetch : e.phase ≠ .fetch)
    (a : Arrivals) : e.arrive a .move = a := by
  rw [arrive]
  cases hphase : e.phase with
  | poll => exact absurd hphase hpoll
  | fetch => exact absurd hphase hfetch
  | _ => rfl

variable [Bus β]

def arrivals (e : Engine β) (a : Arrivals) : List Occurrence → Arrivals
  | [] => a
  | o :: schedule => (e.meet o).arrivals (e.arrive a o) schedule

end Engine

/-- The requests that a schedule makes. -/
def Occurrence.request? : Occurrence → Option Interrupt
  | .act s => s.request?
  | .move | .wake | .expire | .pass _ => none

theorem Engine.flatten_arrivals [Bus β] (schedule : List Occurrence) (e : Engine β) (a : Arrivals) :
    (e.arrivals a schedule).served.flatten ++ (e.arrivals a schedule).late =
      a.served.flatten ++ a.late ++ schedule.filterMap Occurrence.request? := by
  induction schedule generalizing e a with
  | nil => simp [arrivals]
  | cons o schedule ih =>
    rw [arrivals, ih]
    have hfirst : (e.arrive a o).served.flatten ++ (e.arrive a o).late =
        a.served.flatten ++ a.late ++ o.request?.toList := by
      cases o with
      | act s => simp [arrive, Arrivals.late, Occurrence.request?]
      | move =>
        rw [arrive]
        cases e.phase with
        | poll => cases e.machine.accepted <;> simp [Arrivals.late, Occurrence.request?]
        | fetch => simp [Arrivals.late, Occurrence.request?]
        | boundary | gate | parked _ | watch | pausing _ | notifying _ | settle | announcing _
        | finished _ => simp [Occurrence.request?]
      | wake | expire | pass _ => simp [arrive, Occurrence.request?]
    rw [hfirst, List.append_assoc, List.filterMap_cons]
    cases o.request? <;> simp

end Nmos6502
