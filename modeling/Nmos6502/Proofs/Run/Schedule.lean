import Nmos6502.Machine.Controller

/-!
A run and its surroundings in any order: moves of the run, actions of controllers and devices
between them, the ends of waits and the passage of time. Every run that is played against a scripted
controller follows such a schedule.
-/

namespace Nmos6502

universe u

variable {β : Type u}

/-- What can happen next while a run is in progress. -/
inductive Occurrence where
  /-- The run makes its next move. -/
  | move
  /-- A controller or device acts. -/
  | act (s : Signal)
  /-- A parked program is woken. -/
  | wake
  /-- The wait of a parked program is over. -/
  | expire
  | pass (time : Nat)
  deriving DecidableEq, Repr

namespace Engine

variable [Bus β]

/-- The run after one occurrence. -/
def meet (e : Engine β) : Occurrence → Engine β
  | .move => e.advance
  | .act s => e.signal s
  | .wake => e.wake
  | .expire => e.expire
  | .pass time => { e with elapsed := e.elapsed + time }

/-- The run after a schedule. -/
def through (e : Engine β) (schedule : List Occurrence) : Engine β :=
  schedule.foldl meet e

@[simp] theorem through_nil (e : Engine β) : e.through [] = e := rfl

@[simp] theorem through_cons (e : Engine β) (o : Occurrence) (schedule : List Occurrence) :
    e.through (o :: schedule) = (e.meet o).through schedule := rfl

theorem through_append (e : Engine β) (first second : List Occurrence) :
    e.through (first ++ second) = (e.through first).through second :=
  List.foldl_append

theorem through_acts (e : Engine β) (ss : List Signal) :
    e.through (ss.map .act) = { e with machine := e.machine.signals ss } := by
  induction ss generalizing e with
  | nil => rfl
  | cons s ss ih => exact ih (e.signal s)

theorem exists_receive_eq_through (e : Engine β) (ss : List Signal) :
    ∃ schedule, e.receive ss = e.through schedule := by
  cases h : ss.any Signal.movesGate with
  | false =>
    refine ⟨ss.map .act, ?_⟩
    simp only [receive, h, through_acts]
    rfl
  | true =>
    refine ⟨ss.map .act ++ [.wake], ?_⟩
    simp only [receive, h, through_append, through_acts]
    rfl

theorem exists_next_eq_through (e : Engine β) (controller : Option Controller) :
    ∃ schedule, (e.next controller).1 = e.through schedule := by
  rw [next]
  split
  · split
    · exact e.exists_receive_eq_through _
    · exact ⟨[.expire], rfl⟩
  · exact ⟨[.move], rfl⟩
  · exact ⟨[.move], rfl⟩

theorem exists_settleAccounts_eq_through (e : Engine β) (n : Nat) (c : Controller) :
    ∃ schedule, e.settleAccounts n c = e.through schedule := by
  induction n generalizing e c with
  | zero => exact ⟨[], rfl⟩
  | succ n ih =>
    rw [settleAccounts]
    split
    · rename_i answer rest _
      obtain ⟨first, hfirst⟩ := e.exists_receive_eq_through answer
      obtain ⟨second, hsecond⟩ := ih (e.receive answer) rest
      exact ⟨first ++ second, by rw [hsecond, hfirst, through_append]⟩
    · exact ⟨[], rfl⟩

theorem phase_through_of_finished {e : Engine β} {result : Except Stall Outcome}
    (h : e.phase = .finished result) (schedule : List Occurrence) :
    (e.through schedule).phase = .finished result := by
  induction schedule generalizing e with
  | nil => exact h
  | cons o schedule ih =>
    refine ih ?_
    cases o <;> simp [meet, advance, move, signal, wake, expire, h]

theorem play_eq_through (fuel : Nat) (e : Engine β) (controller : Option Controller)
    {m : Machine β} {result : Except Stall Outcome}
    (h : e.play fuel controller = some (m, result)) :
    ∃ schedule, (e.through schedule).phase = .finished result ∧
      (e.through schedule).machine = m := by
  induction fuel generalizing e controller with
  | zero => exact absurd h (by simp [play])
  | succ fuel ih =>
    unfold play at h
    split at h
    · rename_i ended hphase
      split at h
      · rename_i c
        obtain ⟨schedule, hschedule⟩ := e.exists_settleAccounts_eq_through c.unanswered c
        simp only [Option.some.injEq, Prod.mk.injEq] at h
        obtain ⟨rfl, rfl⟩ := h
        exact ⟨schedule, phase_through_of_finished hphase schedule, by rw [hschedule]⟩
      · simp only [Option.some.injEq, Prod.mk.injEq] at h
        obtain ⟨rfl, rfl⟩ := h
        exact ⟨[], hphase, rfl⟩
    · obtain ⟨first, hfirst⟩ := e.exists_next_eq_through controller
      obtain ⟨second, hphase, hmachine⟩ := ih _ _ h
      refine ⟨first ++ second, ?_⟩
      rw [through_append, ← hfirst]
      exact ⟨hphase, hmachine⟩

end Engine

/-- The run of a machine follows a schedule. -/
theorem Machine.run_eq_through [Bus β] {m m' : Machine β} {options : RunOptions}
    {controller : Option Controller} {fuel : Nat} {result : Except Stall Outcome}
    (h : m.run options controller fuel = some (m', result)) :
    ∃ schedule, ((Engine.start m options).through schedule).phase = .finished result ∧
      ((Engine.start m options).through schedule).machine = m' :=
  Engine.play_eq_through fuel _ controller h

end Nmos6502
