import Nmos6502.Proofs.Interrupt.Record

namespace Nmos6502

universe u

variable {β : Type u}

namespace Engine

theorem askGate_arbiter (e : Engine β) (closed : Phase) :
    (e.askGate closed).machine.arbiter = e.machine.arbiter := by
  rw [askGate]
  split <;> rfl

theorem wake_arbiter (e : Engine β) : e.wake.machine.arbiter = e.machine.arbiter := by
  rw [wake]
  split
  · exact e.askGate_arbiter _
  · rfl

theorem expire_arbiter (e : Engine β) : e.expire.machine.arbiter = e.machine.arbiter := by
  rw [expire]
  split
  · exact askGate_arbiter ..
  · rfl

theorem settleMove_run (e : Engine β) :
    Arbiter.Run e.machine.arbiter (lineEvents (e.machine.calls Cpu.reportPc))
      e.settleMove.machine.arbiter := by
  have hrun := e.machine.reportPc_run
  rw [settleMove]
  dsimp only
  split
  · exact hrun
  · exact hrun

variable [Bus β]

def moveEvents (e : Engine β) : List LineEvent :=
  match e.phase with
  | .poll => (e.machine.accepted.map e.machine.entryEvents).getD []
  | .watch => lineEvents e.machine.consulted
  | .fetch => e.machine.instructionEvents
  | .settle => lineEvents (e.machine.calls Cpu.reportPc)
  | .boundary | .gate | .parked _ | .pausing _ | .notifying _ | .announcing _ | .finished _ => []

def events (e : Engine β) : Occurrence → List LineEvent
  | .move => e.moveEvents
  | .act s => lineEvents [s]
  | .wake | .expire | .pass _ => []

def scheduleEvents (e : Engine β) : List Occurrence → List LineEvent
  | [] => []
  | o :: schedule => e.events o ++ (e.meet o).scheduleEvents schedule

theorem pollMove_run (e : Engine β) :
    Arbiter.Run e.machine.arbiter ((e.machine.accepted.map e.machine.entryEvents).getD [])
      e.pollMove.machine.arbiter := by
  rw [pollMove]
  cases h : e.machine.accepted with
  | some kind => exact Machine.enter_run h
  | none =>
    dsimp only
    split <;> exact .nil _

theorem watchMove_run (e : Engine β) :
    Arbiter.Run e.machine.arbiter (lineEvents e.machine.consulted)
      e.watchMove.machine.arbiter := by
  have hmachine : e.watchMove.machine = e.machine.consult.1 := by
    rw [watchMove]
    split
    · rename_i h
      rw [h]
    · rename_i h
      rw [h]
  have hrun := e.machine.lines.arbiter_run e.machine.consulted e.machine.cpu.servicing
  simpa only [hmachine, Machine.arbiter, Machine.consult_fields] using hrun

theorem advance_run (e : Engine β) :
    Arbiter.Run e.machine.arbiter e.moveEvents e.advance.machine.arbiter := by
  rw [advance, move, moveEvents]
  cases e.phase with
  | poll => exact pollMove_run { e with elapsed := e.elapsed + 1 }
  | watch => exact watchMove_run { e with elapsed := e.elapsed + 1 }
  | fetch => exact e.machine.executeNext_run
  | settle => exact settleMove_run { e with elapsed := e.elapsed + 1 }
  | gate =>
    rw [askGate_arbiter]
    exact .nil _
  | boundary | parked _ | pausing _ | notifying _ | announcing _ | finished _ => exact .nil _

theorem meet_run (e : Engine β) (o : Occurrence) :
    Arbiter.Run e.machine.arbiter (e.events o) (e.meet o).machine.arbiter := by
  cases o with
  | move => exact e.advance_run
  | act s => exact e.machine.signals_run [s]
  | wake =>
    rw [meet, wake_arbiter]
    exact .nil _
  | expire =>
    rw [meet, expire_arbiter]
    exact .nil _
  | pass time => exact .nil _

theorem through_run (schedule : List Occurrence) (e : Engine β) :
    Arbiter.Run e.machine.arbiter (e.scheduleEvents schedule)
      (e.through schedule).machine.arbiter := by
  induction schedule generalizing e with
  | nil => exact .nil _
  | cons o schedule ih => exact (e.meet_run o).append (ih _)

theorem scheduleEvents_append (first second : List Occurrence) (e : Engine β) :
    e.scheduleEvents (first ++ second) =
      e.scheduleEvents first ++ (e.through first).scheduleEvents second := by
  induction first generalizing e with
  | nil => rfl
  | cons o first ih =>
    simp only [List.cons_append, scheduleEvents, ih, through_cons, List.append_assoc]

end Engine

/-- What is done with a machine. A run may be taken as far as one likes. -/
inductive Deed where
  /-- A controller or device acts. -/
  | act (s : Signal)
  | step
  | run (options : RunOptions) (schedule : List Occurrence)
  deriving DecidableEq, Repr

namespace Machine

variable [Bus β]

def carryOut (m : Machine β) : Deed → Machine β
  | .act s => m.signal s
  | .step => m.step
  | .run options schedule => ((Engine.start m options).through schedule).machine

def after (m : Machine β) (deeds : List Deed) : Machine β :=
  deeds.foldl carryOut m

def startEvents (m : Machine β) : List LineEvent :=
  lineEvents (m.calls fun c => { c with halt := none }.setFlag .brk false)

def deedEvents (m : Machine β) : Deed → List LineEvent
  | .act s => lineEvents [s]
  | .step => m.stepEvents
  | .run options schedule => m.startEvents ++ (Engine.start m options).scheduleEvents schedule

/-- What happens on the lines in a history. -/
def historyEvents (m : Machine β) : List Deed → List LineEvent
  | [] => []
  | deed :: deeds => m.deedEvents deed ++ (m.carryOut deed).historyEvents deeds

theorem carryOut_run (m : Machine β) (deed : Deed) :
    Arbiter.Run m.arbiter (m.deedEvents deed) (m.carryOut deed).arbiter := by
  cases deed with
  | act s => exact m.signals_run [s]
  | step => exact m.step_run
  | run options schedule =>
    refine Arbiter.Run.append ?_ (Engine.through_run schedule _)
    exact m.perform_run (by simp)

/-- Every history is a run of the arbiter. -/
theorem after_run (deeds : List Deed) (m : Machine β) :
    Arbiter.Run m.arbiter (m.historyEvents deeds) (m.after deeds).arbiter := by
  induction deeds generalizing m with
  | nil => exact .nil _
  | cons deed deeds ih => exact (m.carryOut_run deed).append (ih _)

theorem historyEvents_append (first second : List Deed) (m : Machine β) :
    m.historyEvents (first ++ second) =
      m.historyEvents first ++ (m.after first).historyEvents second := by
  induction first generalizing m with
  | nil => rfl
  | cons deed first ih =>
    simp only [List.cons_append, historyEvents, ih, List.append_assoc]
    rfl

end Machine

end Nmos6502
