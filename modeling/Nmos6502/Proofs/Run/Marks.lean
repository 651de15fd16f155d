import Nmos6502.Proofs.Machine.Step
import Nmos6502.Proofs.Run.Schedule

namespace Nmos6502

universe u

variable {β : Type u}

namespace Phase

instance decidableFetch : (phase : Phase) → Decidable (phase = .fetch)
  | .fetch => isTrue rfl
  | .boundary | .poll | .gate | .parked _ | .watch | .pausing _ | .notifying _ | .settle
  | .announcing _ | .finished _ => isFalse (by simp)

instance decidableEnded (outcome : Outcome) :
    (phase : Phase) → Decidable (phase = .finished (.ok outcome))
  | .finished (.ok other) => decidable_of_iff (other = outcome) (by simp)
  | .finished (.error _) => isFalse (by simp)
  | .boundary | .poll | .gate | .parked _ | .watch | .pausing _ | .notifying _ | .fetch | .settle
  | .announcing _ => isFalse (by simp)

instance decidableFinished : (phase : Phase) → Decidable (∃ result, phase = .finished result)
  | .finished result => isTrue ⟨result, rfl⟩
  | .boundary | .poll | .gate | .parked _ | .watch | .pausing _ | .notifying _ | .fetch | .settle
  | .announcing _ => isFalse (by simp)

end Phase

inductive Mark where
  | published (event : Event)
  /-- A run executes the instruction at `pc`. -/
  | executed (pc : Word) (opcode : Byte)
  /-- A single step outside a run executes the instruction at `pc`. -/
  | stepped (pc : Word) (opcode : Byte)
  deriving DecidableEq, Repr

def Mark.event? : Mark → Option Event
  | .published event => some event
  | .executed _ _ | .stepped _ _ => none

namespace Engine

variable [Bus β]

def moveMarks (e : Engine β) : List Mark :=
  match e.phase with
  | .notifying hit => [.published (.breakpoint hit)]
  | .fetch => [.executed e.machine.cpu.pc (Bus.read e.machine.cpu.bus e.machine.cpu.pc)]
  | .announcing outcome => [.published (.finished outcome)]
  | .boundary | .poll | .gate | .parked _ | .watch | .pausing _ | .settle | .finished _ => []

def occurrenceMarks (e : Engine β) : Occurrence → List Mark
  | .move => e.moveMarks
  | .act _ | .wake | .expire | .pass _ => []

def marks (e : Engine β) : List Occurrence → List Mark
  | [] => []
  | o :: schedule => e.occurrenceMarks o ++ (e.meet o).marks schedule

end Engine

/-- A mailbox once several events have been delivered in order. -/
def Mailbox.deliverAll (box : Mailbox) (events : List Event) : Mailbox :=
  if box.connected then { box with events := box.events ++ events } else box

theorem Mailbox.map_deliverAll_nil (boxes : List Mailbox) :
    boxes.map (fun box => box.deliverAll []) = boxes := by
  have hbox : ∀ box : Mailbox, box.deliverAll [] = box := by
    rintro ⟨connected, events⟩
    cases connected <;> simp [deliverAll]
  simp [hbox]

theorem Mailbox.deliverAll_append (box : Mailbox) (first second : List Event) :
    box.deliverAll (first ++ second) = (box.deliverAll first).deliverAll second := by
  obtain ⟨connected, events⟩ := box
  cases connected <;> simp [deliverAll]

namespace Gate

theorem mailboxes_apply (g : Gate) (s : Signal) : (g.apply s).mailboxes = g.mailboxes := by
  cases s <;> rfl

theorem mailboxes_foldl_apply (ss : List Signal) (g : Gate) :
    (ss.foldl apply g).mailboxes = g.mailboxes := by
  induction ss generalizing g with
  | nil => rfl
  | cons s ss ih => exact (ih _).trans (g.mailboxes_apply s)

theorem mailboxes_ask (g : Gate) : g.ask.2.mailboxes = g.mailboxes := by
  rw [ask]
  split
  · rfl
  · split
    · rfl
    · split <;> rfl

end Gate

namespace Machine

theorem mailboxes_signals (m : Machine β) (ss : List Signal) :
    (m.signals ss).gate.mailboxes = m.gate.mailboxes := by
  rw [(m.signals_fields ss).2.2.1, Gate.mailboxes_foldl_apply]

theorem mailboxes_notice (m : Machine β) (entry : Happening) :
    (m.notice entry).gate.mailboxes = m.gate.mailboxes := by
  cases entry with
  | stored entry => exact m.mailboxes_signals _
  | changed change =>
    have htell : (m.tellLines change).gate = m.gate := by
      rw [tellLines]
      split <;> rfl
    rw [← htell, notice, reveal]
    split
    · rfl
    · exact mailboxes_signals _ _

theorem mailboxes_perform (m : Machine β) (operation : Cpu β → Cpu β) :
    (m.perform operation).gate.mailboxes = m.gate.mailboxes := by
  have hlog : ∀ (log : List Happening) (m : Machine β),
      (log.foldl notice m).gate.mailboxes = m.gate.mailboxes := by
    intro log
    induction log with
    | nil => exact fun m => rfl
    | cons entry log ih => exact fun m => (ih _).trans (m.mailboxes_notice entry)
  exact hlog _ _

end Machine

namespace Engine

theorem askGate_fields (e : Engine β) (closed : Phase) :
    (e.askGate closed).machine.cpu = e.machine.cpu ∧
      (e.askGate closed).machine.breakpoints = e.machine.breakpoints ∧
      (e.askGate closed).machine.resumePc = e.machine.resumePc ∧
      (e.askGate closed).machine.gate.mailboxes = e.machine.gate.mailboxes := by
  have hask := e.machine.gate.mailboxes_ask
  rw [askGate]
  split <;> rename_i hpair <;> rw [hpair] at hask <;> exact ⟨rfl, rfl, rfl, hask⟩

theorem settleMove_fields (e : Engine β) :
    e.settleMove.machine.breakpoints = e.machine.breakpoints ∧
      e.settleMove.machine.resumePc = e.machine.resumePc ∧
      e.settleMove.machine.gate.mailboxes = e.machine.gate.mailboxes := by
  have hboxes := e.machine.mailboxes_perform Cpu.reportPc
  rw [settleMove]
  dsimp only
  split
  · exact ⟨by simp, by simp, hboxes⟩
  · exact ⟨by simp, by simp, hboxes⟩

theorem wake_fields (e : Engine β) :
    e.wake.machine.cpu = e.machine.cpu ∧ e.wake.machine.breakpoints = e.machine.breakpoints ∧
      e.wake.machine.resumePc = e.machine.resumePc ∧
      e.wake.machine.gate.mailboxes = e.machine.gate.mailboxes := by
  rw [wake]
  split
  · exact e.askGate_fields _
  · exact ⟨rfl, rfl, rfl, rfl⟩

theorem expire_fields (e : Engine β) :
    e.expire.machine.cpu = e.machine.cpu ∧ e.expire.machine.breakpoints = e.machine.breakpoints ∧
      e.expire.machine.resumePc = e.machine.resumePc ∧
      e.expire.machine.gate.mailboxes = e.machine.gate.mailboxes := by
  rw [expire]
  split
  · exact askGate_fields _ _
  · exact ⟨rfl, rfl, rfl, rfl⟩

variable [Bus β]

theorem pollMove_fields (e : Engine β) :
    e.pollMove.machine.breakpoints = e.machine.breakpoints ∧
      e.pollMove.machine.resumePc = e.machine.resumePc ∧
      e.pollMove.machine.gate.mailboxes = e.machine.gate.mailboxes := by
  rw [pollMove]
  split
  · exact ⟨by simp [Machine.enter], by simp [Machine.enter], Machine.mailboxes_perform _ _⟩
  · split
    · exact ⟨rfl, rfl, rfl⟩
    · exact ⟨rfl, rfl, rfl⟩

theorem machine_watchMove (e : Engine β) : e.watchMove.machine = e.machine.consult.1 := by
  rw [watchMove]
  split <;> rename_i hpair <;> rw [hpair]

theorem watchMove_fields (e : Engine β) :
    e.watchMove.machine.cpu = e.machine.cpu ∧
      e.watchMove.machine.breakpoints = e.machine.asked ∧
      e.watchMove.machine.gate.mailboxes = e.machine.gate.mailboxes := by
  obtain ⟨hcpu, -, hgate, -, hbreakpoints⟩ := e.machine.consult_fields
  rw [machine_watchMove]
  exact ⟨hcpu, hbreakpoints, by rw [hgate, Gate.mailboxes_foldl_apply]⟩

theorem mailboxes_advance (e : Engine β) :
    e.advance.machine.gate.mailboxes =
      e.machine.gate.mailboxes.map fun box =>
        box.deliverAll (e.moveMarks.filterMap Mark.event?) := by
  have hsilent := Mailbox.map_deliverAll_nil
  rw [advance, move, moveMarks]
  cases e.phase with
  | notifying hit => exact e.machine.gate.mailboxes_publish _
  | announcing outcome => exact e.machine.gate.mailboxes_publish _
  | fetch => exact (Machine.mailboxes_perform _ _).trans (hsilent _).symm
  | poll => exact (pollMove_fields _).2.2.trans (hsilent _).symm
  | watch => exact (watchMove_fields _).2.2.trans (hsilent _).symm
  | gate => exact (askGate_fields _ _).2.2.2.trans (hsilent _).symm
  | settle => exact (settleMove_fields _).2.2.trans (hsilent _).symm
  | pausing hit => exact (hsilent _).symm
  | boundary | parked _ | finished _ => exact (hsilent _).symm

theorem mailboxes_meet (e : Engine β) (o : Occurrence) :
    (e.meet o).machine.gate.mailboxes =
      e.machine.gate.mailboxes.map fun box =>
        box.deliverAll ((e.occurrenceMarks o).filterMap Mark.event?) := by
  have hsilent := Mailbox.map_deliverAll_nil
  cases o with
  | move => exact e.mailboxes_advance
  | act s => exact (e.machine.gate.mailboxes_apply s).trans (hsilent _).symm
  | pass time => exact (hsilent _).symm
  | wake => exact e.wake_fields.2.2.2.trans (hsilent _).symm
  | expire => exact e.expire_fields.2.2.2.trans (hsilent _).symm

theorem breakpoints_meet_eq_ofVerdict_iff {e : Engine β} {o : Occurrence}
    {verdict : Snapshot → Verdict} :
    (e.meet o).machine.breakpoints = some (.ofVerdict verdict) ↔
      e.machine.breakpoints = some (.ofVerdict verdict) := by
  cases o with
  | act s => rfl
  | pass time => rfl
  | wake => rw [meet, e.wake_fields.2.1]
  | expire => rw [meet, e.expire_fields.2.1]
  | move =>
    rw [meet, advance, move]
    cases e.phase with
    | fetch => simp [fetchMove]
    | gate =>
      dsimp only
      rw [(askGate_fields _ _).2.1]
    | watch =>
      dsimp only
      rw [(watchMove_fields _).2.1]
      exact Machine.asked_eq_ofVerdict_iff
    | settle =>
      dsimp only
      rw [(settleMove_fields _).1]
    | poll =>
      dsimp only
      rw [(pollMove_fields _).1]
    | boundary | pausing _ | notifying _ | announcing _ | parked _ | finished _ => rfl

/-- An evaluator that keeps nothing is the same after a run. -/
theorem breakpoints_through_eq_ofVerdict_iff (schedule : List Occurrence) {e : Engine β}
    {verdict : Snapshot → Verdict} :
    (e.through schedule).machine.breakpoints = some (.ofVerdict verdict) ↔
      e.machine.breakpoints = some (.ofVerdict verdict) := by
  induction schedule generalizing e with
  | nil => rfl
  | cons o schedule ih => exact ih.trans breakpoints_meet_eq_ofVerdict_iff

theorem mailboxes_through (schedule : List Occurrence) (e : Engine β) :
    (e.through schedule).machine.gate.mailboxes =
      e.machine.gate.mailboxes.map fun box =>
        box.deliverAll ((e.marks schedule).filterMap Mark.event?) := by
  induction schedule generalizing e with
  | nil => exact (Mailbox.map_deliverAll_nil _).symm
  | cons o schedule ih =>
    rw [through_cons, ih, mailboxes_meet, List.map_map]
    refine List.map_congr_left fun box _ => ?_
    rw [marks, List.filterMap_append, Mailbox.deliverAll_append]
    rfl

end Engine

end Nmos6502
