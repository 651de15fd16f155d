import Nmos6502.Bus.Flat
import Nmos6502.Machine.Setup
import Nmos6502.Proofs.Interrupt.History

namespace Nmos6502

universe u

variable {β : Type u}

def Interrupt.vector : Interrupt → Word
  | .nmi => Cpu.nmiVector
  | .irq => Cpu.irqVector

theorem Cpu.enter_pc [Bus β] (c : Cpu β) (kind : Interrupt) :
    (c.enter kind).pc = Bus.readWord (c.enter kind).bus kind.vector := by
  cases kind <;> rfl

/-- What a boundary that takes `m` to `m'` does about interrupts. -/
structure Machine.Arbitrates [Bus β] (m : Machine β) (events : List LineEvent) (m' : Machine β) :
    Prop where
  /-- An interrupt is entered exactly when it may be. -/
  entered_iff : ∀ kind, .entered kind ∈ events ↔ m.Eligible kind
  enters : ∀ kind, .entered kind ∈ events →
    m'.cpu.servicing = true ∧ m'.cpu.pc = Bus.readWord m'.cpu.bus kind.vector
  /-- The entry takes back its own request and no other. -/
  clears : ∀ kind, .entered kind ∈ events → ∀ other, m'.lines.pending other =
    (decide (.requested other ∈ events) || (other != kind && m.lines.pending other))

namespace Machine

theorem pending_of_entered {m m' : Machine β} {kind : Interrupt} {events : List LineEvent}
    (h : Arbiter.Run m.arbiter (.entered kind :: events) m'.arbiter)
    (hentered : ∀ other, .entered other ∉ events) (hcleared : .cleared ∉ events)
    (other : Interrupt) :
    m'.lines.pending other =
      (decide (.requested other ∈ LineEvent.entered kind :: events) ||
        (other != kind && m.lines.pending other)) := by
  obtain _ | ⟨-, hrun⟩ := h
  have hwaiting := hrun.waiting_eq (hentered other) hcleared
  simpa [arbiter, Arbiter.after] using hwaiting

variable [Bus β]

theorem entered_not_mem_instructionEvents (m : Machine β) (kind : Interrupt) :
    .entered kind ∉ m.instructionEvents := by
  rw [instructionEvents]
  cases m.cpu.atReturn <;> simp [entered_not_mem_lineEvents]

theorem enter_arbitrates {m m' : Machine β} {kind : Interrupt} {events : List LineEvent}
    (haccepted : m.accepted = some kind)
    (hrun : Arbiter.Run m.arbiter (.entered kind :: events) m'.arbiter)
    (hentered : ∀ other, .entered other ∉ events) (hcleared : .cleared ∉ events)
    (hservicing : m'.cpu.servicing = true)
    (hpc : m'.cpu.pc = Bus.readWord m'.cpu.bus kind.vector) :
    m.Arbitrates (.entered kind :: events) m' := by
  have hmem : ∀ other, .entered other ∈ LineEvent.entered kind :: events ↔ kind = other := by
    intro other
    simp [hentered, eq_comm]
  constructor
  · intro other
    rw [hmem, ← m.accepted_eq_some_iff, haccepted, Option.some.injEq]
  · intro other hother
    obtain rfl := (hmem other).mp hother
    exact ⟨hservicing, hpc⟩
  · intro other hother
    obtain rfl := (hmem other).mp hother
    exact pending_of_entered hrun hentered hcleared

theorem arbitrates_of_accepted_none {m m' : Machine β} {events : List LineEvent}
    (haccepted : m.accepted = none) (hentered : ∀ other, .entered other ∉ events) :
    m.Arbitrates events m' := by
  constructor
  · intro kind
    rw [← m.accepted_eq_some_iff, haccepted]
    simp [hentered]
  · intro kind hkind
    exact absurd hkind (hentered kind)
  · intro kind hkind
    exact absurd hkind (hentered kind)

theorem step_arbitrates (m : Machine β) (hcleared : .cleared ∉ m.stepEvents) :
    m.Arbitrates m.stepEvents m.step := by
  have hrun := m.step_run
  cases haccepted : m.accepted with
  | none =>
    refine arbitrates_of_accepted_none haccepted fun kind => ?_
    simp [stepEvents, haccepted, entered_not_mem_instructionEvents, entered_not_mem_lineEvents]
  | some kind =>
    have hevents : m.stepEvents = .entered kind :: (lineEvents (m.calls fun c => c.enter kind) ++
        lineEvents ((m.enter kind).calls Cpu.reportPc)) := by
      simp [stepEvents, haccepted, entryEvents]
    have hcpu := m.step_cpu
    rw [boundary_of_accepted haccepted] at hcpu
    rw [hevents] at hrun hcleared ⊢
    rw [List.mem_cons, not_or] at hcleared
    refine enter_arbitrates haccepted hrun (fun other => ?_) hcleared.2 ?_ ?_
    · simp [entered_not_mem_lineEvents]
    · simp [hcpu]
    · simp only [hcpu]
      exact m.cpu.enter_pc kind

end Machine

variable [Bus β]

namespace Engine

theorem poll_arbitrates {e : Engine β} (hphase : e.phase = .poll)
    (hcleared : .cleared ∉ e.events .move) :
    e.machine.Arbitrates (e.events .move) (e.meet .move).machine := by
  have hevents : e.events .move = (e.machine.accepted.map e.machine.entryEvents).getD [] := by
    simp only [events, moveEvents, hphase]
  have hmove : (e.meet .move).machine = ({ e with elapsed := e.elapsed + 1 }).pollMove.machine := by
    simp only [meet, advance, move, hphase]
  have hrun := e.meet_run .move
  cases haccepted : e.machine.accepted with
  | none =>
    refine Machine.arbitrates_of_accepted_none haccepted fun kind => ?_
    simp [hevents, haccepted]
  | some kind =>
    have hmachine : (e.meet .move).machine = e.machine.enter kind := by
      simp only [hmove, pollMove, haccepted]
    simp only [haccepted, Option.map_some, Option.getD_some] at hevents
    rw [hevents, Machine.entryEvents] at hrun hcleared ⊢
    rw [List.mem_cons, not_or] at hcleared
    refine Machine.enter_arbitrates haccepted hrun (fun other => ?_) hcleared.2 ?_ ?_
    · exact entered_not_mem_lineEvents _ _
    · simp [hmachine, Machine.enter]
    · simp only [hmachine, Machine.enter, Machine.perform_fields]
      exact e.machine.cpu.enter_pc kind

theorem entered_not_mem_events {e : Engine β} {o : Occurrence}
    (h : ¬ (e.phase = .poll ∧ o = .move)) (kind : Interrupt) : .entered kind ∉ e.events o := by
  cases o with
  | move =>
    rw [events, moveEvents]
    cases hphase : e.phase with
    | poll => exact absurd ⟨hphase, rfl⟩ h
    | watch => exact entered_not_mem_lineEvents _ _
    | settle => exact entered_not_mem_lineEvents _ _
    | fetch => exact e.machine.entered_not_mem_instructionEvents kind
    | boundary | gate | parked _ | pausing _ | notifying _ | announcing _ | finished _ =>
      exact List.not_mem_nil
  | act s => exact entered_not_mem_lineEvents _ _
  | wake | expire | pass _ => exact List.not_mem_nil

end Engine

/-- How interrupts are served in a history that begins with `m`. -/
structure Machine.Served (m : Machine β) (deeds : List Deed) : Prop where
  steps : ∀ earlier later, deeds = earlier ++ .step :: later →
    (m.after earlier).Arbitrates (m.after earlier).stepEvents (m.after earlier).step
  polls : ∀ earlier options before rest later,
    deeds = earlier ++ .run options (before ++ .move :: rest) :: later →
      ∀ e, e = (Engine.start (m.after earlier) options).through before → e.phase = .poll →
        e.machine.Arbitrates (e.events .move) (e.meet .move).machine
  /-- Nothing is entered within an iteration of a run. -/
  elsewhere : ∀ earlier options before o rest later,
    deeds = earlier ++ .run options (before ++ o :: rest) :: later →
      ∀ e, e = (Engine.start (m.after earlier) options).through before →
        ¬ (e.phase = .poll ∧ o = .move) → ∀ kind, .entered kind ∉ e.events o
  /-- Every entry answers a request that no other entry has answered. -/
  answers : ∀ before kind later, m.historyEvents deeds = before ++ .entered kind :: later →
    (m.lines.pending kind = true ∧ .entered kind ∉ before) ∨
      ∃ earlier between, before = earlier ++ .requested kind :: between ∧
        .entered kind ∉ between
  /-- A request stays pending until it is answered. -/
  waits : ∀ before kind later, m.historyEvents deeds = before ++ .requested kind :: later →
    .entered kind ∉ later → (m.after deeds).lines.pending kind = true
  waits_from_start : ∀ kind, m.lines.pending kind = true →
    .entered kind ∉ m.historyEvents deeds → (m.after deeds).lines.pending kind = true
  /-- A handler runs from an entry to the next `RTI`. -/
  handles : (m.after deeds).cpu.servicing = true ↔
    (m.cpu.servicing = true ∧ .returned ∉ m.historyEvents deeds) ∨
      ∃ before kind later, m.historyEvents deeds = before ++ .entered kind :: later ∧
        .returned ∉ later
  /-- Between two entries there is an `RTI`. -/
  returns : ∀ before first between second later, m.historyEvents deeds =
    before ++ .entered first :: (between ++ .entered second :: later) → .returned ∈ between

/-- As long as nobody drops requests, the interrupts of a history are served in order. -/
theorem interrupts_served (m : Machine β) (deeds : List Deed)
    (hcleared : .cleared ∉ m.historyEvents deeds) : m.Served deeds where
  steps := by
    rintro earlier later rfl
    refine Machine.step_arbitrates _ ?_
    simp only [Machine.historyEvents_append, Machine.historyEvents, List.mem_append,
      not_or] at hcleared
    exact hcleared.2.1
  polls := by
    rintro earlier options before rest later rfl e rfl hphase
    refine Engine.poll_arbitrates hphase ?_
    simp only [Machine.historyEvents_append, Machine.historyEvents, Machine.deedEvents,
      Engine.scheduleEvents_append, Engine.scheduleEvents, List.mem_append, not_or] at hcleared
    exact hcleared.2.1.2.2.1
  elsewhere := by
    rintro earlier options before o rest later - e - hphase kind
    exact Engine.entered_not_mem_events hphase kind
  answers := by
    intro before kind later h
    have hrun := m.after_run deeds
    rw [h] at hrun
    exact hrun.entered_answers
  waits := by
    intro before kind later h hentered
    have hrun := m.after_run deeds
    rw [h] at hrun hcleared
    rw [List.mem_append, List.mem_cons, not_or, not_or] at hcleared
    exact hrun.requested_waits hentered hcleared.2.2
  waits_from_start := by
    intro kind hpending hentered
    exact (m.after_run deeds).waiting hpending hentered hcleared
  handles := (m.after_run deeds).handling_iff
  returns := by
    intro before first between second later h
    have hrun := m.after_run deeds
    rw [h] at hrun
    exact hrun.returned_between

/-- A machine with maskable interrupts enabled and a handler at $0000 that only returns. -/
def returningHandler : Machine FlatMemory :=
  (Machine.powerOn (Bus.writeAll .zeroed 0x0000 [0x40])).setRegister (.flag .interruptDisable) 0

/-- Two requests at once, and a third in a run that finishes the handler of the second. -/
def threeRequests : List Deed :=
  [.act .irq, .act .nmi, .step, .step, .step,
    .run ⟨none, 0⟩ (.replicate 6 .move ++ [.act .nmi, .move, .move])]

theorem interrupts_served_returningHandler :
    returningHandler.historyEvents threeRequests =
        [.requested .irq, .requested .nmi, .entered .nmi, .returned, .entered .irq, .returned,
          .requested .nmi, .entered .nmi] ∧
      returningHandler.Served threeRequests := by
  have hevents : returningHandler.historyEvents threeRequests =
      [.requested .irq, .requested .nmi, .entered .nmi, .returned, .entered .irq, .returned,
        .requested .nmi, .entered .nmi] := by
    decide +kernel
  refine ⟨hevents, interrupts_served _ _ ?_⟩
  rw [hevents]
  decide

end Nmos6502
