import Nmos6502.Bus.Flat
import Nmos6502.Proofs.Run.Marks
import Nmos6502.Proofs.Run.Unheard

/-!
The history of a gate: machines come to it and run one after the other, and at any time, in the
middle of a run too, subscribers come, look into their mailboxes and go. Whoever stays hears of
every hit and of the end of every run that comes to an outcome, in their order, whatever the others
do.
-/

namespace Nmos6502

universe u

variable {β : Type u}

/-- What a subscriber does. -/
inductive SubscriberAction where
  | subscribe
  | collect (number : Nat)
  | unsubscribe (number : Nat)
  deriving DecidableEq

/-- What others do at the gate. -/
inductive MachineAction (β : Type u) where
  | begin (options : RunOptions)
  | occur (o : Occurrence)
  /-- Between runs anything may be done to the machine, or another one takes its place. -/
  | replace (m : Machine β)

inductive GateAction (β : Type u) where
  | machine (a : MachineAction β)
  | subscriber (a : SubscriberAction)

def GateAction.machine? : GateAction β → Option (MachineAction β)
  | .machine t => some t
  | .subscriber _ => none

/-- A machine at the gate, at rest or in a run. -/
inductive RunState (β : Type u) where
  | idle (m : Machine β)
  | running (e : Engine β)

def Audience.after (a : Audience) : SubscriberAction → Audience
  | .subscribe => a.subscribe.1
  | .collect number => (a.collect number).1
  | .unsubscribe number => a.unsubscribe number

def Machine.withAudience (m : Machine β) (audience : Audience) : Machine β :=
  { m with gate := { m.gate with audience := audience } }

def Phase.result? : Phase → Option (Except Stall Outcome)
  | .finished result => some result
  | .boundary | .poll | .gate | .parked _ | .watch | .pausing _ | .notifying _ | .fetch | .settle
  | .announcing _ => none

namespace RunState

def audience : RunState β → Audience
  | .idle m => m.gate.audience
  | .running e => e.machine.gate.audience

def mailboxes (s : RunState β) : List Mailbox :=
  s.audience.mailboxes

def withAudience (audience : Audience) : RunState β → RunState β
  | .idle m => .idle (m.withAudience audience)
  | .running e => .running { e with machine := e.machine.withAudience audience }

/-- A run that is over leaves its machine at rest. -/
def ofRun (e : Engine β) : RunState β :=
  if e.phase.result?.isSome then .idle e.machine else .running e

variable [Bus β]

/-- Only a machine at rest begins a run or is exchanged. -/
def proceed : RunState β → MachineAction β → RunState β
  | .idle m, .begin options => .running (.start m options)
  | .idle m, .replace m' => .idle (m'.withAudience m.gate.audience)
  | .running e, .occur o => .ofRun (e.meet o)
  | .idle m, .occur _ => .idle m
  | .running e, .begin _ | .running e, .replace _ => .running e

def meet (s : RunState β) : GateAction β → RunState β
  | .machine t => s.proceed t
  | .subscriber v => s.withAudience (s.audience.after v)

def after (s : RunState β) (history : List (GateAction β)) : RunState β :=
  history.foldl meet s

end RunState

namespace RunState

variable [Bus β]

theorem after_cons (s : RunState β) (action : GateAction β) (history : List (GateAction β)) :
    s.after (action :: history) = (s.meet action).after history := rfl

theorem after_append (s : RunState β) (first second : List (GateAction β)) :
    s.after (first ++ second) = (s.after first).after second :=
  List.foldl_append

end RunState

/-- The end of a run that subscribers hear of. A run that stalls ends in silence. -/
def endEvents : Except Stall Outcome → List Event
  | .ok outcome => [.finished outcome]
  | .error _ => []

/-- A hit that was found and that nobody has been told of yet. -/
def Phase.pending : Phase → List Event
  | .pausing hit | .notifying hit => [.breakpoint hit]
  | .boundary | .poll | .gate | .parked _ | .watch | .fetch | .settle | .announcing _
  | .finished _ => []

namespace Engine

variable [Bus β]

def found (e : Engine β) : Occurrence → Option Hit
  | .move =>
    match e.phase with
    | .watch => e.machine.consult.2
    | _ => none
  | .act _ | .wake | .expire | .pass _ => none

def returned (e : Engine β) (o : Occurrence) : Option (Except Stall Outcome) :=
  if e.phase.result?.isSome then none else (e.meet o).phase.result?

def told (e : Engine β) (o : Occurrence) : List Event :=
  (e.occurrenceMarks o).filterMap Mark.event?

end Engine

namespace RunState

variable [Bus β]

def hits : RunState β → GateAction β → List Hit
  | .running e, .machine (.occur o) => (e.found o).toList
  | .running _, .machine (.begin _) | .running _, .machine (.replace _) | .running _, .subscriber _
  | .idle _, _ => []

def results : RunState β → GateAction β → List (Except Stall Outcome)
  | .running e, .machine (.occur o) => (e.returned o).toList
  | .running _, .machine (.begin _) | .running _, .machine (.replace _) | .running _, .subscriber _
  | .idle _, _ => []

/-- What happens that subscribers are to hear of. -/
def due (s : RunState β) (action : GateAction β) : List Event :=
  (s.hits action).map .breakpoint ++ (s.results action).flatMap endEvents

/-- What is sent to the subscribers. -/
def told : RunState β → GateAction β → List Event
  | .running e, .machine (.occur o) => e.told o
  | .running _, .machine (.begin _) | .running _, .machine (.replace _) | .running _, .subscriber _
  | .idle _, _ => []

def pending : RunState β → List Event
  | .idle _ => []
  | .running e => e.phase.pending

/-- What a subscriber finds in its mailbox. -/
def taken (number : Nat) (s : RunState β) : GateAction β → List Event
  | .subscriber (.collect other) =>
    if other = number then (s.audience.collect number).2.getD [] else []
  | .subscriber .subscribe | .subscriber (.unsubscribe _) | .machine _ => []

/-- What a subscriber has not collected yet. -/
def waiting (number : Nat) (s : RunState β) : List Event :=
  (s.mailboxes[number]?.map Mailbox.events).getD []

/-- All that a history shows, seen action by action. -/
def gather {α : Type} (see : RunState β → GateAction β → List α) (s : RunState β) :
    List (GateAction β) → List α
  | [] => []
  | action :: history => see s action ++ gather see (s.meet action) history

/-- All that a subscriber receives. -/
def received (number : Nat) (s : RunState β) (history : List (GateAction β)) : List Event :=
  s.gather (taken number) history ++ (s.after history).waiting number

end RunState

namespace Phase

def closing (phase : Phase) : List Event :=
  phase.result?.toList.flatMap endEvents

def Quiet (phase : Phase) : Prop :=
  phase.pending = [] ∧ phase.closing = []

theorem quiet_settle : settle.Quiet := ⟨rfl, rfl⟩

end Phase

namespace Engine

theorem quiet_askGate (e : Engine β) {closed : Phase} (h : closed.Quiet) :
    (e.askGate closed).phase.Quiet := by
  rw [askGate]
  split
  · exact ⟨rfl, rfl⟩
  · exact ⟨rfl, rfl⟩
  · exact h

theorem quiet_wake {e : Engine β} {allowance : Nat} (h : e.phase = .parked allowance) :
    e.wake.phase.Quiet := by
  rw [wake, h]
  exact e.quiet_askGate Phase.quiet_settle

theorem quiet_expire {e : Engine β} {allowance : Nat} (h : e.phase = .parked allowance) :
    e.expire.phase.Quiet := by
  rw [expire, h]
  apply quiet_askGate
  split
  · exact ⟨rfl, rfl⟩
  · exact Phase.quiet_settle

theorem quiet_settleMove (e : Engine β) : e.settleMove.phase.Quiet := by
  rw [settleMove]
  dsimp only
  split
  · exact ⟨rfl, rfl⟩
  · dsimp only
    split
    · exact ⟨rfl, rfl⟩
    · exact ⟨rfl, rfl⟩

variable [Bus β]

theorem quiet_pollMove (e : Engine β) : e.pollMove.phase.Quiet := by
  rw [pollMove]
  split
  · exact ⟨rfl, rfl⟩
  · split
    · exact ⟨rfl, rfl⟩
    · exact ⟨rfl, rfl⟩

/-- What an occurrence brings that subscribers are to hear of. -/
def due (e : Engine β) (o : Occurrence) : List Event :=
  (e.found o).toList.map .breakpoint ++ (e.returned o).toList.flatMap endEvents

theorem due_of_found_none {e : Engine β} {o : Occurrence} (hfound : e.found o = none) :
    e.due o = if e.phase.result?.isSome then [] else (e.meet o).phase.closing := by
  rw [due, hfound, returned]
  split
  · rfl
  · rfl

theorem pending_due_of_still {e : Engine β} {o : Occurrence} (hphase : (e.meet o).phase = e.phase)
    (hfound : e.found o = none) (htold : e.told o = []) :
    e.phase.pending ++ e.due o = e.told o ++ (e.meet o).phase.pending := by
  have hdue : e.due o = [] := by
    rw [due_of_found_none hfound, hphase, Phase.closing]
    cases e.phase.result? with
    | none => rfl
    | some result => rfl
  rw [hdue, htold, hphase, List.append_nil, List.nil_append]

theorem pending_due_of_quiet {e : Engine β} {o : Occurrence} (hpending : e.phase.pending = [])
    (hquiet : (e.meet o).phase.Quiet) (hfound : e.found o = none) (htold : e.told o = []) :
    e.phase.pending ++ e.due o = e.told o ++ (e.meet o).phase.pending := by
  rw [due_of_found_none hfound, hpending, hquiet.1, hquiet.2, htold]
  split
  · rfl
  · rfl

theorem pending_due_watch {e : Engine β} (h : e.phase = .watch) :
    e.phase.pending ++ e.due .move = e.told .move ++ (e.meet .move).phase.pending := by
  obtain ⟨machine, options, elapsed, asleepUntil, phase⟩ := e
  obtain rfl : phase = .watch := h
  simp only [due, found, returned, told, occurrenceMarks, moveMarks, meet, advance, move, watchMove]
  rcases machine.consult with ⟨m, hit⟩
  cases hit with
  | none => rfl
  | some hit => rfl

/-- What is still to be told and what comes up is told, or is still to be told afterwards. -/
theorem pending_due (e : Engine β) (o : Occurrence) :
    e.phase.pending ++ e.due o = e.told o ++ (e.meet o).phase.pending := by
  obtain ⟨machine, options, elapsed, asleepUntil, phase⟩ := e
  cases o with
  | act s => exact pending_due_of_still rfl rfl rfl
  | pass time => exact pending_due_of_still rfl rfl rfl
  | wake =>
    cases phase with
    | parked allowance => exact pending_due_of_quiet rfl (quiet_wake rfl) rfl rfl
    | boundary | poll | gate | watch | pausing _ | notifying _ | fetch | settle | announcing _
    | finished _ => exact pending_due_of_still rfl rfl rfl
  | expire =>
    cases phase with
    | parked allowance => exact pending_due_of_quiet rfl (quiet_expire rfl) rfl rfl
    | boundary | poll | gate | watch | pausing _ | notifying _ | fetch | settle | announcing _
    | finished _ => exact pending_due_of_still rfl rfl rfl
  | move =>
    -- A hit comes up in `watch`, waits in `pausing` and is told in `notifying`; an outcome is told
    -- in `announcing`, where the run returns. The other phases bring nothing.
    cases phase with
    | watch => exact pending_due_watch rfl
    | pausing hit | notifying hit | announcing outcome => rfl
    | parked _ | finished _ => exact pending_due_of_still rfl rfl rfl
    | poll => exact pending_due_of_quiet rfl (quiet_pollMove _) rfl rfl
    | gate => exact pending_due_of_quiet rfl (quiet_askGate _ ⟨rfl, rfl⟩) rfl rfl
    | fetch => exact pending_due_of_quiet rfl ⟨rfl, rfl⟩ rfl rfl
    | settle => exact pending_due_of_quiet rfl (quiet_settleMove _) rfl rfl
    | boundary =>
      refine pending_due_of_quiet rfl ?_ rfl rfl
      simp only [meet, advance, move]
      split
      · exact ⟨rfl, rfl⟩
      · exact ⟨rfl, rfl⟩

end Engine

namespace RunState

theorem mailboxes_withAudience (audience : Audience) (s : RunState β) :
    (s.withAudience audience).mailboxes = audience.mailboxes := by
  cases s with
  | idle m => rfl
  | running e => rfl

theorem mailboxes_ofRun (e : Engine β) : (ofRun e).mailboxes = e.machine.gate.mailboxes := by
  rw [ofRun]
  split
  · rfl
  · rfl

theorem pending_ofRun (e : Engine β) : (ofRun e).pending = e.phase.pending := by
  rw [ofRun]
  split
  case isTrue h =>
    cases hphase : e.phase <;> rw [hphase] at h
    case finished => rfl
    all_goals cases h
  case isFalse => rfl

variable [Bus β]

theorem pending_due (s : RunState β) (action : GateAction β) :
    s.pending ++ s.due action = s.told action ++ (s.meet action).pending := by
  cases s with
  | idle m =>
    cases action with
    | subscriber v => rfl
    | machine t =>
      cases t with
      | begin options | occur o | replace m' => rfl
  | running e =>
    cases action with
    | subscriber v => exact List.append_nil _
    | machine t =>
      cases t with
      | begin options | replace m' => exact List.append_nil _
      | occur o =>
        have htold := e.pending_due o
        rw [← pending_ofRun (e.meet o)] at htold
        exact htold

theorem pending_gather_due (history : List (GateAction β)) (s : RunState β) :
    s.pending ++ s.gather due history = s.gather told history ++ (s.after history).pending := by
  induction history generalizing s with
  | nil => exact List.append_nil _
  | cons action history ih =>
    calc s.pending ++ (s.due action ++ (s.meet action).gather due history)
        = s.told action ++ ((s.meet action).pending ++ (s.meet action).gather due history) := by
          rw [← List.append_assoc, pending_due, List.append_assoc]
      _ = (s.told action ++ (s.meet action).gather told history) ++
            ((s.meet action).after history).pending := by
          rw [ih, List.append_assoc]

theorem gather_append {α : Type} (see : RunState β → GateAction β → List α) (s : RunState β)
    (first second : List (GateAction β)) :
    s.gather see (first ++ second) = s.gather see first ++ (s.after first).gather see second := by
  induction first generalizing s with
  | nil => rfl
  | cons action first ih =>
    rw [List.cons_append, gather, ih, ← List.append_assoc]
    rfl

end RunState

namespace Audience

theorem getElem?_subscribe (a : Audience) {number : Nat} {box : Mailbox}
    (h : a.mailboxes[number]? = some box) : a.subscribe.1.mailboxes[number]? = some box :=
  (List.getElem?_append_left (List.getElem?_eq_some_iff.mp h).1).trans h

theorem getElem?_collect_ne (a : Audience) {number other : Nat} (hne : other ≠ number) :
    (a.collect other).1.mailboxes[number]? = a.mailboxes[number]? := by
  unfold collect
  split
  · exact List.getElem?_set_ne hne
  · rfl

theorem collect_of_connected {a : Audience} {number : Nat} {events : List Event}
    (h : a.mailboxes[number]? = some ⟨true, events⟩) :
    (a.collect number).2 = some events ∧
      (a.collect number).1.mailboxes[number]? = some ⟨true, []⟩ := by
  unfold collect
  split
  case h_1 found hfound =>
    rw [h] at hfound
    cases hfound
    exact ⟨rfl, List.getElem?_set_self (List.getElem?_eq_some_iff.mp h).1⟩
  case h_2 hnone => exact absurd h (hnone events)

end Audience

namespace RunState

variable [Bus β] {s : RunState β} {number : Nat} {events : List Event}

theorem waiting_subscriber (h : s.mailboxes[number]? = some ⟨true, events⟩) {v : SubscriberAction}
    (hstays : v ≠ .unsubscribe number) :
    ∃ rest, (s.meet (.subscriber v)).mailboxes[number]? = some ⟨true, rest⟩ ∧
      events = s.taken number (.subscriber v) ++ rest := by
  rw [meet, mailboxes_withAudience]
  cases v with
  | subscribe => exact ⟨events, s.audience.getElem?_subscribe h, rfl⟩
  | unsubscribe other =>
    have hne : other ≠ number := fun heq => hstays (heq ▸ rfl)
    exact ⟨events, (List.getElem?_set_ne hne).trans h, rfl⟩
  | collect other =>
    rcases Decidable.em (other = number) with rfl | hne
    · obtain ⟨hevents, hempty⟩ := Audience.collect_of_connected h
      refine ⟨[], hempty, ?_⟩
      rw [taken, if_pos rfl, hevents]
      exact (List.append_nil _).symm
    · refine ⟨events, (s.audience.getElem?_collect_ne hne).trans h, ?_⟩
      rw [taken, if_neg hne]
      rfl

theorem waiting_machine (h : s.mailboxes[number]? = some ⟨true, events⟩) (t : MachineAction β) :
    (s.meet (.machine t)).mailboxes[number]? = some ⟨true, events ++ s.told (.machine t)⟩ := by
  cases s with
  | idle m =>
    cases t with
    | occur o | replace m' => exact h.trans (by rw [told, List.append_nil])
    | begin options =>
      have hstart : (Engine.start m options).machine.gate.mailboxes = m.gate.mailboxes :=
        m.mailboxes_perform _
      rw [told, List.append_nil, ← h]
      exact congrArg (fun boxes => boxes[number]?) hstart
  | running e =>
    cases t with
    | begin options | replace m' => exact h.trans (by rw [told, List.append_nil])
    | occur o =>
      have hold : e.machine.gate.mailboxes[number]? = some ⟨true, events⟩ := h
      rw [meet, proceed, mailboxes_ofRun, Engine.mailboxes_meet, List.getElem?_map, hold]
      rfl

theorem waiting_meet (h : s.mailboxes[number]? = some ⟨true, events⟩) {action : GateAction β}
    (hstays : action ≠ .subscriber (.unsubscribe number)) :
    ∃ rest, (s.meet action).mailboxes[number]? = some ⟨true, rest⟩ ∧
      events ++ s.told action = s.taken number action ++ rest := by
  cases action with
  | machine t => exact ⟨_, waiting_machine h t, rfl⟩
  | subscriber v =>
    have hv : v ≠ .unsubscribe number := fun heq => hstays (heq ▸ rfl)
    obtain ⟨rest, hrest, htaken⟩ := waiting_subscriber h hv
    have htold : s.told (.subscriber v) = [] := by
      cases s with
      | idle m => rfl
      | running e => rfl
    exact ⟨rest, hrest, by rw [htold, List.append_nil, ← htaken]⟩

theorem waiting_after (history : List (GateAction β))
    (h : s.mailboxes[number]? = some ⟨true, events⟩)
    (hstays : .subscriber (.unsubscribe number) ∉ history) :
    ∃ rest, (s.after history).mailboxes[number]? = some ⟨true, rest⟩ ∧
      events ++ s.gather told history = s.gather (taken number) history ++ rest := by
  induction history generalizing s events with
  | nil => exact ⟨events, h, List.append_nil _⟩
  | cons action history ih =>
    obtain ⟨middle, hmiddle, hmet⟩ := waiting_meet h (List.ne_of_not_mem_cons hstays).symm
    obtain ⟨rest, hrest, hgathered⟩ := ih hmiddle (List.not_mem_of_not_mem_cons hstays)
    refine ⟨rest, hrest, ?_⟩
    rw [gather, gather, ← List.append_assoc, hmet, List.append_assoc, hgathered,
      List.append_assoc]

theorem received_eq_gather_told {history : List (GateAction β)}
    (h : s.mailboxes[number]? = some ⟨true, []⟩)
    (hstays : .subscriber (.unsubscribe number) ∉ history) :
    s.received number history = s.gather told history := by
  obtain ⟨rest, hrest, hgathered⟩ := waiting_after history h hstays
  have hwaiting : (s.after history).waiting number = rest := by
    rw [waiting, hrest]
    rfl
  rw [received, hwaiting, ← hgathered]
  rfl

end RunState

theorem Engine.found_unheard [Bus β] (e : Engine β) : e.unheard.found .move = e.found .move := by
  obtain ⟨machine, options, elapsed, asleepUntil, phase⟩ := e
  cases phase with
  | watch =>
    have hconsult := congrArg Prod.snd machine.unheard_consult
    exact hconsult
  | boundary | poll | gate | parked _ | pausing _ | notifying _ | fetch | settle | announcing _
  | finished _ => rfl

namespace RunState

def unheard (s : RunState β) : RunState β :=
  s.withAudience .empty

theorem unheard_ofRun (e : Engine β) : (ofRun e).unheard = ofRun e.unheard := by
  have hphase : e.unheard.phase = e.phase := rfl
  rw [ofRun, ofRun, hphase]
  split
  · rfl
  · rfl

theorem pending_unheard (s : RunState β) : s.unheard.pending = s.pending := by
  cases s with
  | idle m => rfl
  | running e => rfl

variable [Bus β]

theorem unheard_proceed (s : RunState β) (t : MachineAction β) :
    (s.proceed t).unheard = s.unheard.proceed t := by
  cases s with
  | idle m =>
    cases t with
    | begin options => exact congrArg running (Engine.unheard_start m options)
    | occur o | replace m' => rfl
  | running e =>
    cases t with
    | occur o => exact (unheard_ofRun _).trans (congrArg ofRun (e.unheard_meet o))
    | begin options | replace m' => rfl

theorem unheard_subscriber (s : RunState β) (v : SubscriberAction) :
    (s.meet (.subscriber v)).unheard = s.unheard := by
  cases s with
  | idle m => rfl
  | running e => rfl

theorem due_subscriber (s : RunState β) (v : SubscriberAction) : s.due (.subscriber v) = [] := by
  cases s with
  | idle m => rfl
  | running e => rfl

theorem due_unheard (s : RunState β) (action : GateAction β) :
    s.unheard.due action = s.due action := by
  cases s with
  | idle m => rfl
  | running e =>
    cases action with
    | subscriber v => rfl
    | machine t =>
      cases t with
      | begin options | replace m' => rfl
      | occur o =>
        have hfound : e.unheard.found o = e.found o := by
          cases o with
          | act s | wake | expire | pass time => rfl
          | move => exact e.found_unheard
        have hreturned : e.unheard.returned o = e.returned o := by
          rw [Engine.returned, Engine.returned, ← Engine.unheard_meet]
          rfl
        have hdue : e.unheard.due o = e.due o := by
          rw [Engine.due, Engine.due, hfound, hreturned]
        exact hdue

theorem gather_due_machine (history : List (GateAction β)) (s : RunState β) :
    s.gather due history =
        s.unheard.gather due ((history.filterMap GateAction.machine?).map .machine) ∧
      (s.after history).unheard =
        s.unheard.after ((history.filterMap GateAction.machine?).map .machine) := by
  induction history generalizing s with
  | nil => exact ⟨rfl, rfl⟩
  | cons action history ih =>
    obtain ⟨hdue, hafter⟩ := ih (s.meet action)
    cases action with
    | subscriber v =>
      rw [unheard_subscriber] at hdue hafter
      refine ⟨?_, hafter⟩
      rw [gather, due_subscriber, hdue]
      rfl
    | machine t =>
      have hmet : (s.meet (.machine t)).unheard = s.unheard.meet (.machine t) := s.unheard_proceed t
      rw [hmet] at hdue hafter
      refine ⟨?_, hafter⟩
      rw [gather, hdue, ← due_unheard]
      rfl

end RunState

namespace Engine

variable [Bus β]

theorem found_of_returned {e : Engine β} {o : Occurrence} {result : Except Stall Outcome}
    (h : e.returned o = some result) : e.found o = none := by
  obtain ⟨machine, options, elapsed, asleepUntil, phase⟩ := e
  cases o with
  | act s | wake | expire | pass time => rfl
  | move =>
    cases phase with
    | watch =>
      -- Whether or not there is a hit, the run goes on.
      simp only [returned, meet, advance, move, watchMove] at h
      rcases hconsult : machine.consult with ⟨m, hit⟩
      cases hit with
      | none => simp [hconsult, Phase.result?] at h
      | some hit => simp [hconsult, Phase.result?] at h
    | boundary | poll | gate | parked _ | pausing _ | notifying _ | fetch | settle | announcing _
    | finished _ => rfl

theorem ofRun_of_returned {e : Engine β} {o : Occurrence} {result : Except Stall Outcome}
    (h : e.returned o = some result) : RunState.ofRun (e.meet o) = .idle (e.meet o).machine := by
  rw [returned] at h
  split at h
  · cases h
  · rw [RunState.ofRun, h]
    rfl

end Engine

namespace RunState

variable [Bus β]

theorem due_of_results_nil {s : RunState β} {action : GateAction β} (h : s.results action = []) :
    s.due action = (s.hits action).map .breakpoint := by
  rw [due, h]
  exact List.append_nil _

theorem gather_due_of_results_nil (history : List (GateAction β)) {s : RunState β}
    (h : s.gather results history = []) :
    s.gather due history = (s.gather hits history).map .breakpoint := by
  induction history generalizing s with
  | nil => rfl
  | cons action history ih =>
    obtain ⟨haction, hhistory⟩ := List.append_eq_nil_iff.mp h
    rw [gather, gather, due_of_results_nil haction, ih hhistory, List.map_append]

theorem idle_of_results {s : RunState β} {action : GateAction β} {result : Except Stall Outcome}
    (h : s.results action = [result]) :
    s.due action = endEvents result ∧ ∃ m, s.meet action = .idle m := by
  cases s with
  | idle m => cases h
  | running e =>
    cases action with
    | subscriber v => cases h
    | machine t =>
      cases t with
      | begin options | replace m' => cases h
      | occur o =>
        have hreturned : e.returned o = some result := by
          rw [results] at h
          exact Option.toList_eq_singleton_iff.mp h
        refine ⟨?_, _, Engine.ofRun_of_returned hreturned⟩
        have hdue : e.due o = endEvents result := by
          rw [Engine.due, hreturned, Engine.found_of_returned hreturned]
          exact List.append_nil _
        exact hdue

end RunState

/-- What somebody receives whose mailbox has just been opened and who stays connected. -/
structure RunState.Hears [Bus β] (first : RunState β) (number : Nat)
    (history : List (GateAction β)) : Prop where
  /-- Every hit and every outcome, each once and in their order. At most one hit is on its way: one
  found before the beginning is still to come, one found at the end is still missing. -/
  complete : first.pending ++ first.gather due history =
    first.received number history ++ (first.after history).pending
  /-- From the beginning of a run to its return these are its hits and then its outcome, if it has
  come to one. -/
  runs : ∀ before options during last later result m,
    history = before ++ .machine (.begin options) :: (during ++ last :: later) →
    first.after before = .idle m →
    (RunState.running (.start m options)).gather results during = [] →
    ((RunState.running (.start m options)).after during).results last = [result] →
    first.received number (before ++ .machine (.begin options) :: (during ++ [last])) =
      first.received number before ++
        (((RunState.running (.start m options)).gather hits during).map .breakpoint ++
          endEvents result)
  /-- Other subscribers make no difference, those that are there before and those that come, look
  and go meanwhile. -/
  apart : ∀ (other : RunState β) number' history', other.unheard = first.unheard →
    history'.filterMap GateAction.machine? = history.filterMap GateAction.machine? →
    other.mailboxes[number']? = some ⟨true, []⟩ →
    .subscriber (.unsubscribe number') ∉ history' →
    other.received number' history' = first.received number history

namespace RunState

variable [Bus β]

theorem pending_append_due {first : RunState β} {number : Nat} {history : List (GateAction β)}
    (hopen : first.mailboxes[number]? = some ⟨true, []⟩)
    (hstays : .subscriber (.unsubscribe number) ∉ history) :
    first.pending ++ first.gather due history =
      first.received number history ++ (first.after history).pending := by
  rw [received_eq_gather_told hopen hstays, pending_gather_due]

theorem received_of_idle {first : RunState β} {number : Nat} {history : List (GateAction β)}
    {m : Machine β} (hopen : first.mailboxes[number]? = some ⟨true, []⟩)
    (hstays : .subscriber (.unsubscribe number) ∉ history) (hidle : first.after history = .idle m) :
    first.received number history = first.pending ++ first.gather due history := by
  rw [pending_append_due hopen hstays, hidle]
  exact (List.append_nil _).symm

theorem received_run {first : RunState β} {number : Nat} {before during : List (GateAction β)}
    {last : GateAction β} {options : RunOptions} {result : Except Stall Outcome} {m : Machine β}
    (hopen : first.mailboxes[number]? = some ⟨true, []⟩)
    (hstays : .subscriber (.unsubscribe number) ∉
      before ++ .machine (.begin options) :: (during ++ [last]))
    (hidle : first.after before = .idle m)
    (hduring : (running (.start m options)).gather results during = [])
    (hlast : ((running (.start m options)).after during).results last = [result]) :
    first.received number (before ++ .machine (.begin options) :: (during ++ [last])) =
      first.received number before ++
        (((running (.start m options)).gather hits during).map .breakpoint ++
          endEvents result) := by
  obtain ⟨hdue, ended, hended⟩ := idle_of_results hlast
  have hbefore : .subscriber (.unsubscribe number) ∉ before :=
    fun hmem => hstays (List.mem_append_left _ hmem)
  have hreturned : first.after (before ++ .machine (.begin options) :: (during ++ [last])) =
      .idle ended := by
    rw [after_append, hidle, after_cons, after_append]
    exact hended
  have hheard : (RunState.idle m).gather due (.machine (.begin options) :: (during ++ [last])) =
      ((running (.start m options)).gather hits during).map .breakpoint ++ endEvents result := by
    rw [← gather_due_of_results_nil during hduring, ← hdue, ← List.append_nil (due _ last)]
    exact gather_append due _ during [last]
  rw [received_of_idle hopen hstays hreturned, received_of_idle hopen hbefore hidle, gather_append,
    hidle, hheard, List.append_assoc]

theorem received_congr {first other : RunState β} {number number' : Nat}
    {history history' : List (GateAction β)} (hother : other.unheard = first.unheard)
    (hactions : history'.filterMap GateAction.machine? = history.filterMap GateAction.machine?)
    (hopen : first.mailboxes[number]? = some ⟨true, []⟩)
    (hstays : .subscriber (.unsubscribe number) ∉ history)
    (hopen' : other.mailboxes[number']? = some ⟨true, []⟩)
    (hstays' : .subscriber (.unsubscribe number') ∉ history') :
    other.received number' history' = first.received number history := by
  obtain ⟨hdue, hafter⟩ := gather_due_machine history first
  obtain ⟨hdue', hafter'⟩ := gather_due_machine history' other
  rw [hother, hactions, ← hdue] at hdue'
  rw [hother, hactions, ← hafter] at hafter'
  have hpending : other.pending = first.pending := by
    rw [← pending_unheard, hother, pending_unheard]
  have hpending' : (other.after history').pending = (first.after history).pending := by
    rw [← pending_unheard, hafter', pending_unheard]
  have hreceived := pending_append_due hopen' hstays'
  rw [hpending, hdue', hpending', pending_append_due hopen hstays] at hreceived
  exact (List.append_cancel_right hreceived).symm

theorem getElem?_mailboxes_subscribe (s : RunState β) :
    (s.meet (.subscriber .subscribe)).mailboxes[s.mailboxes.length]? = some ⟨true, []⟩ := by
  rw [meet, mailboxes_withAudience]
  exact List.getElem?_concat_length

/-- From the action of subscribing on, whoever stays connected hears of everything. -/
theorem hears_of_stays (s : RunState β) (history : List (GateAction β))
    (hstays : .subscriber (.unsubscribe s.mailboxes.length) ∉ history) :
    (s.meet (.subscriber .subscribe)).Hears s.mailboxes.length history := by
  have hopen := s.getElem?_mailboxes_subscribe
  generalize s.meet (.subscriber .subscribe) = first at hopen ⊢
  constructor
  · exact pending_append_due hopen hstays
  · intro before options during last later result m hhistory hidle hduring hlast
    have hsplit : history =
        (before ++ .machine (.begin options) :: (during ++ [last])) ++ later := by
      rw [hhistory]
      simp
    have hrun : .subscriber (.unsubscribe s.mailboxes.length) ∉
        before ++ .machine (.begin options) :: (during ++ [last]) := by
      intro hmem
      apply hstays
      rw [hsplit]
      exact List.mem_append_left _ hmem
    exact received_run hopen hrun hidle hduring hlast
  · intro other number' history' hother hactions hopen' hstays'
    exact received_congr hother hactions hopen hstays hopen' hstays'

/-- A machine that stops at its first instruction, a `BRK`, and one subscriber. -/
def breakpointAtStart : RunState FlatMemory :=
  (RunState.idle ((Machine.powerOn FlatMemory.zeroed).setBreakpoints
    (some (Breakpoints.mk [0]).evaluator))).meet (.subscriber .subscribe)

def moves (count : Nat) : List (GateAction FlatMemory) :=
  List.replicate count (.machine (.occur .move))

/-- While a hit is on its way one subscriber goes and another one comes. After that run a machine
that nobody lets go on stalls. -/
def resubscription : List (GateAction FlatMemory) :=
  List.flatten [
    .machine (.begin ⟨none, 0⟩) :: moves 4, .subscriber (.unsubscribe 0) :: moves 1,
    .subscriber .subscribe :: moves 2, [.subscriber (.collect 1)],
    .machine (.occur (.act .go)) :: moves 7,
    [.machine (.replace { Machine.powerOn FlatMemory.zeroed with gate := .fresh false 5 })],
    .machine (.begin ⟨none, 0⟩) :: moves 3, [.machine (.occur .expire)]]

theorem hears_of_stays_breakpointAtStart :
    .subscriber (.unsubscribe 1) ∉ resubscription ∧
      (breakpointAtStart.meet (.subscriber .subscribe)).Hears 1 resubscription ∧
      (breakpointAtStart.meet (.subscriber .subscribe)).received 1 resubscription =
        [.breakpoint ⟨"PC == $0000", 0, 0⟩, .finished (.halted .brk)] := by
  have hstays : .subscriber (.unsubscribe 1) ∉ resubscription := by
    simp [resubscription, moves]
  exact ⟨hstays, breakpointAtStart.hears_of_stays resubscription hstays, by decide +kernel⟩

end RunState

end Nmos6502
