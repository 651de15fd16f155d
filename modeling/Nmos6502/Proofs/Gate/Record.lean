import Nmos6502.Proofs.Gate.GrantState
import Nmos6502.Proofs.Run.Breakpoints

namespace Nmos6502

universe u

variable {β : Type u}

def gateMoves (ss : List Signal) : List GateEvent :=
  (ss.filter Signal.movesGate).map .moved

theorem isMove_of_mem_gateMoves {ss : List Signal} {event : GateEvent} (h : event ∈ gateMoves ss) :
    event.isMove = true := by
  rw [gateMoves, List.mem_map] at h
  obtain ⟨s, -, rfl⟩ := h
  rfl

namespace Gate

def grantState (g : Gate) (granted : Bool) : GrantState where
  hold := g.hold
  owed := !g.hold && g.step
  cancelled := g.cancelled
  granted := granted

theorem grantState_apply (g : Gate) (granted : Bool) (s : Signal) :
    (g.apply s).grantState granted = (g.grantState granted).after (.moved s) := by
  cases s with
  | go | stop | step | nmi | irq | clear | cancel | resetCancel => rfl

theorem leads_gateMoves (ss : List Signal) (g : Gate) (granted : Bool) :
    (g.grantState granted).Leads (gateMoves ss) ((ss.foldl apply g).grantState granted) := by
  induction ss generalizing g with
  | nil => exact .refl _
  | cons s ss ih =>
    have hrest := ih (g.apply s)
    rw [gateMoves, List.filter_cons]
    split
    · have hmoved : (g.grantState granted).Allows (.moved s) := trivial
      rw [grantState_apply] at hrest
      exact (GrantState.Leads.single hmoved).trans hrest
    · rename_i hmoves
      have hsame : g.apply s = g := by
        cases s with
        | nmi | irq | clear => rfl
        | go | stop | step | cancel | resetCancel => exact absurd rfl hmoves
      rw [hsame] at hrest
      rw [List.foldl_cons, hsame]
      exact hrest

theorem grantState_opens (g : Gate) (granted : Bool) :
    (g.grantState granted).opens = decide (g.ask.1 = .granted) := by
  rw [Bool.eq_iff_iff, decide_eq_true_iff, ask_fst_eq_granted_iff, GrantState.opens, grantState]
  cases g.hold <;> simp

theorem leads_ask (g : Gate) :
    (g.grantState false).Leads [.answered (decide (g.ask.1 = .granted))]
      (g.ask.2.grantState (decide (g.ask.1 = .granted))) := by
  have hallows : (g.grantState false).Allows (.answered (decide (g.ask.1 = .granted))) :=
    ⟨(g.grantState_opens false).symm, rfl⟩
  convert GrantState.Leads.single hallows using 1
  rw [ask]
  cases hcancelled : g.cancelled <;> cases hhold : g.hold <;> cases hstep : g.step <;>
    simp [grantState, GrantState.after, hcancelled, hhold, hstep]

end Gate

theorem Gate.ask_snd_of_closed {g : Gate} (h : g.ask.1 = .closed) : g.ask.2 = g := by
  revert h
  rw [ask]
  split
  · intro h
    cases h
  · split
    · intro h
      cases h
    · split
      · intro h
        cases h
      · exact fun _ => rfl

/-- The program has been granted an instruction that it has not executed yet. -/
def Phase.granted : Phase → Bool
  | .watch | .pausing _ | .fetch => true
  | .boundary | .poll | .gate | .parked _ | .notifying _ | .settle | .announcing _ | .finished _ =>
    false

def Machine.entryMoves [Bus β] (m : Machine β) (kind : Interrupt) : List GateEvent :=
  gateMoves (m.calls fun c => c.enter kind)

namespace Engine

def grantState (e : Engine β) : GrantState :=
  e.machine.gate.grantState e.phase.granted

def answered (e : Engine β) : GateEvent :=
  .answered (decide (e.machine.gate.ask.1 = .granted))

/-- A program that asks learns the answer at once, unless the gate is closed. -/
def gateQuery (e : Engine β) : List GateEvent :=
  if e.machine.gate.ask.1 = .closed then [] else [e.answered]

def waitEvents (e : Engine β) : List GateEvent :=
  match e.phase with
  | .parked _ => [e.answered]
  | _ => []

theorem grantState_askGate (e : Engine β) {closed : Phase} (hclosed : closed.granted = false) :
    (e.askGate closed).grantState =
      e.machine.gate.ask.2.grantState (decide (e.machine.gate.ask.1 = .granted)) := by
  rw [askGate, grantState]
  rcases e.machine.gate.ask with ⟨answer, gate⟩
  cases answer with
  | granted => rfl
  | refused => rfl
  | closed =>
    dsimp only
    rw [hclosed]
    rfl

theorem leads_askGate (e : Engine β) {closed : Phase} (hphase : e.phase.granted = false)
    (hclosed : closed.granted = false) :
    e.grantState.Leads [e.answered] (e.askGate closed).grantState := by
  rw [e.grantState_askGate hclosed, grantState, hphase]
  exact e.machine.gate.leads_ask

theorem leads_gateQuery (e : Engine β) {closed : Phase} (hphase : e.phase.granted = false)
    (hclosed : closed.granted = false) :
    e.grantState.Leads e.gateQuery (e.askGate closed).grantState := by
  rw [gateQuery]
  split
  · rename_i hask
    rw [e.grantState_askGate hclosed, grantState, hphase, Gate.ask_snd_of_closed hask, hask]
    exact .refl _
  · exact e.leads_askGate hphase hclosed

theorem leads_wake (e : Engine β) : e.grantState.Leads e.waitEvents e.wake.grantState := by
  rw [waitEvents, wake]
  cases hphase : e.phase with
  | parked allowance => exact e.leads_askGate (by rw [hphase]; rfl) rfl
  | _ => exact .refl _

theorem leads_expire (e : Engine β) : e.grantState.Leads e.waitEvents e.expire.grantState := by
  rw [waitEvents, expire]
  cases hphase : e.phase with
  | parked allowance =>
    refine leads_askGate { e with elapsed := e.elapsed + allowance } (by rw [hphase]; rfl) ?_
    split <;> rfl
  | _ => exact .refl _

theorem leads_perform (m : Machine β) (operation : Cpu β → Cpu β) (granted : Bool) :
    (m.gate.grantState granted).Leads (gateMoves (m.calls operation))
      ((m.perform operation).gate.grantState granted) := by
  rw [m.perform_gate]
  exact m.gate.leads_gateMoves _ granted

theorem leads_settleMove (e : Engine β) (hphase : e.phase.granted = false) :
    e.grantState.Leads (gateMoves (e.machine.calls Cpu.reportPc)) e.settleMove.grantState := by
  have hreported := leads_perform e.machine Cpu.reportPc false
  rw [grantState, hphase, settleMove, grantState]
  dsimp only
  split
  · exact hreported
  · cases e.overdue <;> exact hreported

variable [Bus β]

def moveGateEvents (e : Engine β) : List GateEvent :=
  match e.phase with
  | .poll => (e.machine.accepted.map e.machine.entryMoves).getD []
  | .gate => e.gateQuery
  | .watch => gateMoves e.machine.consulted
  | .pausing _ => [.paused]
  | .fetch => .executed :: gateMoves (e.machine.calls Cpu.executeNext)
  | .settle => gateMoves (e.machine.calls Cpu.reportPc)
  | .boundary | .parked _ | .notifying _ | .announcing _ | .finished _ => []

def gateEvents (e : Engine β) : Occurrence → List GateEvent
  | .move => e.moveGateEvents
  | .act s => gateMoves [s]
  | .wake | .expire => e.waitEvents
  | .pass _ => []

/-- What happens at the gate in a schedule. -/
def gateRecord (e : Engine β) : List Occurrence → List GateEvent
  | [] => []
  | o :: schedule => e.gateEvents o ++ (e.meet o).gateRecord schedule

theorem leads_pollMove (e : Engine β) (hphase : e.phase.granted = false) :
    e.grantState.Leads ((e.machine.accepted.map e.machine.entryMoves).getD [])
      e.pollMove.grantState := by
  rw [pollMove, grantState, hphase]
  cases e.machine.accepted with
  | some kind =>
    exact leads_perform { e.machine with lines := e.machine.lines.acknowledge kind }
      (fun c => c.enter kind) false
  | none => cases e.sleepLeft <;> exact .refl _

theorem leads_watchMove (e : Engine β) (hphase : e.phase.granted = true) :
    e.grantState.Leads (gateMoves e.machine.consulted) e.watchMove.grantState := by
  have hgranted : e.watchMove.phase.granted = true := by
    rw [watchMove]
    split <;> rfl
  have hconsulted := e.machine.gate.leads_gateMoves e.machine.consulted true
  rw [grantState, hphase, grantState, hgranted, machine_watchMove, e.machine.consult_fields.2.2.1]
  exact hconsulted

theorem leads_fetchMove (e : Engine β) (hphase : e.phase.granted = true) :
    e.grantState.Leads (.executed :: gateMoves (e.machine.calls Cpu.executeNext))
      e.fetchMove.grantState := by
  have hexecuted : e.grantState.Allows .executed := hphase
  have hafter : e.grantState.after .executed = e.machine.gate.grantState false := by
    rw [grantState, hphase]
    rfl
  have hfirst := GrantState.Leads.single hexecuted
  rw [hafter] at hfirst
  exact hfirst.trans (leads_perform e.machine Cpu.executeNext false)

theorem leads_move (e : Engine β) : e.grantState.Leads e.moveGateEvents e.move.grantState := by
  have hgranted : ∀ {phase}, e.phase = phase → e.phase.granted = phase.granted :=
    fun hphase => congrArg Phase.granted hphase
  rw [move, moveGateEvents]
  cases hphase : e.phase with
  | parked allowance => exact .refl _
  | finished result => exact .refl _
  | poll => exact e.leads_pollMove (hgranted hphase)
  | gate => exact e.leads_gateQuery (hgranted hphase) rfl
  | watch => exact e.leads_watchMove (hgranted hphase)
  | fetch => exact e.leads_fetchMove (hgranted hphase)
  | settle => exact e.leads_settleMove (hgranted hphase)
  | pausing hit =>
    have hpaused : e.grantState.Allows .paused := hgranted hphase
    exact .single hpaused
  | notifying hit =>
    rw [grantState, hphase]
    exact .refl _
  | announcing outcome =>
    rw [grantState, hphase]
    exact .refl _
  | boundary =>
    rw [grantState, hphase]
    cases e.machine.gate.cancelled <;> exact .refl _

theorem leads_meet (e : Engine β) (o : Occurrence) :
    e.grantState.Leads (e.gateEvents o) (e.meet o).grantState := by
  cases o with
  | move => exact leads_move { e with elapsed := e.elapsed + 1 }
  | act s => exact e.machine.gate.leads_gateMoves [s] e.phase.granted
  | wake => exact e.leads_wake
  | expire => exact e.leads_expire
  | pass time => exact .refl _

/-- What happens at the gate in a run is what its state admits. -/
theorem leads_through (schedule : List Occurrence) (e : Engine β) :
    e.grantState.Leads (e.gateRecord schedule) (e.through schedule).grantState := by
  induction schedule generalizing e with
  | nil => exact .refl _
  | cons o schedule ih => exact (e.leads_meet o).trans (ih _)

end Engine

end Nmos6502
