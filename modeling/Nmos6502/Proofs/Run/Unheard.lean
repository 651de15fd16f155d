import Nmos6502.Proofs.Run.Schedule

namespace Nmos6502

universe u

variable {β : Type u}

namespace Gate

/-- The gate with nobody behind it. -/
def unheard (g : Gate) : Gate :=
  { g with audience := .empty }

theorem unheard_apply (g : Gate) (s : Signal) : (g.apply s).unheard = g.unheard.apply s := by
  cases s <;> rfl

theorem unheard_ask (g : Gate) : g.unheard.ask = (g.ask.1, g.ask.2.unheard) := by
  obtain ⟨hold, step, cancelled, patience, audience⟩ := g
  cases cancelled <;> cases hold <;> cases step <;> rfl

end Gate

namespace Machine

def unheard (m : Machine β) : Machine β :=
  { m with gate := m.gate.unheard }

theorem unheard_signal (m : Machine β) (s : Signal) :
    (m.signal s).unheard = m.unheard.signal s := by
  simp only [signal, unheard, Gate.unheard_apply]

theorem unheard_signals (m : Machine β) (ss : List Signal) :
    (m.signals ss).unheard = m.unheard.signals ss := by
  induction ss generalizing m with
  | nil => rfl
  | cons s ss ih =>
    have hrest := ih (m.signal s)
    rw [unheard_signal] at hrest
    exact hrest

theorem unheard_tellLines (m : Machine β) (change : Change) :
    (m.tellLines change).unheard = m.unheard.tellLines change := by
  unfold tellLines
  split <;> rfl

theorem unheard_reveal (m : Machine β) (change : Change) :
    (m.reveal change).unheard = m.unheard.reveal change := by
  obtain ⟨cpu, lines, gate, observer, trace, breakpoints, resumePc⟩ := m
  cases observer with
  | none => rfl
  | some observer => exact unheard_signals _ _

theorem unheard_notice (m : Machine β) (entry : Happening) :
    (m.notice entry).unheard = m.unheard.notice entry := by
  cases entry with
  | stored entry => exact m.unheard_signals _
  | changed change => simp only [notice, unheard_reveal, unheard_tellLines]

theorem unheard_foldl_notice (log : List Happening) (m : Machine β) :
    (log.foldl notice m).unheard = log.foldl notice m.unheard := by
  induction log generalizing m with
  | nil => rfl
  | cons entry log ih => rw [List.foldl_cons, ih, unheard_notice, List.foldl_cons]

theorem unheard_perform (m : Machine β) (operation : Cpu β → Cpu β) :
    (m.perform operation).unheard = m.unheard.perform operation :=
  unheard_foldl_notice _ _

variable [Bus β]

theorem unheard_enter (m : Machine β) (kind : Interrupt) :
    (m.enter kind).unheard = m.unheard.enter kind :=
  unheard_perform _ _

theorem unheard_consult (m : Machine β) :
    m.unheard.consult = (m.consult.1.unheard, m.consult.2) := by
  obtain ⟨cpu, lines, gate, observer, trace, breakpoints, resumePc⟩ := m
  have hsnapshot :
      (Machine.mk cpu lines gate.unheard observer trace breakpoints resumePc).snapshot =
        (Machine.mk cpu lines gate observer trace breakpoints resumePc).snapshot := rfl
  simp only [consult, unheard, hsnapshot]
  by_cases hresume : resumePc = some cpu.pc
  · rw [if_pos hresume, if_pos hresume]
  · rw [if_neg hresume, if_neg hresume]
    cases breakpoints with
    | none => rfl
    | some evaluator =>
      dsimp only
      generalize evaluator.ask _ = answer
      obtain ⟨verdict, evaluator⟩ := answer
      have hacted := unheard_signals
        (Machine.mk cpu lines gate observer trace (some evaluator) none) verdict.signal.toList
      simp only [unheard] at hacted
      rw [← hacted]
      cases verdict.hit with
      | none => rfl
      | some hit => rfl

end Machine

namespace Engine

def unheard (e : Engine β) : Engine β :=
  { e with machine := e.machine.unheard }

theorem unheard_start (m : Machine β) (options : RunOptions) :
    (start m options).unheard = start m.unheard options := by
  simp only [start, unheard, Machine.unheard_perform]

theorem unheard_askGate (e : Engine β) (closed : Phase) :
    (e.askGate closed).unheard = e.unheard.askGate closed := by
  have hask : e.unheard.machine.gate.ask =
      (e.machine.gate.ask.1, e.machine.gate.ask.2.unheard) := e.machine.gate.unheard_ask
  rw [askGate, askGate, hask]
  rcases e.machine.gate.ask with ⟨answer, gate⟩
  cases answer with
  | granted | refused | closed => rfl

theorem unheard_wake (e : Engine β) : e.wake.unheard = e.unheard.wake := by
  obtain ⟨machine, options, elapsed, asleepUntil, phase⟩ := e
  cases phase with
  | parked allowance => exact unheard_askGate _ _
  | boundary | poll | gate | watch | pausing _ | notifying _ | fetch | settle | announcing _
  | finished _ => rfl

theorem unheard_expire (e : Engine β) : e.expire.unheard = e.unheard.expire := by
  obtain ⟨machine, options, elapsed, asleepUntil, phase⟩ := e
  cases phase with
  | parked allowance => exact unheard_askGate _ _
  | boundary | poll | gate | watch | pausing _ | notifying _ | fetch | settle | announcing _
  | finished _ => rfl

theorem unheard_settleMove (e : Engine β) : e.settleMove.unheard = e.unheard.settleMove := by
  have hsettled : e.unheard.machine.perform Cpu.reportPc =
      (e.machine.perform Cpu.reportPc).unheard := (e.machine.unheard_perform _).symm
  rw [settleMove, settleMove, hsettled]
  generalize e.machine.perform Cpu.reportPc = m
  have hsame : m.unheard.cpu = m.cpu := rfl
  dsimp only
  rw [hsame]
  by_cases hbrk : m.cpu.status.has .brk = true
  · rw [if_pos hbrk, if_pos hbrk]
    rfl
  · rw [if_neg hbrk, if_neg hbrk]
    rfl

variable [Bus β]

theorem unheard_pollMove (e : Engine β) : e.pollMove.unheard = e.unheard.pollMove := by
  have haccepted : e.unheard.machine.accepted = e.machine.accepted := rfl
  have hasleep : e.unheard.sleepLeft = e.sleepLeft := rfl
  rw [pollMove, pollMove, haccepted, hasleep]
  cases e.machine.accepted with
  | some kind =>
    simp only [unheard, Machine.unheard_enter]
  | none =>
    cases e.sleepLeft with
    | some left => rfl
    | none => rfl

theorem unheard_watchMove (e : Engine β) : e.watchMove.unheard = e.unheard.watchMove := by
  have hconsult : e.unheard.machine.consult =
      (e.machine.consult.1.unheard, e.machine.consult.2) := e.machine.unheard_consult
  rw [watchMove, watchMove, hconsult]
  rcases e.machine.consult with ⟨m, hit⟩
  cases hit with
  | none => rfl
  | some hit => rfl

theorem unheard_fetchMove (e : Engine β) : e.fetchMove.unheard = e.unheard.fetchMove := by
  simp only [fetchMove, unheard, Machine.unheard_perform]
  rfl

theorem unheard_advance (e : Engine β) : e.advance.unheard = e.unheard.advance := by
  obtain ⟨machine, options, elapsed, asleepUntil, phase⟩ := e
  cases phase with
  | poll => exact unheard_pollMove _
  | gate => exact unheard_askGate _ _
  | watch => exact unheard_watchMove _
  | fetch => exact unheard_fetchMove _
  | settle => exact unheard_settleMove _
  | boundary | notifying _ | announcing _ | pausing _ | parked _ | finished _ => rfl

theorem unheard_meet (e : Engine β) (o : Occurrence) : (e.meet o).unheard = e.unheard.meet o := by
  cases o with
  | move => exact e.unheard_advance
  | act s => simp only [meet, signal, unheard, Machine.unheard_signal]
  | wake => exact e.unheard_wake
  | expire => exact e.unheard_expire
  | pass time => rfl

end Engine

end Nmos6502
