import Nmos6502.Proofs.Cpu.Bodies
import Nmos6502.Proofs.Cpu.Decoding
import Nmos6502.Proofs.Interrupt.Arbiter
import Nmos6502.Proofs.Machine.Step
import Nmos6502.Proofs.Run.Schedule

namespace Nmos6502

universe u

variable {β : Type u}

/-- What a signal is on the lines. -/
def Signal.lineEvent? : Signal → Option LineEvent
  | .nmi => some (.requested .nmi)
  | .irq => some (.requested .irq)
  | .clear => some .cleared
  | .go | .stop | .step | .cancel | .resetCancel => none

def lineEvents (ss : List Signal) : List LineEvent :=
  ss.filterMap Signal.lineEvent?

theorem entered_not_mem_lineEvents (kind : Interrupt) (ss : List Signal) :
    .entered kind ∉ lineEvents ss := by
  rw [lineEvents, List.mem_filterMap]
  rintro ⟨s, -, h⟩
  cases s <;> cases h

theorem cleared_mem_lineEvents {ss : List Signal} (h : .cleared ∈ lineEvents ss) : .clear ∈ ss := by
  rw [lineEvents, List.mem_filterMap] at h
  obtain ⟨s, hs, hevent⟩ := h
  cases s with
  | clear => exact hs
  | nmi | irq | go | stop | step | cancel | resetCancel => cases hevent

theorem Arbiter.after_lineEvent {l : Lines} {s : Signal} {event : LineEvent}
    (h : s.lineEvent? = some event) (handling : Bool) :
    Arbiter.after ⟨l.pending, handling⟩ event = ⟨(l.apply s).pending, handling⟩ := by
  cases s with
  | go | stop | step | cancel | resetCancel => cases h
  | nmi | irq | clear =>
    cases h
    refine Arbiter.ext (funext fun kind => ?_) rfl
    cases kind <;> rfl

theorem Arbiter.allows_lineEvent {s : Signal} {event : LineEvent} (h : s.lineEvent? = some event)
    (arbiter : Arbiter) : arbiter.Allows event := by
  cases s <;> cases h <;> trivial

theorem Lines.apply_of_lineEvent_none {s : Signal} (h : s.lineEvent? = none) (l : Lines) :
    l.apply s = l := by
  cases s with
  | nmi | irq | clear => cases h
  | go | stop | step | cancel | resetCancel => rfl

theorem Lines.arbiter_run (ss : List Signal) (l : Lines) (handling : Bool) :
    Arbiter.Run ⟨l.pending, handling⟩ (lineEvents ss)
      ⟨(ss.foldl Lines.apply l).pending, handling⟩ := by
  induction ss generalizing l with
  | nil => exact .nil _
  | cons s ss ih =>
    cases hevent : s.lineEvent? with
    | none =>
      simp only [lineEvents, List.filterMap_cons, hevent, List.foldl_cons,
        l.apply_of_lineEvent_none hevent]
      exact ih l
    | some event =>
      simp only [lineEvents, List.filterMap_cons, hevent, List.foldl_cons]
      refine .cons (Arbiter.allows_lineEvent hevent _) ?_
      rw [Arbiter.after_lineEvent hevent]
      exact ih _

theorem Lines.pending_foldl_apply {ss : List Signal} (h : .clear ∉ ss) (l : Lines)
    (kind : Interrupt) :
    (ss.foldl Lines.apply l).pending kind =
      (decide (.requested kind ∈ lineEvents ss) || l.pending kind) :=
  (l.arbiter_run ss false).waiting_eq (entered_not_mem_lineEvents kind ss)
    fun hcleared => h (cleared_mem_lineEvents hcleared)

theorem Lines.acknowledge_pending (l : Lines) (kind other : Interrupt) :
    (l.acknowledge kind).pending other = (other != kind && l.pending other) := by
  cases kind <;> cases other <;> rfl

namespace Cpu

variable [Bus β]

def atReturn (c : Cpu β) : Bool :=
  (Opcode.decode (Bus.read c.bus c.pc)).any fun op => op.mnemonic == .rti

theorem act_servicing (c : Cpu β) (mode : Mode) (address : Word) (operand : Byte)
    (mnemonic : Mnemonic) :
    (c.act mode address operand mnemonic).servicing =
      if mnemonic = .rti then false else c.servicing := by
  cases mnemonic <;> simp [act]

theorem executeNext_servicing (c : Cpu β) :
    c.executeNext.servicing = if c.atReturn then false else c.servicing := by
  cases h : Opcode.decode (Bus.read c.bus c.pc) with
  | none => simp [executeNext_of_undocumented c h, atReturn, h]
  | some op => simp [executeNext_of_decode c h, atReturn, h, execute, act_servicing]

@[simp] theorem enter_servicing (c : Cpu β) (kind : Interrupt) :
    (c.enter kind).servicing = true := by
  cases kind <;> rfl

end Cpu

namespace Machine

def arbiter (m : Machine β) : Arbiter :=
  ⟨m.lines.pending, m.cpu.servicing⟩

/-- Whether an interrupt may be entered at a boundary. -/
def Eligible (m : Machine β) : Interrupt → Prop
  | .nmi => m.lines.nmi = true ∧ m.cpu.servicing = false
  | .irq => m.lines.irq = true ∧ m.lines.nmi = false ∧
      m.cpu.status.has .interruptDisable = false ∧ m.cpu.servicing = false

theorem perform_run (m : Machine β) {operation : Cpu β → Cpu β}
    (h : (operation m.cpu).servicing = m.cpu.servicing) :
    Arbiter.Run m.arbiter (lineEvents (m.calls operation)) (m.perform operation).arbiter := by
  have hrun := m.lines.arbiter_run (m.calls operation) m.cpu.servicing
  rw [← perform_pending, ← h] at hrun
  simpa only [arbiter, perform_fields, h] using hrun

theorem reportPc_run (m : Machine β) :
    Arbiter.Run m.arbiter (lineEvents (m.calls Cpu.reportPc)) (m.perform Cpu.reportPc).arbiter :=
  m.perform_run (by simp)

theorem signals_run (m : Machine β) (ss : List Signal) :
    Arbiter.Run m.arbiter (lineEvents ss) (m.signals ss).arbiter := by
  simpa only [arbiter, signals_fields] using m.lines.arbiter_run ss m.cpu.servicing

theorem accepted_eq_some_iff (m : Machine β) (kind : Interrupt) :
    m.accepted = some kind ↔ m.Eligible kind := by
  rw [accepted, Lines.accepted]
  cases kind <;> grind [Eligible]

theorem accepted_of_servicing {m : Machine β} (h : m.cpu.servicing = true) : m.accepted = none := by
  rw [accepted, Lines.accepted, h, if_pos rfl]

theorem accepted_of_idle {m : Machine β} (h : ∀ kind, m.lines.pending kind = false) :
    m.accepted = none := by
  have hnmi : m.lines.nmi = false := h .nmi
  have hirq : m.lines.irq = false := h .irq
  simp [accepted, Lines.accepted, hnmi, hirq]

theorem accepted_allows {m : Machine β} {kind : Interrupt} (h : m.accepted = some kind) :
    m.arbiter.Allows (.entered kind) := by
  have heligible := (m.accepted_eq_some_iff kind).mp h
  cases kind with
  | nmi => exact heligible
  | irq => exact ⟨heligible.1, heligible.2.2.2⟩

variable [Bus β]

def entryEvents (m : Machine β) (kind : Interrupt) : List LineEvent :=
  .entered kind :: lineEvents (m.calls fun c => c.enter kind)

def instructionEvents (m : Machine β) : List LineEvent :=
  lineEvents (m.calls Cpu.executeNext) ++ if m.cpu.atReturn then [.returned] else []

def stepEvents (m : Machine β) : List LineEvent :=
  match m.accepted with
  | some kind => m.entryEvents kind ++ lineEvents ((m.enter kind).calls Cpu.reportPc)
  | none =>
    m.instructionEvents ++ lineEvents ((m.perform Cpu.executeNext).calls Cpu.reportPc)

theorem enter_run {m : Machine β} {kind : Interrupt} (h : m.accepted = some kind) :
    Arbiter.Run m.arbiter (m.entryEvents kind) (m.enter kind).arbiter := by
  have hcalls := (m.lines.acknowledge kind).arbiter_run (m.calls fun c => c.enter kind) true
  have hpending :=
    perform_pending { m with lines := m.lines.acknowledge kind } fun c => c.enter kind
  refine .cons (accepted_allows h) ?_
  have hafter : m.arbiter.after (.entered kind) = ⟨(m.lines.acknowledge kind).pending, true⟩ :=
    Arbiter.ext (funext fun other => (m.lines.acknowledge_pending kind other).symm) rfl
  have harbiter : (m.enter kind).arbiter =
      ⟨((m.calls fun c => c.enter kind).foldl Lines.apply (m.lines.acknowledge kind)).pending,
        true⟩ := by
    refine Arbiter.ext hpending ?_
    simp [arbiter, enter]
  rw [hafter, harbiter]
  exact hcalls

theorem executeNext_run (m : Machine β) :
    Arbiter.Run m.arbiter m.instructionEvents (m.perform Cpu.executeNext).arbiter := by
  have hcalls := m.lines.arbiter_run (m.calls Cpu.executeNext) m.cpu.servicing
  rw [← perform_pending] at hcalls
  refine hcalls.append ?_
  have hservicing : (m.perform Cpu.executeNext).cpu.servicing =
      if m.cpu.atReturn then false else m.cpu.servicing := by
    simp [m.cpu.executeNext_servicing]
  rw [arbiter, hservicing]
  cases m.cpu.atReturn with
  | true => exact .cons trivial (.nil _)
  | false => exact .nil _

theorem step_run (m : Machine β) : Arbiter.Run m.arbiter m.stepEvents m.step.arbiter := by
  rw [stepEvents, step]
  cases h : m.accepted with
  | none => exact m.executeNext_run.append (reportPc_run _)
  | some kind => exact (enter_run h).append (reportPc_run _)

end Machine

end Nmos6502
