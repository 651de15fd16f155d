import Nmos6502.Proofs.Cpu.Fields
import Nmos6502.Proofs.Machine.Perform

namespace Nmos6502.Machine

universe u

variable {β : Type u}

theorem perform_reportPc_cpu (m : Machine β) :
    (m.perform Cpu.reportPc).cpu = { m.cpu with reportedPc := m.cpu.pc, log := [] } := by
  simp

variable [Bus β]

/-- The processor after the work of a boundary: an interrupt is entered or an instruction runs. -/
def boundary (m : Machine β) : Cpu β :=
  match m.accepted with
  | some kind => m.cpu.enter kind
  | none => m.cpu.executeNext

theorem boundary_of_accepted {m : Machine β} {kind : Interrupt} (h : m.accepted = some kind) :
    m.boundary = m.cpu.enter kind := by
  rw [boundary, h]

theorem boundary_of_accepted_none {m : Machine β} (h : m.accepted = none) :
    m.boundary = m.cpu.executeNext := by
  rw [boundary, h]

theorem step_cpu (m : Machine β) :
    m.step.cpu = { m.boundary with reportedPc := m.boundary.pc, log := [] } := by
  cases h : m.accepted with
  | none => simp [step, h, boundary_of_accepted_none h]
  | some kind => simp [step, h, boundary_of_accepted h, enter]

def consulted (m : Machine β) : List Signal :=
  if m.resumePc = some m.cpu.pc then []
  else (m.breakpoints.bind fun evaluator => (evaluator.ask m.snapshot).1.signal).toList

/-- What the breakpoint evaluator has become when it was asked. -/
def asked (m : Machine β) : Option Evaluator :=
  if m.resumePc = some m.cpu.pc then m.breakpoints
  else m.breakpoints.map fun evaluator => (evaluator.ask m.snapshot).2

theorem asked_eq_ofVerdict_iff {m : Machine β} {verdict : Snapshot → Verdict} :
    m.asked = some (.ofVerdict verdict) ↔ m.breakpoints = some (.ofVerdict verdict) := by
  rw [asked]
  split
  · rfl
  · cases m.breakpoints with
    | none => simp
    | some evaluator => simp [Evaluator.ask_eq_ofVerdict_iff]

@[simp] theorem consult_fields (m : Machine β) :
    m.consult.1.cpu = m.cpu ∧ m.consult.1.lines = m.consulted.foldl Lines.apply m.lines ∧
      m.consult.1.gate = m.consulted.foldl Gate.apply m.gate ∧
      m.consult.1.observer = m.observer ∧ m.consult.1.breakpoints = m.asked := by
  rw [consulted, asked, consult]
  dsimp only
  split
  · simp
  · cases m.breakpoints with
    | none => simp
    | some evaluator =>
      dsimp only [Option.bind_some, Option.map_some]
      split <;> simp

end Nmos6502.Machine
