import Nmos6502.Machine.Basic
import Nmos6502.Proofs.Cpu.Transfer

namespace Nmos6502.Machine

universe u v

variable {β : Type u} {γ : Type v}

def transfer (m : Machine β) (f : β → γ) : Machine γ where
  cpu := m.cpu.transfer f m.cpu.reportedPc
  lines := m.lines
  gate := m.gate
  observer := m.observer
  trace := m.trace
  breakpoints := m.breakpoints
  resumePc := m.resumePc

theorem transfer_signals (m : Machine β) (f : β → γ) (ss : List Signal) :
    (m.transfer f).signals ss = (m.signals ss).transfer f := by
  induction ss generalizing m with
  | nil => rfl
  | cons s ss ih => exact ih (m.signal s)

theorem transfer_reveal (m : Machine β) (f : β → γ) (change : Change) :
    (m.transfer f).reveal change = (m.reveal change).transfer f := by
  obtain ⟨cpu, lines, gate, observer, trace, breakpoints, resumePc⟩ := m
  cases observer with
  | none => rfl
  | some observer =>
    exact transfer_signals
      ⟨cpu, lines, gate, some observer, trace.push change, breakpoints, resumePc⟩ f _

theorem transfer_notice (m : Machine β) (f : β → γ) (entry : Happening) :
    (m.transfer f).notice entry = (m.notice entry).transfer f := by
  cases entry with
  | stored entry => exact m.transfer_signals f ..
  | changed change =>
    have htell : (m.transfer f).tellLines change = (m.tellLines change).transfer f := by
      unfold tellLines
      split <;> rfl
    simp only [notice, htell, transfer_reveal]

theorem transfer_foldl_notice (m : Machine β) (f : β → γ) (log : List Happening) :
    log.foldl notice (m.transfer f) = (log.foldl notice m).transfer f := by
  induction log generalizing m with
  | nil => rfl
  | cons entry log ih => rw [List.foldl_cons, transfer_notice, ih, List.foldl_cons]

theorem transfer_perform {f : β → γ} {operation : Cpu β → Cpu β} {operation' : Cpu γ → Cpu γ}
    (m : Machine β)
    (h : operation' (m.transfer f).cpu =
      (operation m.cpu).transfer f (operation m.cpu).reportedPc) :
    (m.transfer f).perform operation' = (m.perform operation).transfer f := by
  simp only [perform, h]
  exact transfer_foldl_notice { m with cpu := { operation m.cpu with log := [] } } f _

theorem transfer_perform_of_reportedPc {f : β → γ} {operation : Cpu β → Cpu β}
    {operation' : Cpu γ → Cpu γ} (m : Machine β)
    (hreported : (operation m.cpu).reportedPc = m.cpu.reportedPc)
    (h : operation' (m.cpu.transfer f m.cpu.reportedPc) =
      (operation m.cpu).transfer f m.cpu.reportedPc) :
    (m.transfer f).perform operation' = (m.perform operation).transfer f := by
  apply m.transfer_perform
  rw [hreported]
  exact h

theorem transfer_report (m : Machine β) (f : β → γ) :
    (m.transfer f).perform Cpu.reportPc = (m.perform Cpu.reportPc).transfer f :=
  m.transfer_perform (m.cpu.transfer_reportPc f)

variable [Bus β] [Bus γ] {f : β → γ}

theorem transfer_enter (hf : Bus.Faithful f) (m : Machine β) (kind : Interrupt) :
    (m.transfer f).enter kind = (m.enter kind).transfer f :=
  transfer_perform_of_reportedPc { m with lines := m.lines.acknowledge kind }
    (m.cpu.enter_reportedPc kind) (m.cpu.transfer_enter hf m.cpu.reportedPc kind)

theorem transfer_execute (hf : Bus.Faithful f) (m : Machine β) :
    (m.transfer f).perform Cpu.executeNext = (m.perform Cpu.executeNext).transfer f :=
  m.transfer_perform_of_reportedPc m.cpu.executeNext_reportedPc
    (m.cpu.transfer_executeNext hf m.cpu.reportedPc)

theorem transfer_step (hf : Bus.Faithful f) (m : Machine β) :
    (m.transfer f).step = (m.step).transfer f := by
  have haccepted : (m.transfer f).accepted = m.accepted := rfl
  simp only [step, haccepted]
  cases m.accepted with
  | none => simp only [transfer_execute hf, transfer_report]
  | some kind => simp only [transfer_enter hf, transfer_report]

end Nmos6502.Machine
