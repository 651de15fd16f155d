import Nmos6502.Proofs.Run.Bisimulation
import Nmos6502.Proofs.Writes

namespace Nmos6502

universe u

variable {β : Type u} [Bus β]

/-- Some writes lead from one bus to the other. -/
def Bus.Written (before after : β) : Prop :=
  ∃ writes, after = Bus.replay before writes

namespace Bus.Written

variable {first second third : β}

theorem refl (bus : β) : Written bus bus :=
  ⟨[], rfl⟩

theorem trans (h : Written first second) (h' : Written second third) : Written first third := by
  obtain ⟨writes, rfl⟩ := h
  obtain ⟨writes', rfl⟩ := h'
  exact ⟨writes ++ writes', List.foldl_append.symm⟩

theorem write (bus : β) (address : Word) (value : Byte) :
    Written bus (Bus.write bus address value) :=
  ⟨[(address, value)], rfl⟩

theorem of_eq (h : second = first) : Written first second :=
  h ▸ refl first

theorem keeps {P : β → Prop} (hP : ∀ bus address value, P bus → P (Bus.write bus address value))
    (h : Written first second) (hfirst : P first) : P second := by
  obtain ⟨writes, rfl⟩ := h
  induction writes generalizing first with
  | nil => exact hfirst
  | cons entry writes ih => exact ih (hP first entry.1 entry.2 hfirst)

end Bus.Written

namespace Cpu

theorem executeNext_written (c : Cpu β) : Bus.Written c.bus c.executeNext.bus :=
  ⟨_, c.executeNext_bus⟩

theorem enter_written (c : Cpu β) (kind : Interrupt) : Bus.Written c.bus (c.enter kind).bus :=
  ⟨_, c.enter_bus kind⟩

omit [Bus β] in
theorem setFlags_bus (c : Cpu β) (mask : Byte) (on : Bool) : (c.setFlags mask on).bus = c.bus := by
  rw [setFlags]
  split <;> simp

omit [Bus β] in
theorem setRegister_bus (c : Cpu β) (register : Register) (value : Int) :
    (c.setRegister register value).bus = c.bus := by
  cases register <;> simp [setRegister, setPc]

theorem reset_bus (c : Cpu β) : c.reset.bus = c.bus := by
  simp [reset, setPc]

end Cpu

theorem Task.written (task : Task) (c : Cpu β) : Bus.Written c.bus (task.run c).bus := by
  cases task with
  | executeNext => exact c.executeNext_written
  | enter kind => exact c.enter_written kind
  | reportPc | resume => exact .of_eq (by simp [run])
  | set register value => exact .of_eq (c.setRegister_bus register value)
  | store address value => exact .write c.bus address value
  | reset => exact .of_eq c.reset_bus

namespace Machine

theorem invariant_written (before : β) :
    Invariant fun m : Machine β => Bus.Written before m.cpu.bus where
  perform h task := by
    rw [(perform_fields _ task.run).1]
    exact h.trans (task.written _)
  signal h _ := h
  acknowledge h _ := h
  setGate h _ := h
  setHalt h _ := h
  setBreakpoints h _ := h
  setResumePc h _ := h

theorem poke_written (m : Machine β) (address : Word) (values : List Byte) :
    Bus.Written m.cpu.bus (m.poke address values).cpu.bus :=
  (invariant_written m.cpu.bus).poke (.refl _) address values

theorem obey_written (m : Machine β) (command : Command) :
    Bus.Written m.cpu.bus (m.obey command).cpu.bus :=
  (invariant_written m.cpu.bus).obey (.refl _) command

theorem obeyAll_written (commands : List Command) (m : Machine β) :
    Bus.Written m.cpu.bus (m.obeyAll commands).cpu.bus := by
  induction commands generalizing m with
  | nil => exact .refl _
  | cons command commands ih => exact (m.obey_written command).trans (ih _)

end Machine

end Nmos6502
