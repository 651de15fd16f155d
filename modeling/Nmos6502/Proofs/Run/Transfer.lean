import Nmos6502.Proofs.Machine.Transfer
import Nmos6502.Proofs.Run.Bisimulation

namespace Nmos6502

universe u v

variable {β : Type u} {γ : Type v}

namespace Cpu

variable (c : Cpu β) (f : β → γ)

theorem transfer_setPc (value : Word) : (c.transfer f c.reportedPc).setPc value =
    (c.setPc value).transfer f (c.setPc value).reportedPc :=
  transfer_reportPc { c with pc := value } f

theorem transfer_setRegister (register : Register) (value : Int) :
    (c.transfer f c.reportedPc).setRegister register value =
      (c.setRegister register value).transfer f (c.setRegister register value).reportedPc := by
  cases register with
  | pc => exact c.transfer_setPc f _
  | a | x | y | sp => simp [setRegister, setA, setX, setY, setSp, transfer_assign]
  | status => simp [setRegister, transfer_setStatus]
  | flag flag => simp [setRegister, transfer_setFlag]

theorem transfer_reset [Bus β] [Bus γ] {f : β → γ} (hf : Bus.Faithful f) (c : Cpu β) :
    (c.transfer f c.reportedPc).reset = c.reset.transfer f c.reset.reportedPc := by
  have hclear : ∀ d : Cpu β, d.reportedPc = c.reportedPc →
      (d.transfer f c.reportedPc).setPc (Bus.readWord (f d.bus) resetVector) =
        (d.setPc (Bus.readWord d.bus resetVector)).transfer f
          (d.setPc (Bus.readWord d.bus resetVector)).reportedPc := by
    intro d hd
    rw [← hd, transfer_setPc]
    simp only [Bus.readWord, hf.read]
  simp only [reset, setA, setX, setY, setSp, transfer_assign, transfer_setStatus,
    transfer_setFlag, transfer_fields]
  rw [hclear _ (by simp)]
  rfl

end Cpu

namespace Machine

theorem transfer_setRegister (m : Machine β) (f : β → γ) (register : Register) (value : Int) :
    (m.transfer f).setRegister register value = (m.setRegister register value).transfer f :=
  m.transfer_perform (m.cpu.transfer_setRegister f register value)

theorem transfer_requestIrqAndEnable (m : Machine β) (f : β → γ) :
    (m.transfer f).requestIrqAndEnable =
      (m.requestIrqAndEnable.1.transfer f, m.requestIrqAndEnable.2) := by
  have henabled := transfer_setRegister { m with lines := m.lines.request .irq } f
    (.flag .interruptDisable) 0
  exact congrArg (fun enabled => (enabled, !enabled.lines.masked)) henabled

theorem transfer_setFlags (m : Machine β) (f : β → γ) (mask : Byte) (on : Bool) :
    (m.transfer f).perform (fun c => c.setFlags mask on) =
      (m.perform fun c => c.setFlags mask on).transfer f := by
  have hreported : (m.cpu.setFlags mask on).reportedPc = m.cpu.reportedPc := by
    rw [Cpu.setFlags]
    split <;> simp
  exact m.transfer_perform_of_reportedPc hreported
    (m.cpu.transfer_setFlags f m.cpu.reportedPc mask on)

variable [Bus β] [Bus γ] {f : β → γ}

theorem transfer_powerOn (hf : Bus.Faithful f) (bus : β) :
    powerOn (f bus) = (powerOn bus).transfer f := by
  simp only [powerOn, transfer, Cpu.powerOn, Cpu.transfer, Bus.readWord, hf.read]

theorem bisimulation_transfer (hf : Bus.Faithful f) :
    Bisimulation fun (m : Machine β) (m' : Machine γ) => m' = m.transfer f where
  alike := by
    rintro m _ rfl
    have hsnapshot : (m.transfer f).snapshot = m.snapshot := by
      simp only [snapshot, snapshotAt, transfer, Cpu.transfer_fields, hf.read]
      congr 1
      funext address
      exact hf.read m.cpu.bus address
    exact ⟨rfl, rfl, rfl, rfl, rfl, hsnapshot, rfl, rfl⟩
  perform := by
    rintro m _ rfl task
    cases task with
    | executeNext => exact m.transfer_execute hf
    | enter kind =>
      exact m.transfer_perform_of_reportedPc (m.cpu.enter_reportedPc kind)
        (m.cpu.transfer_enter hf m.cpu.reportedPc kind)
    | reportPc => exact m.transfer_report f
    | resume =>
      exact m.transfer_perform_of_reportedPc (by simp [Task.run])
        (Cpu.transfer_setFlag { m.cpu with halt := none } f m.cpu.reportedPc .brk false)
    | set register value => exact m.transfer_setRegister f register value
    | store address value =>
      exact m.transfer_perform (m.cpu.transfer_store hf m.cpu.reportedPc address value)
    | reset => exact m.transfer_perform (m.cpu.transfer_reset hf)
  signal := by
    rintro m _ rfl s
    rfl
  acknowledge := by
    rintro m _ rfl kind
    rfl
  setGate := by
    rintro m _ rfl gate
    rfl
  setHalt := by
    rintro m _ rfl halt
    rfl
  setBreakpoints := by
    rintro m _ rfl breakpoints
    rfl
  setResumePc := by
    rintro m _ rfl resumePc
    rfl

theorem transfer_poke (hf : Bus.Faithful f) (m : Machine β) (address : Word)
    (values : List Byte) :
    (m.transfer f).poke address values = (m.poke address values).transfer f :=
  (bisimulation_transfer hf).poke rfl address values

theorem transfer_obey (hf : Bus.Faithful f) (m : Machine β) (command : Command) :
    (m.transfer f).obey command = (m.obey command).transfer f :=
  (bisimulation_transfer hf).obey rfl command

end Machine

namespace Engine

def transfer (e : Engine β) (f : β → γ) : Engine γ where
  machine := e.machine.transfer f
  options := e.options
  elapsed := e.elapsed
  asleepUntil := e.asleepUntil
  phase := e.phase

variable [Bus β] [Bus γ] {f : β → γ}

theorem transfer_run (hf : Bus.Faithful f) (m : Machine β) (options : RunOptions)
    (schedule : List Occurrence) : (start (m.transfer f) options).through schedule =
      ((start m options).through schedule).transfer f := by
  have hR := Machine.bisimulation_transfer hf
  obtain ⟨m', rfl, hrun⟩ := (Together.start hR (m := m) rfl options).through hR schedule
  exact hrun

end Engine

end Nmos6502
