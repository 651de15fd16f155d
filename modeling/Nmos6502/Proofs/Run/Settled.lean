import Nmos6502.Machine.Setup
import Nmos6502.Proofs.Machine.Step
import Nmos6502.Proofs.Run.Schedule

namespace Nmos6502

universe u

variable {β : Type u}

namespace Machine

def Settled (m : Machine β) : Prop :=
  m.cpu.reportedPc = m.cpu.pc

theorem Settled.congr {m m' : Machine β} (h : m.Settled) (hcpu : m'.cpu = m.cpu) : m'.Settled := by
  rw [Settled, hcpu]
  exact h

theorem settled_perform {m : Machine β} {operation : Cpu β → Cpu β}
    (h : (operation m.cpu).reportedPc = (operation m.cpu).pc) : (m.perform operation).Settled := by
  simpa [Settled] using h

theorem settled_reportPc (m : Machine β) : (m.perform Cpu.reportPc).Settled :=
  settled_perform (by simp)

theorem perform_reportPc_of_settled {m : Machine β} (h : m.Settled) (hlog : m.cpu.log = []) :
    m.perform Cpu.reportPc = m := by
  have hpc : m.cpu.pc = m.cpu.reportedPc := Eq.symm h
  have hsame : { m.cpu with log := [] } = m.cpu := by rw [← hlog]
  rw [perform, Cpu.reportPc, if_pos hpc, hlog, hsame]
  rfl

theorem settled_setRegister {m : Machine β} (h : m.Settled) (register : Register) (value : Int) :
    (m.setRegister register value).Settled := by
  have hpc : m.cpu.reportedPc = m.cpu.pc := h
  refine settled_perform ?_
  cases register <;> simp [Cpu.setRegister, Cpu.setPc, hpc]

variable [Bus β]

theorem settled_powerOn (bus : β) : (powerOn bus).Settled :=
  rfl

theorem settled_step (m : Machine β) : m.step.Settled :=
  settled_reportPc _

theorem settled_reset (m : Machine β) : m.reset.Settled := by
  have hreset : (m.cpu.reset).reportedPc = (m.cpu.reset).pc := by
    simp [Cpu.reset, Cpu.setPc]
  exact (settled_perform hreset).congr rfl

theorem settled_poke {m : Machine β} (h : m.Settled) (address : Word) (values : List Byte) :
    (m.poke address values).Settled := by
  induction values generalizing m address with
  | nil => exact h
  | cons value values ih =>
    refine ih (settled_perform ?_) _
    have hpc : m.cpu.reportedPc = m.cpu.pc := h
    simpa [Cpu.store, Bus.store] using hpc

end Machine

namespace Engine

/-- A run is about to end its iteration, or its program counter is recorded. -/
def Settled (e : Engine β) : Prop :=
  e.phase = .settle ∨ e.machine.Settled

theorem askGate_settled {e : Engine β} (h : e.machine.Settled) (closed : Phase) :
    (e.askGate closed).Settled := by
  rw [askGate]
  split <;> exact .inr h

theorem start_settled {m : Machine β} (h : m.Settled) (options : RunOptions) :
    (start m options).Settled := by
  refine .inr (Machine.settled_perform ?_)
  have hpc : m.cpu.reportedPc = m.cpu.pc := h
  simpa using hpc

theorem settleMove_settled (e : Engine β) : e.settleMove.Settled := by
  have hmachine := e.machine.settled_reportPc
  rw [settleMove]
  dsimp only
  split
  · exact .inr hmachine
  · exact .inr hmachine

variable [Bus β]

theorem watchMove_settled {e : Engine β} (h : e.machine.Settled) : e.watchMove.Settled := by
  have hmachine : e.machine.consult.1.Settled := h.congr e.machine.consult_fields.1
  rw [watchMove]
  rcases hpair : e.machine.consult with ⟨m, hit⟩
  rw [hpair] at hmachine
  cases hit with
  | none => exact .inr hmachine
  | some hit => exact .inr hmachine

theorem pollMove_settled {e : Engine β} (h : e.machine.Settled) : e.pollMove.Settled := by
  rw [pollMove]
  split
  · exact .inl rfl
  · split
    · exact .inl rfl
    · exact .inr h

theorem move_settled {e : Engine β} (h : e.Settled) : e.move.Settled := by
  have hmachine : e.phase ≠ .settle → e.machine.Settled := h.resolve_left
  rw [move]
  cases hphase : e.phase with
  | settle => exact e.settleMove_settled
  | fetch => exact .inl rfl
  | notifying hit => exact .inl rfl
  | poll => exact pollMove_settled (hmachine (by simp [hphase]))
  | watch => exact watchMove_settled (hmachine (by simp [hphase]))
  | gate => exact askGate_settled (hmachine (by simp [hphase])) _
  | boundary | pausing _ | announcing _ | parked _ | finished _ =>
    exact .inr (hmachine (by simp [hphase]))

theorem meet_settled {e : Engine β} (h : e.Settled) (o : Occurrence) : (e.meet o).Settled := by
  cases o with
  | move => exact move_settled (e := { e with elapsed := e.elapsed + 1 }) h
  | act s => exact h
  | pass time => exact h
  | wake =>
    change e.wake.Settled
    rw [wake]
    split
    case h_2 => exact h
    case h_1 hphase => exact askGate_settled (h.resolve_left (by simp [hphase])) _
  | expire =>
    change e.expire.Settled
    rw [expire]
    split
    case h_2 => exact h
    case h_1 allowance hphase =>
      have hmachine : e.machine.Settled := h.resolve_left (by simp [hphase])
      exact askGate_settled (e := { e with elapsed := e.elapsed + allowance }) hmachine _

theorem through_settled {e : Engine β} (h : e.Settled) (schedule : List Occurrence) :
    (e.through schedule).Settled := by
  induction schedule generalizing e with
  | nil => exact h
  | cons o schedule ih => exact ih (meet_settled h o)

end Engine

/-- A run that is over leaves the program counter recorded. -/
theorem Machine.settled_run [Bus β] {m m' : Machine β} (h : m.Settled) {options : RunOptions}
    {controller : Option Controller} {fuel : Nat} {result : Except Stall Outcome}
    (hrun : m.run options controller fuel = some (m', result)) : m'.Settled := by
  obtain ⟨schedule, hphase, rfl⟩ := Machine.run_eq_through hrun
  have hsettled := Engine.through_settled (Engine.start_settled h options) schedule
  exact hsettled.resolve_left (by simp [hphase])

end Nmos6502
