import Nmos6502.Machine.Setup
import Nmos6502.Proofs.Cpu.Frame
import Nmos6502.Proofs.Interrupt.History

namespace Nmos6502

universe u

/-- The register file, with the status as a byte that shows bit 5. -/
@[ext] structure Registers where
  a : Byte
  x : Byte
  y : Byte
  sp : Byte
  pc : Word
  status : Byte
  deriving DecidableEq, Repr

def Cpu.registers {β : Type u} (c : Cpu β) : Registers where
  a := c.a
  x := c.x
  y := c.y
  sp := c.sp
  pc := c.pc
  status := c.status.packed

namespace Machine

/-- What a step of `m` has entered stands before an `RTI` in `last`, with its frame in place. -/
structure AboutToReturn (m last : Machine FlatMemory) : Prop where
  servicing : last.cpu.servicing = true
  atReturn : last.cpu.atReturn = true
  sp : last.cpu.sp = m.step.cpu.sp
  frame : ∀ n < 3, Bus.read last.cpu.bus (m.cpu.slotAfter n) =
    Bus.read m.step.cpu.bus (m.cpu.slotAfter n)

/-- A step of `last` takes the entry at `m` back. -/
structure Resumes (m last : Machine FlatMemory) : Prop where
  pc : last.step.cpu.pc = m.cpu.pc
  sp : last.step.cpu.sp = m.cpu.sp
  flags : ∀ flag ∈ [Flag.negative, .overflow, .decimal, .zero, .carry],
    last.step.cpu.status.has flag = m.cpu.status.has flag
  interruptDisable : last.step.cpu.status.has .interruptDisable = false
  brk : last.step.cpu.status.has .brk = last.cpu.status.has .brk
  servicing : last.step.cpu.servicing = false
  /-- The stack is in order. -/
  halt : last.step.cpu.halt = last.cpu.halt
  others : last.step.cpu.a = last.cpu.a ∧ last.step.cpu.x = last.cpu.x ∧
    last.step.cpu.y = last.cpu.y ∧ last.step.cpu.bus = last.cpu.bus

/-- What a frame does not hold is in `last` as it is in `m`. -/
structure Keeps (m last : Machine FlatMemory) : Prop where
  a : last.cpu.a = m.cpu.a
  x : last.cpu.x = m.cpu.x
  y : last.cpu.y = m.cpu.y
  brk : last.cpu.status.has .brk = m.cpu.status.has .brk

variable {m last : Machine FlatMemory} {kind : Interrupt}

theorem AboutToReturn.resumes (h : AboutToReturn m last) (haccepted : m.accepted = some kind)
    (hroom : 3 ≤ m.cpu.sp.toNat) : Resumes m last := by
  have hentered : m.step.cpu.sp = (m.cpu.enter kind).sp ∧
      m.step.cpu.bus = (m.cpu.enter kind).bus := by
    rw [step_cpu, boundary_of_accepted haccepted]
    exact ⟨rfl, rfl⟩
  obtain ⟨hsp, hbus⟩ := hentered
  have hstep := last.step_cpu
  rw [boundary_of_accepted_none (accepted_of_servicing h.servicing)] at hstep
  obtain ⟨hpc, hsp', hhalt, hflags⟩ := Cpu.executeNext_of_frame hroom h.atReturn
    (h.sp.trans hsp) (fun n hn => (h.frame n hn).trans (by rw [hbus]))
  obtain ⟨ha, hx, hy, hbus', hservicing⟩ := Cpu.executeNext_fields_of_atReturn h.atReturn
  constructor
  · rw [hstep]
    exact hpc
  · rw [hstep]
    exact hsp'
  · intro flag hflag
    rw [hstep]
    refine (hflags flag).trans ?_
    have hloaded : flag ≠ .interruptDisable ∧ flag ∈ Cpu.loadedFlags := by
      revert flag
      decide
    rw [if_neg hloaded.1, if_pos hloaded.2]
  · rw [hstep]
    exact hflags .interruptDisable
  · rw [hstep]
    exact hflags .brk
  · rw [hstep]
    exact hservicing
  · rw [hstep]
    exact hhalt
  · rw [hstep]
    exact ⟨ha, hx, hy, hbus'⟩

theorem Resumes.registers (h : Resumes m last) (hkeeps : Keeps m last) :
    last.step.cpu.registers = { m.cpu.registers with
      status := (m.cpu.status.assign Flag.interruptDisable.mask false).packed } := by
  obtain ⟨ha, hx, hy, -⟩ := h.others
  refine Registers.ext (ha.trans hkeeps.a) (hx.trans hkeeps.x) (hy.trans hkeeps.y) h.sp h.pc ?_
  refine Status.packed_congr fun flag hunused => ?_
  rw [Status.has_assign]
  cases flag with
  | unused => exact absurd rfl hunused
  | interruptDisable => exact h.interruptDisable
  | brk => exact h.brk.trans hkeeps.brk
  | negative | overflow | decimal | zero | carry => exact h.flags _ (by decide)

theorem assign_interruptDisable_of_irq (h : m.accepted = some .irq) :
    m.cpu.status.assign Flag.interruptDisable.mask false = m.cpu.status := by
  have hclear : m.cpu.status.has .interruptDisable = false :=
    ((m.accepted_eq_some_iff .irq).mp h).2.2.1
  -- A maskable interrupt was accepted, so Interrupt Disable was clear.
  rw [← hclear]
  exact m.cpu.status.assign_has .interruptDisable

end Machine

/-- Nothing is entered from the entry of a handler until it returns, and if it returns with its
frame in place then the program goes on as if it had not been interrupted. The handler is any
history: steps and runs, with requests in between. -/
theorem handler_returns (m : Machine FlatMemory) (kind : Interrupt)
    (haccepted : m.accepted = some kind) (hroom : 3 ≤ m.cpu.sp.toNat) (handler : List Deed) :
    let last := m.step.after handler
    (∀ before other later, m.step.historyEvents handler = before ++ .entered other :: later →
        .returned ∈ before) ∧
      (.returned ∉ m.step.historyEvents handler →
        last.cpu.servicing = true ∧ last.accepted = none) ∧
      (m.AboutToReturn last → m.Resumes last ∧
        (m.Keeps last →
          last.step.cpu.registers = { m.cpu.registers with
            status := (m.cpu.status.assign Flag.interruptDisable.mask false).packed } ∧
          (kind = .irq → last.step.cpu.registers = m.cpu.registers))) := by
  intro last
  have hservicing : m.step.cpu.servicing = true := by
    rw [Machine.step_cpu, Machine.boundary_of_accepted haccepted]
    exact m.cpu.enter_servicing kind
  refine ⟨?_, ?_, ?_⟩
  · intro before other later hevents
    have hrun := m.step.after_run handler
    rw [hevents] at hrun
    exact hrun.returned_before hservicing
  · intro hreturned
    have hlast : last.cpu.servicing = true :=
      (m.step.after_run handler).handling hservicing hreturned
    exact ⟨hlast, Machine.accepted_of_servicing hlast⟩
  · intro habout
    have hresumes := habout.resumes haccepted hroom
    refine ⟨hresumes, fun hkeeps => ?_⟩
    have hregisters := hresumes.registers hkeeps
    refine ⟨hregisters, ?_⟩
    rintro rfl
    rw [hregisters, Machine.assign_interruptDisable_of_irq haccepted]
    rfl

/-- A program at $1234 with the carry set and room for one frame, interrupted by a handler at $0000
that clears Interrupt Disable and the carry and returns. -/
def clearingHandler : Machine FlatMemory :=
  let m := Machine.powerOn (Bus.writeAll .zeroed 0x0000 [0x58, 0x18, 0x40])
  let m := (m.setRegister .pc 0x1234).setRegister .sp 3
  let m := (m.setRegister (.flag .interruptDisable) 0).setRegister (.flag .carry) 1
  m.signal .irq

/-- A request that arrives in the handler waits for its return. -/
theorem handler_returns_clearingHandler :
    let last := clearingHandler.step.after [.step, .act .nmi, .step]
    last.cpu.status.has .carry = false ∧ last.accepted = none ∧
      last.step.cpu.registers = clearingHandler.cpu.registers ∧
      last.step.accepted = some .nmi := by
  intro last
  obtain ⟨-, hnone, hreturns⟩ := handler_returns clearingHandler .irq (by decide +kernel)
    (by decide +kernel) [.step, .act .nmi, .step]
  have habout : clearingHandler.AboutToReturn last :=
    ⟨by decide +kernel, by decide +kernel, by decide +kernel, by decide +kernel⟩
  have hkeeps : clearingHandler.Keeps last :=
    ⟨by decide +kernel, by decide +kernel, by decide +kernel, by decide +kernel⟩
  exact ⟨by decide +kernel, (hnone (by decide +kernel)).2,
    ((hreturns habout).2 hkeeps).2 rfl, by decide +kernel⟩

end Nmos6502
