import Nmos6502.Machine.Setup
import Nmos6502.Proofs.Cpu.Stable

namespace Nmos6502

universe u

variable {β : Type u} [Bus β]

/-- What a machine has its processor do, one log at a time. -/
inductive Task where
  | executeNext
  | enter (kind : Interrupt)
  | reportPc
  /-- Takes the Break flag and the reason of an earlier halt back. -/
  | resume
  | set (register : Register) (value : Int)
  | store (address : Word) (value : Byte)
  | reset

def Task.run : Task → Cpu β → Cpu β
  | executeNext, c => c.executeNext
  | enter kind, c => c.enter kind
  | reportPc, c => c.reportPc
  | resume, c => { c with halt := none }.setFlag .brk false
  | set register value, c => c.setRegister register value
  | store address value, c => c.store address value
  | reset, c => c.reset

namespace Cpu

/-- The primitive operations keep `P`, and it has nothing to do with halts. -/
structure Steady (P : Cpu β → Prop) : Prop where
  assign : ∀ c what (value : Byte), what ≠ .pc → (∀ mask, what ≠ .flag mask) → P c →
    P (c.assign what (Byte.toWord value))
  setFlag : ∀ c flag on, P c → P (c.setFlag flag on)
  halt : ∀ c halt, P c → P { c with halt := halt }
  reportPc : ∀ c, P c → P c.reportPc
  store : ∀ c address value, P c → P (c.store address value)
  pc : ∀ c target, P c → P { c with pc := target }
  servicing : ∀ c on, P c → P { c with servicing := on }
  counters : ∀ c fetched undocumented,
    P c → P { c with fetched := fetched, undocumented := undocumented }

namespace Steady

variable {P : Cpu β → Prop} {c : Cpu β}

theorem stable (h : Steady P) : Stable P where
  assign := h.assign
  setFlag c flag on _ hc := h.setFlag c flag on hc
  stop c _ hc := h.setFlag _ .brk true (h.halt c _ hc)
  store := h.store
  pc := h.pc
  servicing := h.servicing
  counters := h.counters

theorem setPc (h : Steady P) (value : Word) (hc : P c) : P (c.setPc value) :=
  h.reportPc _ (h.pc c value hc)

theorem setRegister (h : Steady P) (register : Register) (value : Int) (hc : P c) :
    P (c.setRegister register value) := by
  cases register with
  | a => exact h.stable.setA _ hc
  | x => exact h.stable.setX _ hc
  | y => exact h.stable.setY _ hc
  | sp => exact h.stable.setSp _ hc
  | pc => exact h.setPc _ hc
  | status => exact h.stable.setStatus _ hc
  | flag flag => exact h.setFlag c flag _ hc

theorem reset (h : Steady P) (hc : P c) : P c.reset := by
  have hregisters : P ((((c.setA 0).setX 0).setY 0).setSp 0xFF) :=
    h.stable.setSp _ (h.stable.setY _ (h.stable.setX _ (h.stable.setA _ hc)))
  have hstatus := h.setFlag _ .brk false (h.stable.setStatus Status.reset.bits hregisters)
  exact h.counters _ 0 0 (h.halt _ none (h.servicing _ false (h.setPc _ hstatus)))

theorem run (h : Steady P) (task : Task) (hc : P c) : P (task.run c) := by
  cases task with
  | executeNext => exact h.stable.executeNext hc
  | enter kind => exact h.stable.enter kind hc
  | reportPc => exact h.reportPc c hc
  | resume => exact h.setFlag _ .brk false (h.halt c none hc)
  | set register value => exact h.setRegister register value hc
  | store address value => exact h.store c address value hc
  | reset => exact h.reset hc

end Steady

end Cpu

end Nmos6502
