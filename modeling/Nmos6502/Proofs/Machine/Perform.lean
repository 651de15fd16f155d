import Nmos6502.Machine.Basic

namespace Nmos6502

universe u

variable {β : Type u}

namespace Lines

def pending (l : Lines) : Interrupt → Bool
  | .nmi => l.nmi
  | .irq => l.irq

@[simp] theorem pending_masked (l : Lines) (masked : Bool) (kind : Interrupt) :
    ({ l with masked := masked } : Lines).pending kind = l.pending kind := by
  cases kind <;> rfl

theorem pending_apply_congr {l l' : Lines} (h : l.pending = l'.pending) (s : Signal) :
    (l.apply s).pending = (l'.apply s).pending := by
  have hnmi : l.nmi = l'.nmi := congrFun h .nmi
  have hirq : l.irq = l'.irq := congrFun h .irq
  funext kind
  cases s <;> cases kind <;> simp [apply, request, clear, pending, hnmi, hirq]

theorem pending_foldl_congr (ss : List Signal) {l l' : Lines} (h : l.pending = l'.pending) :
    (ss.foldl apply l).pending = (ss.foldl apply l').pending := by
  induction ss generalizing l l' with
  | nil => exact h
  | cons s ss ih => exact ih (pending_apply_congr h s)

end Lines

namespace Machine

@[simp] theorem signal_fields (m : Machine β) (s : Signal) :
    (m.signal s).cpu = m.cpu ∧ (m.signal s).lines = m.lines.apply s ∧
      (m.signal s).gate = m.gate.apply s ∧ (m.signal s).observer = m.observer ∧
      (m.signal s).trace = m.trace ∧ (m.signal s).breakpoints = m.breakpoints ∧
      (m.signal s).resumePc = m.resumePc := by
  simp [signal]

@[simp] theorem signals_fields (m : Machine β) (ss : List Signal) :
    (m.signals ss).cpu = m.cpu ∧ (m.signals ss).lines = ss.foldl Lines.apply m.lines ∧
      (m.signals ss).gate = ss.foldl Gate.apply m.gate ∧ (m.signals ss).observer = m.observer ∧
      (m.signals ss).trace = m.trace ∧ (m.signals ss).breakpoints = m.breakpoints ∧
      (m.signals ss).resumePc = m.resumePc := by
  induction ss generalizing m with
  | nil => simp [signals]
  | cons s ss ih => simpa [signals] using ih (m.signal s)

/-- What an entry of the log makes observers and devices do. -/
def reactions (m : Machine β) : Happening → List Signal
  | .changed change => (m.observer.map fun o => o.reactions change).getD []
  | .stored entry => entry.signal.toList

@[simp] theorem tellLines_fields (m : Machine β) (change : Change) :
    (m.tellLines change).cpu = m.cpu ∧
      (m.tellLines change).lines.pending = m.lines.pending ∧
      (m.tellLines change).observer = m.observer ∧
      (m.tellLines change).breakpoints = m.breakpoints ∧
      (m.tellLines change).resumePc = m.resumePc := by
  rw [tellLines]
  split <;> simp [funext_iff]

theorem notice_fields (m : Machine β) (entry : Happening) :
    (m.notice entry).cpu = m.cpu ∧ (m.notice entry).observer = m.observer ∧
      (m.notice entry).breakpoints = m.breakpoints ∧ (m.notice entry).resumePc = m.resumePc := by
  cases entry with
  | stored entry => simp [notice]
  | changed change =>
    simp only [notice, reveal]
    split <;> simp

theorem notice_pending (m : Machine β) (entry : Happening) :
    (m.notice entry).lines.pending = ((m.reactions entry).foldl Lines.apply m.lines).pending := by
  cases entry with
  | stored entry => simp [notice, reactions]
  | changed change =>
    simp only [notice, reveal, reactions, tellLines_fields]
    cases hobserver : m.observer with
    | none => simp
    | some observer =>
      simp only [signals_fields, Option.map_some, Option.getD_some]
      exact Lines.pending_foldl_congr _ (by simp)

@[simp] theorem tellLines_gate (m : Machine β) (change : Change) :
    (m.tellLines change).gate = m.gate := by
  rw [tellLines]
  split <;> rfl

theorem notice_gate (m : Machine β) (entry : Happening) :
    (m.notice entry).gate = (m.reactions entry).foldl Gate.apply m.gate := by
  cases entry with
  | stored entry => simp [notice, reactions]
  | changed change =>
    simp only [notice, reveal, reactions, tellLines_fields]
    cases m.observer with
    | none => simp
    | some observer => simp

theorem reactions_notice (m : Machine β) (entry : Happening) :
    (m.notice entry).reactions = m.reactions := by
  funext other
  cases other <;> simp [reactions, notice_fields]

theorem foldl_notice_fields (m : Machine β) (log : List Happening) :
    (log.foldl notice m).cpu = m.cpu ∧ (log.foldl notice m).observer = m.observer ∧
      (log.foldl notice m).breakpoints = m.breakpoints ∧
      (log.foldl notice m).resumePc = m.resumePc := by
  induction log generalizing m with
  | nil => simp
  | cons entry log ih => simpa [notice_fields] using ih (m.notice entry)

theorem foldl_notice_pending (m : Machine β) (log : List Happening) :
    (log.foldl notice m).lines.pending =
      ((log.flatMap m.reactions).foldl Lines.apply m.lines).pending := by
  induction log generalizing m with
  | nil => rfl
  | cons entry log ih =>
    rw [List.foldl_cons, ih, reactions_notice, List.flatMap_cons, List.foldl_append]
    exact Lines.pending_foldl_congr _ (notice_pending m entry)

theorem foldl_notice_gate (m : Machine β) (log : List Happening) :
    (log.foldl notice m).gate = (log.flatMap m.reactions).foldl Gate.apply m.gate := by
  induction log generalizing m with
  | nil => rfl
  | cons entry log ih =>
    rw [List.foldl_cons, ih, reactions_notice, List.flatMap_cons, List.foldl_append, notice_gate]

/-- What an operation of the processor makes observers and devices do, in order. -/
def calls (m : Machine β) (operation : Cpu β → Cpu β) : List Signal :=
  (operation m.cpu).log.flatMap m.reactions

@[simp] theorem perform_fields (m : Machine β) (operation : Cpu β → Cpu β) :
    (m.perform operation).cpu = { operation m.cpu with log := [] } ∧
      (m.perform operation).observer = m.observer ∧
      (m.perform operation).breakpoints = m.breakpoints ∧
      (m.perform operation).resumePc = m.resumePc := by
  simp [perform, foldl_notice_fields]

theorem perform_pending (m : Machine β) (operation : Cpu β → Cpu β) :
    (m.perform operation).lines.pending =
      ((m.calls operation).foldl Lines.apply m.lines).pending :=
  foldl_notice_pending { m with cpu := { operation m.cpu with log := [] } } _

theorem perform_gate (m : Machine β) (operation : Cpu β → Cpu β) :
    (m.perform operation).gate = (m.calls operation).foldl Gate.apply m.gate :=
  foldl_notice_gate { m with cpu := { operation m.cpu with log := [] } } _

end Machine
end Nmos6502
