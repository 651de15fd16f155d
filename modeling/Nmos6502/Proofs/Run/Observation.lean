import Nmos6502.Proofs.Cpu.Panel
import Nmos6502.Proofs.Interchange
import Nmos6502.Proofs.Run.Settled

namespace Nmos6502

universe u

variable {β : Type u}

namespace Machine

def unobserved (m : Machine β) (trace : Array Change) : Machine β :=
  { m with observer := none, trace := trace }

variable {m m' : Machine β}

theorem notice_passive (h : m.observer = some .passive) (before : Array Change)
    (entry : Happening) :
    (m.notice entry).trace.toList = m.trace.toList ++ entry.change?.toList ∧
      (m.unobserved before).notice entry = (m.notice entry).unobserved before := by
  obtain ⟨cpu, lines, gate, observer, trace, breakpoints, resumePc⟩ := m
  obtain rfl : observer = some .passive := h
  cases entry with
  | stored entry =>
    cases hsignal : entry.signal <;>
      simp [notice, unobserved, signals, signal, hsignal, Happening.change?]
  | changed change =>
    rcases Decidable.em (change.what = .flag Flag.interruptDisable.mask) with hflag | hflag <;>
      simp [notice, tellLines, hflag, reveal, signals, unobserved, Observer.reactions,
        Observer.passive, Happening.change?]

theorem foldl_notice_passive (log : List Happening) (h : m.observer = some .passive)
    (before : Array Change) :
    (log.foldl notice m).trace.toList = m.trace.toList ++ log.filterMap Happening.change? ∧
      log.foldl notice (m.unobserved before) = (log.foldl notice m).unobserved before := by
  induction log generalizing m with
  | nil => exact ⟨(List.append_nil _).symm, rfl⟩
  | cons entry log ih =>
    obtain ⟨htrace, hunobserved⟩ := notice_passive h before entry
    obtain ⟨hrest, hrest'⟩ := ih ((m.notice_fields entry).2.1.trans h)
    rw [List.foldl_cons, List.foldl_cons, hunobserved]
    refine ⟨hrest.trans ?_, hrest'⟩
    rw [htrace, List.append_assoc]
    cases entry <;> rfl

theorem perform_passive (h : m.observer = some .passive) (before : Array Change)
    (operation : Cpu β → Cpu β) :
    (m.perform operation).trace.toList = m.trace.toList ++ (operation m.cpu).changes ∧
      (m.unobserved before).perform operation = (m.perform operation).unobserved before :=
  foldl_notice_passive (m := { m with cpu := { operation m.cpu with log := [] } })
    (operation m.cpu).log h before

/-- The changes since `before` keep a panel up to date, and `m'` is the machine without observer. -/
structure Watches (p : Panel) (before : Array Change) (m m' : Machine β) : Prop where
  observer : m.observer = some .passive
  log : m.cpu.log = []
  told : ∃ changes, m.trace.toList = before.toList ++ changes ∧ p.Informed changes ∧
    p.replay changes = m.cpu.shown
  unobserved : m' = m.unobserved before

/-- Nothing is left to be recorded or to be gone through. -/
structure AtRest (m : Machine β) : Prop where
  settled : m.Settled
  log : m.cpu.log = []

theorem AtRest.shown (h : m.AtRest) : m.cpu.shown = m.cpu.reading :=
  Cpu.shown_of_settled h.settled

variable [Bus β] {p : Panel} {before : Array Change}

theorem Watches.perform (h : Watches p before m m') (task : Task) :
    Watches p before (m.perform task.run) (m'.perform task.run) := by
  obtain ⟨htrace, hunobserved⟩ := perform_passive h.observer before task.run
  obtain ⟨hcpu, hobserver, -⟩ := m.perform_fields task.run
  obtain ⟨changes, hchanges, hinformed, hreplay⟩ := h.told
  have hwatched : Cpu.Watched m.cpu.shown (task.run m.cpu) :=
    (Cpu.steady_watched _).run task (.start h.log)
  refine ⟨hobserver.trans h.observer, ?_, ?_, ?_⟩
  · rw [hcpu]
  · refine ⟨changes ++ (task.run m.cpu).changes, ?_, ?_, ?_⟩
    · rw [htrace, hchanges, List.append_assoc]
    · refine hinformed.append ?_
      rw [hreplay]
      exact hwatched.informed
    · rw [Panel.replay_append, hreplay, hwatched.replay, hcpu]
      rfl
  · rw [h.unobserved, hunobserved]

theorem bisimulation_watches (p : Panel) (before : Array Change) :
    Bisimulation (Watches p before (β := β)) where
  alike := by
    rintro m _ ⟨-, -, -, rfl⟩
    exact ⟨rfl, rfl, rfl, rfl, rfl, rfl, rfl, rfl⟩
  perform := Watches.perform
  signal := by
    rintro m _ ⟨hobserver, hlog, htold, rfl⟩ s
    exact ⟨hobserver, hlog, htold, rfl⟩
  acknowledge := by
    rintro m _ ⟨hobserver, hlog, htold, rfl⟩ kind
    exact ⟨hobserver, hlog, htold, rfl⟩
  setGate := by
    rintro m _ ⟨hobserver, hlog, htold, rfl⟩ gate
    exact ⟨hobserver, hlog, htold, rfl⟩
  setHalt := by
    rintro m _ ⟨hobserver, hlog, htold, rfl⟩ halt
    exact ⟨hobserver, hlog, htold, rfl⟩
  setBreakpoints := by
    rintro m _ ⟨hobserver, hlog, htold, rfl⟩ breakpoints
    exact ⟨hobserver, hlog, htold, rfl⟩
  setResumePc := by
    rintro m _ ⟨hobserver, hlog, htold, rfl⟩ resumePc
    exact ⟨hobserver, hlog, htold, rfl⟩

theorem invariant_log : Invariant (fun m : Machine β => m.cpu.log = []) where
  perform _ task := congrArg Cpu.log (perform_fields _ task.run).1
  signal h _ := h
  acknowledge h _ := h
  setGate h _ := h
  setHalt h _ := h
  setBreakpoints h _ := h
  setResumePc h _ := h

theorem AtRest.obey (h : m.AtRest) {command : Command} (hcompletes : m.Completes command) :
    (m.obey command).AtRest := by
  refine ⟨?_, invariant_log.obey h.log command⟩
  cases command with
  | attach evaluator => exact h.settled
  | set register value => exact settled_setRegister h.settled register value
  | poke address values => exact settled_poke h.settled address values
  | reset => exact m.settled_reset
  | deed deed =>
    cases deed with
    | act s => exact h.settled
    | step => exact m.settled_step
    | run options schedule =>
      obtain ⟨result, hfinished⟩ := hcompletes
      have hrun := Engine.through_settled (Engine.start_settled h.settled options) schedule
      exact hrun.resolve_left (by simp [hfinished])

theorem AtRest.obeyAll (commands : List Command) (h : m.AtRest)
    (hcompletes : m.CompletesAll commands) : (m.obeyAll commands).AtRest := by
  induction commands generalizing m with
  | nil => exact h
  | cons command commands ih => exact ih (h.obey hcompletes.1) hcompletes.2

end Machine

namespace Workbench

variable [Bus β] {b : Workbench β}

/-- A run comes to its end before the next operation. -/
def Completes (b : Workbench β) : Operation → Prop
  | .command command => b.machine.Completes command
  | .setFlags _ _ | .attachLines _ | .observe _ | .requestIrq | .awaitIrq | .powerCycle | .peek _ _
  | .readWord _ | .writeWord _ _ | .load _ => True

def CompletesAll (b : Workbench β) : List Operation → Prop
  | [] => True
  | operation :: operations =>
    b.Completes operation ∧ (b.operate operation).CompletesAll operations

theorem atRest_load (h : b.machine.AtRest) (calls : List Loader.Call) :
    (b.load calls).machine.AtRest := by
  rw [load_machine]
  constructor
  · rw [Machine.Settled, (Machine.foldl_notice_fields _ _).1]
    exact h.settled
  · rw [(Machine.foldl_notice_fields _ _).1]
    exact h.log

theorem atRest_operate (h : b.machine.AtRest) {operation : Operation}
    (hcompletes : b.Completes operation) : (b.operate operation).machine.AtRest := by
  cases operation with
  | command command => exact h.obey hcompletes
  | setFlags mask on =>
    change (b.machine.perform fun c => c.setFlags mask on).AtRest
    refine ⟨Machine.settled_perform ?_, congrArg Cpu.log (b.machine.perform_fields _).1⟩
    have hsettled : b.machine.cpu.reportedPc = b.machine.cpu.pc := h.settled
    rw [Cpu.setFlags]
    split <;> simpa using hsettled
  | awaitIrq =>
    let requested : Machine β := { b.machine with lines := b.machine.lines.request .irq }
    have hrequested : requested.AtRest := ⟨h.settled, h.log⟩
    have hcompletes : requested.Completes (.set (.flag .interruptDisable) 0) := trivial
    exact hrequested.obey hcompletes
  | powerCycle => exact ⟨rfl, rfl⟩
  | writeWord address value =>
    have hcompletes : b.machine.Completes (.poke address [Word.low value, Word.high value]) :=
      trivial
    exact h.obey hcompletes
  | load calls => exact atRest_load h calls
  | attachLines _ | observe _ | requestIrq | peek _ _ | readWord _ => exact ⟨h.settled, h.log⟩

theorem atRest_after (operations : List Operation) (h : b.machine.AtRest)
    (hcompletes : b.CompletesAll operations) : (b.after operations).machine.AtRest := by
  induction operations generalizing b with
  | nil => exact h
  | cons operation operations ih => exact ih (atRest_operate h hcompletes.1) hcompletes.2

end Workbench

theorem Machine.AtRest.watches {m : Machine β} (h : m.AtRest) :
    Watches m.cpu.reading m.trace { m with observer := some .passive }
      { m with observer := none } := by
  refine ⟨rfl, h.log, ⟨[], (List.append_nil _).symm, trivial, ?_⟩, rfl⟩
  exact h.shown.symm

/-- From the changes that an observer sees one can tell the registers and flags after every command.
Each of them is news, and the machine would have gone the same way without the observer. -/
theorem observer_sees_changes [Bus β] (bus : β) (labels : LabelTable)
    (operations : List Workbench.Operation)
    (hbefore : (Workbench.powerOn bus labels).CompletesAll operations) (commands : List Command)
    (hcompletes : ({ ((Workbench.powerOn bus labels).after operations).machine with
      observer := some .passive }).CompletesAll commands) :
    let start := ((Workbench.powerOn bus labels).after operations).machine
    let now := ({ start with observer := some .passive }).obeyAll commands
    (∃ changes, now.trace.toList = start.trace.toList ++ changes ∧
        start.cpu.reading.Informed changes ∧
        start.cpu.reading.replay changes = now.cpu.reading) ∧
      ({ start with observer := none }).obeyAll commands =
        { now with observer := none, trace := start.trace } := by
  intro start now
  have hstart : start.AtRest := Workbench.atRest_after operations ⟨rfl, rfl⟩ hbefore
  have hnow : now.AtRest := Machine.AtRest.obeyAll commands ⟨hstart.settled, hstart.log⟩ hcompletes
  obtain ⟨-, -, htold, hunobserved⟩ :=
    (Machine.bisimulation_watches _ _).obeyAll hstart.watches commands
  rw [← hnow.shown]
  exact ⟨htold, hunobserved⟩

/-- A program loads a byte and halts, and the machine is reset. -/
theorem observer_sees_changes_reset :
    let bus := Bus.writeAll FlatMemory.zeroed 0x0200 [0xA9, 0x80]
    let start := ((Workbench.powerOn bus .empty).after
      [.setFlags 0x03 true, .command (.set .pc 0x0200)]).machine
    let commands := [Command.set .x 5, .deed .step, .deed (.run ⟨none, 0⟩ (.replicate 8 .move)),
      .set (.flag .overflow) 1, .reset]
    let now := ({ start with observer := some .passive }).obeyAll commands
    start.cpu.reading.Informed now.trace.toList ∧
      start.cpu.reading.replay now.trace.toList = now.cpu.reading ∧ now.trace.size = 14 := by
  intro bus start commands now
  obtain ⟨⟨changes, htrace, hinformed, hreplay⟩, -⟩ := observer_sees_changes bus .empty
    [.setFlags 0x03 true, .command (.set .pc 0x0200)] ⟨trivial, trivial, trivial⟩ commands
    (by decide +kernel)
  have hfresh : start.trace.toList = [] := by decide +kernel
  rw [hfresh, List.nil_append] at htrace
  rw [htrace]
  exact ⟨hinformed, hreplay, by decide +kernel⟩

end Nmos6502
