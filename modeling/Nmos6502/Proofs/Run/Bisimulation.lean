import Nmos6502.Proofs.Cpu.Task
import Nmos6502.Proofs.Run.Resumption

/-!
Two machines that look alike to a run and stay related whatever is done to both of them go the same
way in runs of any length. They may differ in their bus, or in something that only others can see.
-/

namespace Nmos6502

universe u v

variable {β : Type u} {γ : Type v}

namespace Machine

variable [Bus β] [Bus γ]

/-- All that a run looks at is the same. -/
structure Alike (m : Machine β) (m' : Machine γ) : Prop where
  gate : m'.gate = m.gate
  accepted : m'.accepted = m.accepted
  servicing : m'.cpu.servicing = m.cpu.servicing
  status : m'.cpu.status = m.cpu.status
  halt : m'.cpu.halt = m.cpu.halt
  snapshot : m'.snapshot = m.snapshot
  breakpoints : m'.breakpoints = m.breakpoints
  resumePc : m'.resumePc = m.resumePc

/-- Related machines look alike and stay related. -/
structure Bisimulation (R : Machine β → Machine γ → Prop) : Prop where
  alike : ∀ {m m'}, R m m' → m.Alike m'
  perform : ∀ {m m'}, R m m' → ∀ task : Task, R (m.perform task.run) (m'.perform task.run)
  signal : ∀ {m m'}, R m m' → ∀ s, R (m.signal s) (m'.signal s)
  acknowledge : ∀ {m m'}, R m m' → ∀ kind,
    R { m with lines := m.lines.acknowledge kind } { m' with lines := m'.lines.acknowledge kind }
  setGate : ∀ {m m'}, R m m' → ∀ gate, R { m with gate := gate } { m' with gate := gate }
  setHalt : ∀ {m m'}, R m m' → ∀ halt,
    R { m with cpu := { m.cpu with halt := halt } } { m' with cpu := { m'.cpu with halt := halt } }
  setBreakpoints : ∀ {m m'}, R m m' → ∀ breakpoints,
    R { m with breakpoints := breakpoints } { m' with breakpoints := breakpoints }
  setResumePc : ∀ {m m'}, R m m' → ∀ resumePc,
    R { m with resumePc := resumePc } { m' with resumePc := resumePc }

namespace Bisimulation

variable {R : Machine β → Machine γ → Prop} {m : Machine β} {m' : Machine γ}

theorem signals (hR : Bisimulation R) (h : R m m') (ss : List Signal) :
    R (m.signals ss) (m'.signals ss) := by
  induction ss generalizing m m' with
  | nil => exact h
  | cons s ss ih => exact ih (hR.signal h s)

theorem enter (hR : Bisimulation R) (h : R m m') (kind : Interrupt) :
    R (m.enter kind) (m'.enter kind) :=
  hR.perform (hR.acknowledge h kind) (.enter kind)

theorem step (hR : Bisimulation R) (h : R m m') : R m.step m'.step := by
  rw [Machine.step, Machine.step, (hR.alike h).accepted]
  cases m.accepted with
  | none => exact hR.perform (hR.perform h .executeNext) .reportPc
  | some kind => exact hR.perform (hR.enter h kind) .reportPc

theorem reset (hR : Bisimulation R) (h : R m m') : R m.reset m'.reset :=
  hR.setResumePc (hR.signal (hR.perform h .reset) .clear) none

theorem poke (hR : Bisimulation R) (h : R m m') (address : Word) (values : List Byte) :
    R (m.poke address values) (m'.poke address values) := by
  induction values generalizing m m' address with
  | nil => exact h
  | cons value values ih => exact ih (hR.perform h (.store address value)) _

theorem consult (hR : Bisimulation R) (h : R m m') :
    m'.consult.2 = m.consult.2 ∧ R m.consult.1 m'.consult.1 := by
  obtain ⟨cpu, lines, gate, observer, trace, breakpoints, resumePc⟩ := m
  obtain ⟨cpu', lines', gate', observer', trace', breakpoints', resumePc'⟩ := m'
  obtain ⟨-, -, -, -, -, hsnapshot, hbreakpoints, hresume⟩ := hR.alike h
  obtain rfl : breakpoints' = breakpoints := hbreakpoints
  obtain rfl : resumePc' = resumePc := hresume
  have hpc : cpu'.pc = cpu.pc := congrArg Snapshot.pc hsnapshot
  have hforgetful := hR.setResumePc h none
  rw [Machine.consult, Machine.consult, hsnapshot]
  dsimp only
  rw [hpc]
  split
  · exact ⟨rfl, hforgetful⟩
  · cases breakpoints' with
    | none => exact ⟨rfl, hforgetful⟩
    | some evaluator =>
      dsimp only
      generalize evaluator.ask _ = answer
      obtain ⟨verdict, evaluator⟩ := answer
      have hacted := hR.signals (hR.setBreakpoints hforgetful (some evaluator))
        verdict.signal.toList
      cases verdict.hit with
      | none => exact ⟨rfl, hacted⟩
      | some hit => exact ⟨rfl, hR.setResumePc hacted (some cpu.pc)⟩

end Bisimulation

end Machine

namespace Engine

def on (e : Engine β) (m : Machine γ) : Engine γ where
  machine := m
  options := e.options
  elapsed := e.elapsed
  asleepUntil := e.asleepUntil
  phase := e.phase

/-- Two runs that differ in nothing but their machines, and these are related. -/
def Together (R : Machine β → Machine γ → Prop) (e : Engine β) (e' : Engine γ) : Prop :=
  ∃ m', R e.machine m' ∧ e' = e.on m'

namespace Together

variable {R : Machine β → Machine γ → Prop} {e : Engine β} {e' : Engine γ}

theorem phase (h : Together R e e') : e'.phase = e.phase := by
  obtain ⟨m', -, rfl⟩ := h
  rfl

theorem machine (h : Together R e e') : R e.machine e'.machine := by
  obtain ⟨m', hm, rfl⟩ := h
  exact hm

variable [Bus β] [Bus γ]

theorem start (hR : Machine.Bisimulation R) {m : Machine β} {m' : Machine γ} (h : R m m')
    (options : RunOptions) : Together R (Engine.start m options) (Engine.start m' options) :=
  ⟨_, hR.perform h .resume, rfl⟩

theorem gate (hR : Machine.Bisimulation R) (h : Together R e e') :
    e'.machine.gate = e.machine.gate :=
  (hR.alike h.machine).gate

theorem askGate (hR : Machine.Bisimulation R) (h : Together R e e') (closed : Phase) :
    Together R (e.askGate closed) (e'.askGate closed) := by
  rw [Engine.askGate, Engine.askGate, h.gate hR]
  obtain ⟨m', hm, rfl⟩ := h
  rcases e.machine.gate.ask with ⟨answer, gate⟩
  cases answer with
  | granted | refused | closed => exact ⟨_, hR.setGate hm gate, rfl⟩

theorem wake (hR : Machine.Bisimulation R) (h : Together R e e') : Together R e.wake e'.wake := by
  rw [Engine.wake, Engine.wake, h.phase]
  split
  · exact askGate hR h _
  · exact h

theorem expire (hR : Machine.Bisimulation R) (h : Together R e e') :
    Together R e.expire e'.expire := by
  rw [Engine.expire, Engine.expire, h.phase, h.gate hR]
  split
  case h_1 allowance _ =>
    have hlater : Together R { e with elapsed := e.elapsed + allowance }
        { e' with elapsed := e'.elapsed + allowance } := by
      obtain ⟨m', hm, rfl⟩ := h
      exact ⟨m', hm, rfl⟩
    exact askGate hR hlater _
  case h_2 => exact h

theorem pollMove (hR : Machine.Bisimulation R) (h : Together R e e') :
    Together R e.pollMove e'.pollMove := by
  obtain ⟨m', hm, rfl⟩ := h
  have haccepted : (e.on m').machine.accepted = e.machine.accepted := (hR.alike hm).accepted
  have hservicing : (e.on m').machine.cpu.servicing = e.machine.cpu.servicing :=
    (hR.alike hm).servicing
  have hasleep : (e.on m').sleepLeft = e.sleepLeft := by
    rw [sleepLeft, hservicing]
    rfl
  rw [Engine.pollMove, Engine.pollMove, haccepted, hasleep]
  cases e.machine.accepted with
  | some kind => exact ⟨_, hR.enter hm kind, rfl⟩
  | none =>
    cases e.sleepLeft with
    | some left => exact ⟨m', hm, rfl⟩
    | none => exact ⟨m', hm, rfl⟩

theorem watchMove (hR : Machine.Bisimulation R) (h : Together R e e') :
    Together R e.watchMove e'.watchMove := by
  obtain ⟨m', hm, rfl⟩ := h
  obtain ⟨hhit, hconsulted⟩ := hR.consult hm
  have hmachine : (e.on m').machine = m' := rfl
  rw [Engine.watchMove, Engine.watchMove, hmachine]
  generalize e.machine.consult = found at hhit hconsulted ⊢
  generalize m'.consult = found' at hhit hconsulted ⊢
  obtain ⟨consulted, hit⟩ := found
  obtain ⟨consulted', hit'⟩ := found'
  obtain rfl : hit' = hit := hhit
  cases hit' with
  | none => exact ⟨consulted', hconsulted, rfl⟩
  | some hit => exact ⟨consulted', hconsulted, rfl⟩

theorem fetchMove (hR : Machine.Bisimulation R) (h : Together R e e') :
    Together R e.fetchMove e'.fetchMove := by
  obtain ⟨m', hm, rfl⟩ := h
  have hopcode : Bus.read m'.cpu.bus m'.cpu.pc = Bus.read e.machine.cpu.bus e.machine.cpu.pc :=
    congrArg Snapshot.opcode (hR.alike hm).snapshot
  refine ⟨_, hR.perform hm .executeNext, ?_⟩
  simp only [Engine.fetchMove, atNop, on, hopcode]
  rfl

theorem settleMove (hR : Machine.Bisimulation R) (h : Together R e e') :
    Together R e.settleMove e'.settleMove := by
  obtain ⟨m', hm, rfl⟩ := h
  have hsettled : R (e.machine.perform Cpu.reportPc) (m'.perform Cpu.reportPc) :=
    hR.perform hm .reportPc
  obtain ⟨-, -, -, hstatus, hhalt, -⟩ := hR.alike hsettled
  have hmachine : (e.on m').machine = m' := rfl
  rw [Engine.settleMove, Engine.settleMove, hmachine]
  dsimp only
  generalize e.machine.perform Cpu.reportPc = m at hsettled hstatus hhalt ⊢
  generalize m'.perform Cpu.reportPc = m' at hsettled hstatus hhalt ⊢
  have hwhy : m'.cpu.halt.getD .brk = m.cpu.halt.getD .brk := by rw [hhalt]
  rw [congrArg (Status.has · .brk) hstatus, hwhy]
  split
  · exact ⟨_, hR.setHalt hsettled _, rfl⟩
  · exact ⟨_, hsettled, rfl⟩

theorem move (hR : Machine.Bisimulation R) (h : Together R e e') : Together R e.move e'.move := by
  rw [Engine.move, Engine.move, h.phase]
  cases e.phase with
  | poll => exact pollMove hR h
  | watch => exact watchMove hR h
  | fetch => exact fetchMove hR h
  | settle => exact settleMove hR h
  | parked _ | finished _ => exact h
  | boundary =>
    rw [h.gate hR]
    obtain ⟨m', hm, rfl⟩ := h
    exact ⟨m', hm, rfl⟩
  | gate =>
    have hallowance : e'.allowance = e.allowance := by
      rw [allowance, h.gate hR]
      obtain ⟨m', hm, rfl⟩ := h
      rfl
    rw [hallowance]
    exact askGate hR h _
  | pausing hit =>
    obtain ⟨m', hm, rfl⟩ := h
    exact ⟨_, hR.signal hm .stop, rfl⟩
  | notifying hit =>
    rw [h.gate hR]
    obtain ⟨m', hm, rfl⟩ := h
    exact ⟨_, hR.setGate hm (e.machine.gate.publish (.breakpoint hit)), rfl⟩
  | announcing outcome =>
    rw [h.gate hR]
    obtain ⟨m', hm, rfl⟩ := h
    exact ⟨_, hR.setGate hm (e.machine.gate.publish (.finished outcome)), rfl⟩

theorem meet (hR : Machine.Bisimulation R) (h : Together R e e') (o : Occurrence) :
    Together R (e.meet o) (e'.meet o) := by
  cases o with
  | wake => exact wake hR h
  | expire => exact expire hR h
  | move =>
    obtain ⟨m', hm, rfl⟩ := h
    exact move hR (e := { e with elapsed := e.elapsed + 1 }) ⟨m', hm, rfl⟩
  | act s =>
    obtain ⟨m', hm, rfl⟩ := h
    exact ⟨_, hR.signal hm s, rfl⟩
  | pass time =>
    obtain ⟨m', hm, rfl⟩ := h
    exact ⟨m', hm, rfl⟩

theorem through (hR : Machine.Bisimulation R) (h : Together R e e') (schedule : List Occurrence) :
    Together R (e.through schedule) (e'.through schedule) := by
  induction schedule generalizing e e' with
  | nil => exact h
  | cons o schedule ih => exact ih (meet hR h o)

end Together

end Engine

namespace Machine

theorem Bisimulation.obey [Bus β] [Bus γ] {R : Machine β → Machine γ → Prop} {m : Machine β}
    {m' : Machine γ} (hR : Bisimulation R) (h : R m m') (command : Command) :
    R (m.obey command) (m'.obey command) := by
  cases command with
  | attach evaluator => exact hR.setResumePc (hR.setBreakpoints h evaluator) none
  | set register value => exact hR.perform h (.set register value)
  | poke address values => exact hR.poke h address values
  | reset => exact hR.reset h
  | deed deed =>
    cases deed with
    | act s => exact hR.signal h s
    | step => exact hR.step h
    | run options schedule =>
      have hrun := (Engine.Together.start hR h options).through hR schedule
      exact hrun.machine

theorem Bisimulation.obeyAll [Bus β] [Bus γ] {R : Machine β → Machine γ → Prop} {m : Machine β}
    {m' : Machine γ} (hR : Bisimulation R) (h : R m m') (commands : List Command) :
    R (m.obeyAll commands) (m'.obeyAll commands) := by
  induction commands generalizing m m' with
  | nil => exact h
  | cons command commands ih => exact ih (hR.obey h command)

variable [Bus β] {P : Machine β → Prop} {m : Machine β}

/-- Whatever is done to a machine keeps `P`. -/
structure Invariant (P : Machine β → Prop) : Prop where
  perform : ∀ {m}, P m → ∀ task : Task, P (m.perform task.run)
  signal : ∀ {m}, P m → ∀ s, P (m.signal s)
  acknowledge : ∀ {m}, P m → ∀ kind, P { m with lines := m.lines.acknowledge kind }
  setGate : ∀ {m}, P m → ∀ gate, P { m with gate := gate }
  setHalt : ∀ {m}, P m → ∀ halt, P { m with cpu := { m.cpu with halt := halt } }
  setBreakpoints : ∀ {m}, P m → ∀ breakpoints, P { m with breakpoints := breakpoints }
  setResumePc : ∀ {m}, P m → ∀ resumePc, P { m with resumePc := resumePc }

namespace Invariant

theorem bisimulation (hP : Invariant P) : Bisimulation fun m m' => P m ∧ m' = m where
  alike := by
    rintro m _ ⟨-, rfl⟩
    exact ⟨rfl, rfl, rfl, rfl, rfl, rfl, rfl, rfl⟩
  perform := by
    rintro m _ ⟨h, rfl⟩ task
    exact ⟨hP.perform h task, rfl⟩
  signal := by
    rintro m _ ⟨h, rfl⟩ s
    exact ⟨hP.signal h s, rfl⟩
  acknowledge := by
    rintro m _ ⟨h, rfl⟩ kind
    exact ⟨hP.acknowledge h kind, rfl⟩
  setGate := by
    rintro m _ ⟨h, rfl⟩ gate
    exact ⟨hP.setGate h gate, rfl⟩
  setHalt := by
    rintro m _ ⟨h, rfl⟩ halt
    exact ⟨hP.setHalt h halt, rfl⟩
  setBreakpoints := by
    rintro m _ ⟨h, rfl⟩ breakpoints
    exact ⟨hP.setBreakpoints h breakpoints, rfl⟩
  setResumePc := by
    rintro m _ ⟨h, rfl⟩ resumePc
    exact ⟨hP.setResumePc h resumePc, rfl⟩

theorem poke (hP : Invariant P) (h : P m) (address : Word) (values : List Byte) :
    P (m.poke address values) :=
  (hP.bisimulation.poke ⟨h, rfl⟩ address values).1

theorem through (hP : Invariant P) {e : Engine β} (h : P e.machine) (schedule : List Occurrence) :
    P (e.through schedule).machine := by
  have htogether : Engine.Together (fun m m' => P m ∧ m' = m) e e := ⟨_, ⟨h, rfl⟩, rfl⟩
  exact (htogether.through hP.bisimulation schedule).machine.1

theorem obey (hP : Invariant P) (h : P m) (command : Command) : P (m.obey command) :=
  (hP.bisimulation.obey ⟨h, rfl⟩ command).1

end Invariant

end Machine

end Nmos6502
