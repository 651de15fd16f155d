import Nmos6502.Bus.Flat
import Nmos6502.Proofs.Run.Arrivals
import Nmos6502.Proofs.Run.Settled

/-!
Whatever a controller does to a run, and whenever interrupts are requested, the run does what the
same number of steps would do. No instruction is lost, repeated or broken off.
-/

namespace Nmos6502

universe u

variable {β : Type u}

namespace Machine

/-- The machine as a run finds it once it has taken back the last halt. -/
def resumed (m : Machine β) : Machine β :=
  m.perform fun c => { c with halt := none }.setFlag .brk false

theorem resumed_fields (m : Machine β) :
    m.resumed.cpu.status.has .brk = false ∧ m.resumed.cpu.halt = none ∧
      m.resumed.cpu.pc = m.cpu.pc ∧ m.resumed.cpu.reportedPc = m.cpu.reportedPc ∧
      m.resumed.cpu.log = [] ∧ m.resumed.observer = m.observer ∧
      m.resumed.breakpoints = m.breakpoints := by
  simp [resumed]

/-- The run at `r` has done what the steps that lead to `s` do, and may go on. -/
structure Idles (r s : Machine β) (a : Arrivals) : Prop where
  tracks : Tracks r s a.late
  unbroken : s.cpu.status.has .brk = false
  reported : r.Settled ∨ s.Quiet

namespace Idles

variable {r r' s : Machine β} {a a' : Arrivals}

theorem not_halted (h : Idles r s a) (why : Halt) : ¬ s.Halted why := by
  rintro ⟨hbrk, -⟩
  exact absurd hbrk (by simp [h.unbroken])

theorem congr (h : Idles r s a) (hcpu : r'.cpu = r.cpu) (htracks : Tracks r' s a'.late) :
    Idles r' s a' :=
  ⟨htracks, h.unbroken, h.reported.imp_left fun hsettled => hsettled.congr hcpu⟩

end Idles

/-- How far a run has come in a phase. The steps lead to `s`; the last of them has happened to `r`
but for the record of the program counter if the iteration is about to end. -/
def Stands (r s : Machine β) (a : Arrivals) : Phase → Prop
  | .boundary | .poll | .pausing _ | .notifying _ => Idles r s a
  | .gate | .parked _ | .watch | .fetch => Idles r s a ∧ (s.request a.seen).accepted = none
  | .settle => Idles r s a ∨ ∃ half, s = half.perform Cpu.reportPc ∧ Tracks r half a.late
  | .announcing outcome => Tracks r s a.late ∧ ∀ why, outcome = .halted why ↔ s.Halted why
  | .finished result => Tracks r s a.late ∧ ∀ why, result = .ok (.halted why) ↔ s.Halted why

theorem Stands.congr {r r' s : Machine β} {a a' : Arrivals} {phase : Phase}
    (h : Stands r s a phase) (hcpu : r'.cpu = r.cpu) (hseen : a'.seen = a.seen)
    (htracks : ∀ s', Tracks r s' a.late → Tracks r' s' a'.late) : Stands r' s a' phase := by
  cases phase with
  | boundary | poll | pausing _ | notifying _ => exact Idles.congr h hcpu (htracks s h.tracks)
  | gate | parked _ | watch | fetch =>
    exact ⟨h.1.congr hcpu (htracks s h.1.tracks), by rw [hseen]; exact h.2⟩
  | settle =>
    rcases h with hidles | ⟨half, hhalf, htracks'⟩
    · exact .inl (hidles.congr hcpu (htracks s hidles.tracks))
    · exact .inr ⟨half, hhalf, htracks half htracks'⟩
  | announcing outcome => exact ⟨htracks s h.1, h.2⟩
  | finished result => exact ⟨htracks s h.1, h.2⟩

end Machine

/-- An evaluator that only answers, whatever it has been asked about. -/
def Evaluator.Silent (e : Evaluator) : Prop :=
  ∀ seen s, ((e.after seen).ask s).1.signal = none

theorem Evaluator.Silent.ask {e : Evaluator} (h : e.Silent) (s : Snapshot) : (e.ask s).2.Silent :=
  fun seen => h (s :: seen)

/-- The run `e` follows the steps from `entry`. -/
structure Follows [Bus β] (entry : Machine β) (e : Engine β) (a : Arrivals) : Prop where
  stands : e.machine.Stands (entry.steps a.served) a e.phase
  unbroken : ∀ j < a.served.length, (entry.steps (a.served.take j)).cpu.status.has .brk = false
  silent : ∀ evaluator, e.machine.breakpoints = some evaluator → evaluator.Silent

variable {entry : Machine β} {e e' : Engine β} {a a' : Arrivals}

namespace Engine

open Machine

theorem askGate_stands {s : Machine β} {closed : Phase} (h : Idles e.machine s a)
    (hnone : (s.request a.seen).accepted = none)
    (hclosed : ∀ r, Idles r s a → r.Stands s a closed) :
    (e.askGate closed).machine.Stands s a (e.askGate closed).phase := by
  have hgate : ∀ gate, Idles { e.machine with gate := gate } s a :=
    fun gate => h.congr rfl (h.tracks.congr rfl rfl rfl)
  rw [askGate]
  split
  · exact ⟨hgate _, hnone⟩
  · exact .inl (hgate _)
  · exact hclosed _ (hgate _)

theorem askGate_breakpoints (closed : Phase) :
    (e.askGate closed).machine.breakpoints = e.machine.breakpoints := by
  rw [askGate]
  split <;> rfl

end Engine

variable [Bus β]

namespace Follows

theorem stay (h : Follows entry e a) (hserved : a'.served = a.served)
    (hbreakpoints : e'.machine.breakpoints = e.machine.breakpoints)
    (hstands : e'.machine.Stands (entry.steps a.served) a' e'.phase) : Follows entry e' a' where
  stands := by
    rw [hserved]
    exact hstands
  unbroken := by
    rw [hserved]
    exact h.unbroken
  silent := by
    rw [hbreakpoints]
    exact h.silent

theorem serve (h : Follows entry e a) {kinds : List Interrupt}
    (hserved : a'.served = a.served ++ [kinds])
    (hbreakpoints : e'.machine.breakpoints = e.machine.breakpoints)
    (hunbroken : (entry.steps a.served).cpu.status.has .brk = false)
    (hstands : e'.machine.Stands ((entry.steps a.served).request kinds).step a' e'.phase) :
    Follows entry e' a' where
  stands := by
    rw [hserved, Machine.steps_concat]
    exact hstands
  unbroken := by
    rw [hserved]
    intro j hj
    rw [List.length_append, List.length_singleton] at hj
    rcases Nat.lt_or_eq_of_le (Nat.le_of_lt_succ hj) with hlt | rfl
    · rw [List.take_append_of_le_length (Nat.le_of_lt hlt)]
      exact h.unbroken j hlt
    · rw [List.take_left]
      exact hunbroken
  silent := by
    rw [hbreakpoints]
    exact h.silent

end Follows

namespace Engine

open Machine

theorem wake_follows (h : Follows entry e a) : Follows entry e.wake a := by
  rw [wake]
  split
  case h_2 => exact h
  case h_1 allowance hphase =>
    have hstands := h.stands
    rw [hphase] at hstands
    apply h.stay rfl (askGate_breakpoints _)
    apply askGate_stands hstands.1 hstands.2
    intro r hr
    exact .inl hr

theorem expire_follows (h : Follows entry e a) : Follows entry e.expire a := by
  rw [expire]
  split
  case h_2 => exact h
  case h_1 allowance hphase =>
    have hstands := h.stands
    rw [hphase] at hstands
    refine h.stay rfl (askGate_breakpoints _) ?_
    refine askGate_stands hstands.1 hstands.2 ?_
    intro r hr
    split
    · refine ⟨hr.tracks, ?_⟩
      intro why
      simp [hr.not_halted why]
    · exact .inl hr

theorem signal_follows (h : Follows entry e a) {x : Signal} (hclear : x ≠ .clear) :
    Follows entry (e.signal x) (e.arrive a (.act x)) := by
  refine h.stay rfl rfl (h.stands.congr rfl rfl ?_)
  intro s' htracks
  have hsignal := htracks.signal hclear
  rw [Arrivals.late, List.append_assoc] at hsignal
  exact hsignal

theorem pollMove_follows (h : Follows entry e a) (hclears : entry.NeverClears)
    (hphase : e.phase = .poll) : Follows entry e.pollMove (e.arrive a .move) := by
  have hidles : Idles e.machine (entry.steps a.served) a := by
    have hstands := h.stands
    rwa [hphase] at hstands
  have hdelivered := hidles.tracks.deliver_all
  have haccepted := hdelivered.accepted_eq
  cases hcase : e.machine.accepted with
  | some kind =>
    have harrive : e.arrive a .move = ⟨a.served ++ [a.late], [], []⟩ := by
      simp only [arrive, hphase, hcase, Option.isSome_some, if_true]
    have hmove : e.pollMove = { e with machine := e.machine.enter kind, phase := .settle } := by
      simp only [pollMove, hcase]
    rw [harrive, hmove]
    refine h.serve rfl (by simp [enter]) hidles.unbroken (.inr ⟨_, step_eq_work _, ?_⟩)
    rw [hcase] at haccepted
    simp only [work, ← haccepted]
    exact hdelivered.enter (hclears.congr (steps_observer _ _)) kind
  | none =>
    have harrive : e.arrive a .move = ⟨a.served, a.late, []⟩ := by
      simp only [arrive, hphase, hcase, Option.isSome_none, Bool.false_eq_true, if_false]
    have hidles' : Idles e.machine (entry.steps a.served) ⟨a.served, a.late, []⟩ :=
      hidles.congr rfl (by simpa [Arrivals.late] using hidles.tracks)
    rw [harrive, pollMove, hcase]
    dsimp only
    split
    · exact h.stay rfl rfl (.inl hidles')
    · exact h.stay rfl rfl ⟨hidles', haccepted.symm.trans hcase⟩

theorem watchMove_follows (h : Follows entry e a) (hphase : e.phase = .watch) :
    Follows entry e.watchMove a := by
  have hstands := h.stands
  rw [hphase] at hstands
  obtain ⟨hidles, hnone⟩ := hstands
  have hconsulted : e.machine.consulted = [] := by
    rw [consulted]
    split
    · rfl
    · cases hbreakpoints : e.machine.breakpoints with
      | none => rfl
      | some evaluator =>
        have hsignal : (evaluator.ask e.machine.snapshot).1.signal = none :=
          h.silent evaluator hbreakpoints [] _
        simp [hsignal]
  have hsilent : ∀ evaluator, e.machine.asked = some evaluator → evaluator.Silent := by
    intro evaluator hasked
    rw [asked] at hasked
    split at hasked
    · exact h.silent evaluator hasked
    · obtain ⟨before, hbefore, rfl⟩ := Option.map_eq_some_iff.mp hasked
      exact (h.silent before hbefore).ask _
  have hconsult := e.machine.consult_fields
  rw [hconsulted] at hconsult
  obtain ⟨hcpu, hlines, -, hobserver, hbreakpoints⟩ := hconsult
  have hidles' : Idles e.machine.consult.1 (entry.steps a.served) a :=
    hidles.congr hcpu (hidles.tracks.congr hcpu hobserver (congrArg Lines.pending hlines))
  rw [watchMove]
  rcases hpair : e.machine.consult with ⟨m, hit⟩
  rw [hpair] at hidles' hbreakpoints
  cases hit with
  | none => exact ⟨⟨hidles', hnone⟩, h.unbroken, fun _ he => hsilent _ (hbreakpoints.symm.trans he)⟩
  | some hit => exact ⟨hidles', h.unbroken, fun _ he => hsilent _ (hbreakpoints.symm.trans he)⟩

theorem fetchMove_follows (h : Follows entry e a) (hclears : entry.NeverClears)
    (hphase : e.phase = .fetch) : Follows entry e.fetchMove (e.arrive a .move) := by
  have hstands := h.stands
  rw [hphase] at hstands
  obtain ⟨hidles, hnone⟩ := hstands
  have harrive : e.arrive a .move = ⟨a.served ++ [a.seen], [], a.unseen⟩ := by
    simp only [arrive, hphase]
  rw [harrive]
  refine h.serve rfl (by simp [fetchMove]) hidles.unbroken (.inr ⟨_, step_eq_work _, ?_⟩)
  simp only [work, hnone]
  exact hidles.tracks.deliver.executeNext (hclears.congr (steps_observer _ _))

theorem settleMove_follows (h : Follows entry e a) (hclears : entry.NeverClears)
    (hlatched : entry.cpu.Latched) (hphase : e.phase = .settle) :
    Follows entry e.settleMove a := by
  have hstands := h.stands
  rw [hphase] at hstands
  have htracks : Tracks (e.machine.perform Cpu.reportPc) (entry.steps a.served) a.late := by
    rcases hstands with hidles | ⟨half, hhalf, htracks⟩
    · exact hidles.tracks.reportPc_left hidles.reported
    · have hobserver : half.observer = entry.observer := by
        rw [← entry.steps_observer a.served, hhalf]
        simp
      rw [hhalf]
      exact htracks.reportPc (hclears.congr hobserver)
  have hreported := e.machine.settled_reportPc
  have hbreakpoints : (e.machine.perform Cpu.reportPc).breakpoints = e.machine.breakpoints := by
    simp
  have hlast := latched_steps hlatched a.served
  rw [settleMove]
  dsimp only
  generalize e.machine.perform Cpu.reportPc = m at htracks hreported hbreakpoints ⊢
  have hstatus : m.cpu.status = (entry.steps a.served).cpu.status := by
    rw [htracks.cpu, Cpu.transfer]
  have hhalt : m.cpu.halt = (entry.steps a.served).cpu.halt := by
    rw [htracks.cpu, Cpu.transfer]
  cases hbrk : m.cpu.status.has .brk with
  | true =>
    rw [hstatus] at hbrk
    obtain ⟨why, hwhy⟩ := Option.isSome_iff_exists.mp (hlast.symm.trans hbrk)
    rw [hwhy] at hhalt
    have hsame : { m with cpu := { m.cpu with halt := some why } } = m := by
      rw [← hhalt]
    simp only [if_true, hhalt, Option.getD_some, hsame]
    refine h.stay rfl hbreakpoints ⟨htracks, ?_⟩
    intro other
    simp [Halted, hbrk, hwhy]
  | false =>
    have hidles : Idles m (entry.steps a.served) a :=
      ⟨htracks, by rw [← hstatus, hbrk], .inl hreported⟩
    simp only [Bool.false_eq_true, if_false]
    cases hoverdue : e.overdue with
    | true =>
      refine h.stay rfl hbreakpoints ⟨htracks, ?_⟩
      intro why
      simp [hidles.not_halted why]
    | false => exact h.stay rfl hbreakpoints hidles

theorem otherMove_follows (h : Follows entry e a) (hclears : entry.NeverClears)
    (hlatched : entry.cpu.Latched) (hpoll : e.phase ≠ .poll) (hfetch : e.phase ≠ .fetch) :
    Follows entry e.move a := by
  have hstands := h.stands
  rw [move]
  cases hphase : e.phase with
  | poll => exact absurd hphase hpoll
  | fetch => exact absurd hphase hfetch
  | watch => exact watchMove_follows h hphase
  | settle => exact settleMove_follows h hclears hlatched hphase
  | parked _ => exact h
  | finished _ => exact h
  | gate =>
    rw [hphase] at hstands
    apply h.stay rfl (askGate_breakpoints _)
    apply askGate_stands hstands.1 hstands.2
    intro r hr
    exact ⟨hr, hstands.2⟩
  | boundary =>
    rw [hphase] at hstands
    refine h.stay rfl rfl ?_
    cases e.machine.gate.cancelled with
    | true =>
      refine ⟨hstands.tracks, ?_⟩
      intro why
      simp [hstands.not_halted why]
    | false => exact hstands
  | pausing hit =>
    rw [hphase] at hstands
    exact h.stay rfl rfl (Idles.congr hstands rfl (hstands.tracks.congr rfl rfl rfl))
  | notifying hit =>
    rw [hphase] at hstands
    exact h.stay rfl rfl (.inl (Idles.congr hstands rfl (hstands.tracks.congr rfl rfl rfl)))
  | announcing outcome =>
    rw [hphase] at hstands
    refine h.stay rfl rfl ⟨hstands.1.congr rfl rfl rfl, ?_⟩
    intro why
    simpa using hstands.2 why

theorem move_follows (h : Follows entry e a) (hclears : entry.NeverClears)
    (hlatched : entry.cpu.Latched) : Follows entry e.move (e.arrive a .move) := by
  cases hphase : e.phase with
  | poll =>
    have hmove : e.move = e.pollMove := by simp only [move, hphase]
    rw [hmove]
    exact pollMove_follows h hclears hphase
  | fetch =>
    have hmove : e.move = e.fetchMove := by simp only [move, hphase]
    rw [hmove]
    exact fetchMove_follows h hclears hphase
  | _ =>
    have hpoll : e.phase ≠ .poll := by simp [hphase]
    have hfetch : e.phase ≠ .fetch := by simp [hphase]
    rw [arrive_move hpoll hfetch]
    exact otherMove_follows h hclears hlatched hpoll hfetch

theorem meet_follows (h : Follows entry e a) (hclears : entry.NeverClears)
    (hlatched : entry.cpu.Latched) {o : Occurrence} (ho : o ≠ .act .clear) :
    Follows entry (e.meet o) (e.arrive a o) := by
  cases o with
  | move =>
    have hlater : Follows entry { e with elapsed := e.elapsed + 1 } a :=
      ⟨h.stands, h.unbroken, h.silent⟩
    exact move_follows hlater hclears hlatched
  | act s => exact signal_follows h fun hs => ho (congrArg _ hs)
  | wake => exact wake_follows h
  | expire => exact expire_follows h
  | pass time => exact ⟨h.stands, h.unbroken, h.silent⟩

theorem through_follows (schedule : List Occurrence) (h : Follows entry e a)
    (hclears : entry.NeverClears) (hlatched : entry.cpu.Latched)
    (hschedule : .act .clear ∉ schedule) :
    Follows entry (e.through schedule) (e.arrivals a schedule) := by
  induction schedule generalizing e a with
  | nil => exact h
  | cons o schedule ih =>
    rw [List.mem_cons, not_or] at hschedule
    exact ih (meet_follows h hclears hlatched (Ne.symm hschedule.1)) hschedule.2

end Engine

theorem Engine.start_follows {m : Machine β}
    (hevaluator : ∀ evaluator, m.breakpoints = some evaluator → evaluator.Silent)
    (hreported : m.Settled ∨ m.Quiet) (options : RunOptions) :
    Follows m.resumed (Engine.start m options) .none := by
  obtain ⟨hbrk, -, hpc, hreportedPc, hlog, hobserver, hbreakpoints⟩ := m.resumed_fields
  have htracks : Machine.Tracks m.resumed m.resumed [] :=
    ⟨rfl, hlog, rfl, fun kind => by simp, .inl rfl⟩
  have hsettled : m.resumed.Settled ∨ m.resumed.Quiet := by
    rw [Machine.Settled, hpc, hreportedPc, Machine.Quiet, hobserver]
    exact hreported
  constructor
  · exact ⟨htracks, hbrk, hsettled⟩
  · intro j hj
    exact absurd hj (Nat.not_lt_zero j)
  · intro evaluator h
    exact hevaluator evaluator (hbreakpoints.symm.trans h)

/-- A run on flat memory ends where as many steps end as it has served boundaries, with every
request arriving at the same boundary, and it ends with a halt exactly when the last of these steps
halts. The last two conditions hold of every machine that nobody observes. -/
theorem run_eq_steps (m : Machine FlatMemory) (options : RunOptions)
    (schedule : List Occurrence) (result : Except Stall Outcome)
    (hfinished : ((Engine.start m options).through schedule).phase = .finished result)
    (hschedule : .act .clear ∉ schedule)
    (hevaluator : ∀ evaluator, m.breakpoints = some evaluator → evaluator.Silent)
    (htriggers : ∀ observer, m.observer = some observer →
      ∀ t ∈ observer.triggers, t.signal ≠ .clear)
    (hreported : m.Settled ∨ m.Quiet) :
    let arrivals := (Engine.start m options).arrivals .none schedule
    let last := m.resumed.steps arrivals.served
    ((Engine.start m options).through schedule).machine.architecture =
        (last.request arrivals.late).architecture ∧
      (∀ j < arrivals.served.length,
        (m.resumed.steps (arrivals.served.take j)).cpu.status.has .brk = false) ∧
      (∀ why, result = .ok (.halted why) ↔
        last.cpu.status.has .brk = true ∧ last.cpu.halt = some why) ∧
      arrivals.served.flatten ++ arrivals.late = schedule.filterMap Occurrence.request? := by
  intro arrivals last
  obtain ⟨hbrk, hhalt, -, -, -, hobserver, -⟩ := m.resumed_fields
  have hclears : m.resumed.NeverClears :=
    ⟨by rw [hobserver]; exact htriggers, fun _ _ _ h => by cases h⟩
  have hlatched : m.resumed.cpu.Latched := by
    rw [Cpu.Latched, hbrk, hhalt]
    rfl
  have hstart := Engine.start_follows hevaluator hreported options
  have hfollows := Engine.through_follows schedule hstart hclears hlatched hschedule
  have hstands := hfollows.stands
  rw [hfinished] at hstands
  refine ⟨hstands.1.architecture_eq, hfollows.unbroken, hstands.2, ?_⟩
  exact Engine.flatten_arrivals schedule (Engine.start m options) .none

/-- A controller that closes the gate and grants one step while a device requests an interrupt. -/
def singleStep : List Occurrence :=
  [.act .stop, .move, .move, .move, .act .step, .act .nmi, .wake, .move, .move, .move, .move]

theorem singleStep_finished :
    ((Engine.start (.powerOn FlatMemory.zeroed) ⟨none, 0⟩).through singleStep).phase =
      .finished (.ok (.halted .brk)) := by
  with_unfolding_all rfl

/-- The `BRK` at $0000 is the one step of the run, and the request waits for a second. -/
theorem run_eq_steps_singleStep :
    let m := Machine.powerOn FlatMemory.zeroed
    let arrivals := (Engine.start m ⟨none, 0⟩).arrivals .none singleStep
    arrivals = ⟨[[]], [], [.nmi]⟩ ∧
      ((Engine.start m ⟨none, 0⟩).through singleStep).machine.architecture =
        ((m.resumed.steps [[]]).request [.nmi]).architecture ∧
      (m.resumed.steps [[]]).cpu.halt = some .brk := by
  intro m arrivals
  have harrivals : arrivals = ⟨[[]], [], [.nmi]⟩ := by decide +kernel
  obtain ⟨harchitecture, -, hhalted, -⟩ := run_eq_steps m ⟨none, 0⟩ singleStep _
    singleStep_finished (by decide) (fun _ h => by cases h) (fun _ h => by cases h)
    (.inl (Machine.settled_powerOn _))
  change _ = ((m.resumed.steps arrivals.served).request arrivals.late).architecture at harchitecture
  change ∀ why, _ ↔ (m.resumed.steps arrivals.served).cpu.status.has .brk = true ∧
    (m.resumed.steps arrivals.served).cpu.halt = some why at hhalted
  rw [harrivals] at harchitecture hhalted
  exact ⟨harrivals, harchitecture, ((hhalted .brk).mp rfl).2⟩

end Nmos6502
