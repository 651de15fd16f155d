import Nmos6502.Machine.Setup
import Nmos6502.Proofs.Run.Breakpoints

/-!
The mark that a hit leaves outlives its run, so that a later run may go on from there. Nothing that
a run does makes the mark stale. A single step leaves it as it is, though: a program that is stepped
away from a hit and back to it passes the breakpoint once without a hit.
-/

namespace Nmos6502

universe u

variable {β : Type u}

/-- Whether a run has executed an instruction here. -/
def Mark.byRun : Mark → Bool
  | .executed _ _ => true
  | .published _ | .stepped _ _ => false

/-- Whether an instruction has been executed here. -/
def Mark.isInstruction : Mark → Bool
  | .executed _ _ | .stepped _ _ => true
  | .published _ => false

def Mark.announces (pc : Word) : Mark → Bool
  | .published (.breakpoint hit) => hit.address == pc
  | .published (.finished _) | .executed _ _ | .stepped _ _ => false

/-- A hit at `pc` has been published since the last mark that ends. -/
def Announced (ends : Mark → Bool) (pc : Word) (told : List Mark) : Prop :=
  ∃ before hit later, told = before ++ .published (.breakpoint hit) :: later ∧
    hit.address = pc ∧ ∀ mark ∈ later, ends mark = false

namespace Announced

variable {ends : Mark → Bool} {pc : Word} {told more : List Mark}

theorem append (h : Announced ends pc told) (hmore : ∀ mark ∈ more, ends mark = false) :
    Announced ends pc (told ++ more) := by
  obtain ⟨before, hit, later, rfl, hpc, hlater⟩ := h
  refine ⟨before, hit, later ++ more, by simp, hpc, ?_⟩
  intro mark hmark
  rcases List.mem_append.mp hmark with hmark | hmark
  · exact hlater mark hmark
  · exact hmore mark hmark

theorem of_hit (hit : Hit) (told : List Mark) :
    Announced ends hit.address (told ++ [.published (.breakpoint hit)]) :=
  ⟨told, hit, [], rfl, rfl, by simp⟩

theorem congr {ends' : Mark → Bool} (h : Announced ends pc told)
    (hends : ∀ mark ∈ told, ends' mark = ends mark) : Announced ends' pc told := by
  obtain ⟨before, hit, later, rfl, hpc, hlater⟩ := h
  refine ⟨before, hit, later, rfl, hpc, ?_⟩
  intro mark hmark
  rw [hends mark (by simp [hmark])]
  exact hlater mark hmark

theorem not_nil : ¬ Announced ends pc [] := by
  rintro ⟨before, hit, later, h, -⟩
  simp at h

theorem cons_iff (mark : Mark) : Announced ends pc (mark :: told) ↔
    Announced ends pc told ∨ (mark.announces pc = true ∧ ∀ mark ∈ told, ends mark = false) := by
  constructor
  · rintro ⟨before, hit, later, htold, hpc, hlater⟩
    cases before with
    | nil =>
      obtain ⟨rfl, rfl⟩ := List.cons.inj htold
      exact .inr ⟨by simp [Mark.announces, hpc], hlater⟩
    | cons first before =>
      obtain ⟨rfl, rfl⟩ := List.cons.inj htold
      exact .inl ⟨before, hit, later, rfl, hpc, hlater⟩
  · rintro (⟨before, hit, later, rfl, hpc, hlater⟩ | ⟨hannounces, htold⟩)
    · exact ⟨mark :: before, hit, later, rfl, hpc, hlater⟩
    · cases mark with
      | published event =>
        cases event with
        | breakpoint hit =>
          have hpc : hit.address = pc := by simpa [Mark.announces] using hannounces
          exact ⟨[], hit, told, rfl, hpc, htold⟩
        | finished outcome => cases hannounces
      | executed pc opcode => cases hannounces
      | stepped pc opcode => cases hannounces

instance decidable (ends : Mark → Bool) (pc : Word) :
    (told : List Mark) → Decidable (Announced ends pc told)
  | [] => isFalse not_nil
  | mark :: told =>
    have := decidable ends pc told
    decidable_of_iff _ (cons_iff mark).symm

end Announced

namespace Machine

/-- The mark of the last hit is not stale. -/
def Remembers (told : List Mark) (m : Machine β) : Prop :=
  ∀ pc, m.resumePc = some pc → Announced Mark.byRun pc told

def Recalls (b : Breakpoints) (told : List Mark) (m : Machine β) : Phase → Prop
  | .pausing hit | .notifying hit => m.resumePc = some hit.address
  | .fetch =>
    m.resumePc = none ∧ (b.contains m.cpu.pc = true → Announced Mark.byRun m.cpu.pc told)
  | .boundary | .poll | .gate | .parked _ | .watch | .settle | .announcing _ | .finished _ =>
    m.Remembers told

variable {b : Breakpoints} {told more : List Mark} {m m' : Machine β}

theorem Remembers.congr (h : m.Remembers told) (hresume : m'.resumePc = m.resumePc) :
    m'.Remembers told := by
  intro pc hpc
  exact h pc (hresume.symm.trans hpc)

theorem Remembers.append (h : m.Remembers told) (hresume : m'.resumePc = m.resumePc)
    (hmore : ∀ mark ∈ more, mark.byRun = false) : m'.Remembers (told ++ more) := by
  intro pc hpc
  exact (h pc (hresume.symm.trans hpc)).append hmore

theorem Recalls.congr {phase : Phase} (h : m.Recalls b told phase) (hpc : m'.cpu.pc = m.cpu.pc)
    (hresume : m'.resumePc = m.resumePc) : m'.Recalls b told phase := by
  cases phase with
  | pausing hit | notifying hit => exact hresume.trans h
  | fetch =>
    rw [Recalls, hresume, hpc]
    exact h
  | boundary | poll | gate | parked _ | watch | settle | announcing _ | finished _ =>
    exact Remembers.congr h hresume

end Machine

namespace Engine

variable {b : Breakpoints} {told : List Mark} {e : Engine β}

theorem askGate_recalls {closed : Phase} (h : e.machine.Remembers told)
    (hclosed : e.machine.Recalls b told closed) :
    (e.askGate closed).machine.Recalls b told (e.askGate closed).phase := by
  rw [askGate]
  split
  · exact h
  · exact h
  · exact hclosed.congr rfl rfl

theorem settleMove_recalls (h : e.machine.Remembers told) :
    e.settleMove.machine.Recalls b told e.settleMove.phase := by
  have hresume : (e.machine.perform Cpu.reportPc).resumePc = e.machine.resumePc := by simp
  rw [settleMove]
  dsimp only
  split
  · exact h.congr hresume
  · cases e.overdue with
    | true => exact h.congr hresume
    | false => exact h.congr hresume

variable [Bus β]

theorem pollMove_recalls (h : e.machine.Remembers told) :
    e.pollMove.machine.Recalls b told e.pollMove.phase := by
  rw [pollMove]
  split
  case h_1 kind _ =>
    have hresume : (e.machine.enter kind).resumePc = e.machine.resumePc := by
      simp [Machine.enter]
    exact h.congr hresume
  case h_2 =>
    split
    · exact h
    · exact h

theorem watchMove_recalls (h : e.machine.Remembers told)
    (hbreakpoints : e.machine.breakpoints = some b.evaluator) :
    e.watchMove.machine.Recalls b told e.watchMove.phase := by
  have hconsult := Machine.consult_of_addresses hbreakpoints
  rw [watchMove, hconsult]
  rcases Decidable.em (e.machine.resumePc ≠ some e.machine.cpu.pc ∧
    b.contains e.machine.cpu.pc = true) with hhit | hpass
  · rw [if_pos hhit]
    rfl
  · rw [if_neg hpass]
    refine ⟨rfl, fun hcontains => h _ ?_⟩
    exact Decidable.byContradiction fun hresume => hpass ⟨hresume, hcontains⟩

theorem move_recalls (h : e.machine.Recalls b told e.phase)
    (hbreakpoints : e.machine.breakpoints = some b.evaluator) :
    e.move.machine.Recalls b (told ++ e.moveMarks) e.move.phase := by
  rw [move, moveMarks]
  cases hphase : e.phase with
  | boundary =>
    rw [hphase] at h
    rw [List.append_nil]
    cases e.machine.gate.cancelled with
    | true => exact h
    | false => exact h
  | poll =>
    rw [hphase] at h
    rw [List.append_nil]
    exact pollMove_recalls h
  | gate =>
    rw [hphase] at h
    rw [List.append_nil]
    exact askGate_recalls h h
  | watch =>
    rw [hphase] at h
    rw [List.append_nil]
    exact watchMove_recalls h hbreakpoints
  | pausing hit =>
    rw [hphase] at h
    exact h
  | notifying hit =>
    -- The mark was left before the hit was published, and now it is.
    rw [hphase] at h
    intro pc hpc
    have hresume : e.machine.resumePc = some hit.address := h
    obtain rfl : hit.address = pc := Option.some.inj (hresume.symm.trans hpc)
    exact Announced.of_hit hit told
  | fetch =>
    rw [hphase] at h
    intro pc hpc
    have hresume : e.fetchMove.machine.resumePc = none := by simpa [fetchMove] using h.1
    cases hresume.symm.trans hpc
  | settle =>
    rw [hphase] at h
    rw [List.append_nil]
    exact settleMove_recalls h
  | announcing outcome =>
    rw [hphase] at h
    exact Machine.Remembers.append h rfl (by simp [Mark.byRun])
  | parked _ | finished _ =>
    rw [List.append_nil, hphase]
    rw [hphase] at h
    exact h

theorem meet_recalls (h : e.machine.Recalls b told e.phase)
    (hbreakpoints : e.machine.breakpoints = some b.evaluator) (o : Occurrence) :
    (e.meet o).machine.Recalls b (told ++ e.occurrenceMarks o) (e.meet o).phase := by
  cases o with
  | move =>
    have hlater : ({ e with elapsed := e.elapsed + 1 } : Engine β).machine.Recalls b told
      e.phase := h
    exact move_recalls hlater hbreakpoints
  | act s =>
    rw [occurrenceMarks, List.append_nil]
    exact h.congr rfl rfl
  | pass time =>
    rw [occurrenceMarks, List.append_nil]
    exact h
  | wake =>
    rw [occurrenceMarks, List.append_nil, meet, wake]
    split
    case h_1 allowance hphase =>
      rw [hphase] at h
      exact askGate_recalls h h
    case h_2 => exact h
  | expire =>
    rw [occurrenceMarks, List.append_nil, meet, expire]
    split
    case h_1 allowance hphase =>
      rw [hphase] at h
      refine askGate_recalls (e := { e with elapsed := e.elapsed + allowance }) h ?_
      split
      · exact h
      · exact h
    case h_2 => exact h

theorem through_recalls (schedule : List Occurrence) (h : e.machine.Recalls b told e.phase)
    (hbreakpoints : e.machine.breakpoints = some b.evaluator) :
    (e.through schedule).machine.Recalls b (told ++ e.marks schedule)
      (e.through schedule).phase := by
  induction schedule generalizing e told with
  | nil =>
    rw [marks, List.append_nil]
    exact h
  | cons o schedule ih =>
    have hmet := ih (meet_recalls h hbreakpoints o)
      (breakpoints_meet_eq_ofVerdict_iff.mpr hbreakpoints)
    rw [marks, ← List.append_assoc]
    exact hmet

end Engine

/-- What the owner of a machine does with it. -/
inductive Command where
  /-- A run, a single step, or an action of a controller or device. -/
  | deed (deed : Deed)
  /-- Other breakpoints, or none. -/
  | attach (evaluator : Option Evaluator)
  | set (register : Register) (value : Int)
  | poke (address : Word) (values : List Byte)
  | reset

namespace Machine

variable {m : Machine β} {told : List Mark}

/-- The mark is not stale if the breakpoints are a set of addresses. -/
def Mindful (m : Machine β) (told : List Mark) : Prop :=
  ∀ b : Breakpoints, m.breakpoints = some b.evaluator → m.Remembers told

theorem Mindful.keep {m' : Machine β} {more : List Mark} (h : m.Mindful told)
    (hbreakpoints : m'.breakpoints = m.breakpoints) (hresume : m'.resumePc = m.resumePc)
    (hmore : ∀ mark ∈ more, mark.byRun = false) : m'.Mindful (told ++ more) := by
  intro b hb
  exact (h b (hbreakpoints.symm.trans hb)).append hresume hmore

theorem mindful_of_resumePc_none (h : m.resumePc = none) (told : List Mark) : m.Mindful told := by
  intro b _ pc hpc
  cases h.symm.trans hpc

theorem Mindful.start_recalls (h : m.Mindful told) {b : Breakpoints}
    (hb : m.breakpoints = some b.evaluator) (options : RunOptions) :
    (Engine.start m options).machine.Recalls b told .boundary := by
  have hresume : (Engine.start m options).machine.resumePc = m.resumePc := by
    simp [Engine.start]
  exact (h b hb).congr hresume

theorem start_breakpoints (m : Machine β) (options : RunOptions) :
    (Engine.start m options).machine.breakpoints = m.breakpoints := by
  simp [Engine.start]

variable [Bus β]

def obey (m : Machine β) : Command → Machine β
  | .deed deed => m.carryOut deed
  | .attach evaluator => m.setBreakpoints evaluator
  | .set register value => m.setRegister register value
  | .poke address values => m.poke address values
  | .reset => m.reset

def obeyAll (m : Machine β) (commands : List Command) : Machine β :=
  commands.foldl obey m

/-- A run comes to its end before the next command. -/
def Completes (m : Machine β) : Command → Prop
  | .deed (.run options schedule) =>
    ∃ result, ((Engine.start m options).through schedule).phase = .finished result
  | .deed (.act _) | .deed .step | .attach _ | .set _ _ | .poke _ _ | .reset => True

def CompletesAll (m : Machine β) : List Command → Prop
  | [] => True
  | command :: commands => m.Completes command ∧ (m.obey command).CompletesAll commands

instance decidableCompletes (m : Machine β) : (command : Command) → Decidable (m.Completes command)
  | .deed (.run options schedule) =>
    Phase.decidableFinished ((Engine.start m options).through schedule).phase
  | .deed (.act _) | .deed .step | .attach _ | .set _ _ | .poke _ _ | .reset => isTrue trivial

instance decidableCompletesAll (m : Machine β) :
    (commands : List Command) → Decidable (m.CompletesAll commands)
  | [] => isTrue trivial
  | command :: commands =>
    have := decidableCompletesAll (m.obey command) commands
    inferInstanceAs (Decidable (m.Completes command ∧ (m.obey command).CompletesAll commands))

def stepMarks (m : Machine β) : List Mark :=
  if m.accepted = none then [.stepped m.cpu.here.1 m.cpu.here.2] else []

def commandMarks (m : Machine β) : Command → List Mark
  | .deed .step => m.stepMarks
  | .deed (.run options schedule) => (Engine.start m options).marks schedule
  | .deed (.act _) | .attach _ | .set _ _ | .poke _ _ | .reset => []

def chronicle (m : Machine β) : List Command → List Mark
  | [] => []
  | command :: commands => m.commandMarks command ++ (m.obey command).chronicle commands

theorem poke_fields (m : Machine β) (address : Word) (values : List Byte) :
    (m.poke address values).breakpoints = m.breakpoints ∧
      (m.poke address values).resumePc = m.resumePc := by
  induction values generalizing m address with
  | nil => exact ⟨rfl, rfl⟩
  | cons value values ih =>
    obtain ⟨hbreakpoints, hresume⟩ := ih (m.perform fun c => c.store address value) (address + 1)
    exact ⟨hbreakpoints.trans (by simp), hresume.trans (by simp)⟩

theorem step_fields (m : Machine β) :
    m.step.breakpoints = m.breakpoints ∧ m.step.resumePc = m.resumePc := by
  rw [step]
  cases m.accepted with
  | none => simp
  | some kind => simp [enter]

theorem obey_mindful (h : m.Mindful told) {command : Command} (hcompletes : m.Completes command) :
    (m.obey command).Mindful (told ++ m.commandMarks command) := by
  cases command with
  | attach evaluator => exact mindful_of_resumePc_none rfl _
  | reset => exact mindful_of_resumePc_none rfl _
  | set register value =>
    have hkept : (m.setRegister register value).breakpoints = m.breakpoints ∧
        (m.setRegister register value).resumePc = m.resumePc := by
      simp [setRegister]
    exact h.keep hkept.1 hkept.2 (by simp [commandMarks])
  | poke address values =>
    exact h.keep (m.poke_fields address values).1 (m.poke_fields address values).2
      (by simp [commandMarks])
  | deed deed =>
    cases deed with
    | act s => exact h.keep rfl rfl (by simp [commandMarks])
    | step =>
      refine h.keep m.step_fields.1 m.step_fields.2 ?_
      rw [commandMarks, stepMarks]
      split
      · simp [Mark.byRun]
      · simp
    | run options schedule =>
      intro b hb
      have hstart : (Engine.start m options).machine.breakpoints = some b.evaluator :=
        (Engine.breakpoints_through_eq_ofVerdict_iff schedule).mp hb
      have hrecalls := Engine.through_recalls schedule
        (h.start_recalls ((m.start_breakpoints options).symm.trans hstart) options) hstart
      -- A run that were broken off between a hit and its publication would leave a stale mark.
      obtain ⟨result, hfinished⟩ := hcompletes
      rw [hfinished] at hrecalls
      exact hrecalls

theorem obeyAll_mindful (commands : List Command) (h : m.Mindful told)
    (hcompletes : m.CompletesAll commands) :
    (m.obeyAll commands).Mindful (told ++ m.chronicle commands) := by
  induction commands generalizing m told with
  | nil =>
    rw [chronicle, List.append_nil]
    exact h
  | cons command commands ih =>
    rw [chronicle, ← List.append_assoc]
    exact ih (obey_mindful h hcompletes.1) hcompletes.2

theorem isInstruction_of_mem_marks (schedule : List Occurrence) (e : Engine β) :
    ∀ mark ∈ e.marks schedule, mark.isInstruction = mark.byRun := by
  induction schedule generalizing e with
  | nil => simp [Engine.marks]
  | cons o schedule ih =>
    have hfirst : ∀ mark ∈ e.occurrenceMarks o, mark.isInstruction = mark.byRun := by
      cases o with
      | move =>
        rw [Engine.occurrenceMarks, Engine.moveMarks]
        cases e.phase <;> simp [Mark.isInstruction, Mark.byRun]
      | act _ | wake | expire | pass _ => simp [Engine.occurrenceMarks]
    intro mark hmark
    rcases List.mem_append.mp hmark with hmark | hmark
    · exact hfirst mark hmark
    · exact ih _ mark hmark

theorem isInstruction_of_mem_chronicle {commands : List Command} (h : .deed .step ∉ commands)
    (m : Machine β) : ∀ mark ∈ m.chronicle commands, mark.isInstruction = mark.byRun := by
  induction commands generalizing m with
  | nil => simp [chronicle]
  | cons command commands ih =>
    rw [List.mem_cons, not_or] at h
    have hfirst : ∀ mark ∈ m.commandMarks command, mark.isInstruction = mark.byRun := by
      cases command with
      | deed deed =>
        cases deed with
        | step => exact absurd rfl h.1
        | run options schedule => exact isInstruction_of_mem_marks schedule _
        | act _ => simp [commandMarks]
      | attach _ | set _ _ | poke _ _ | reset => simp [commandMarks]
    intro mark hmark
    rcases List.mem_append.mp hmark with hmark | hmark
    · exact hfirst mark hmark
    · exact ih h.2 _ mark hmark

end Machine

/-- When a run is about to execute an instruction at an address of the set, a hit at that address
has been published since the last instruction that a run has executed. Without single steps that is
the last instruction of all. -/
theorem hit_precedes_instruction [Bus β] (m : Machine β) (hresume : m.resumePc = none)
    (commands : List Command) (hcompletes : m.CompletesAll commands) (options : RunOptions)
    (schedule : List Occurrence) (b : Breakpoints)
    (hattached : (m.obeyAll commands).breakpoints = some b.evaluator) :
    let first := Engine.start (m.obeyAll commands) options
    let now := first.through schedule
    let told := m.chronicle commands ++ first.marks schedule
    now.phase = .fetch → b.contains now.machine.cpu.pc = true →
      Announced Mark.byRun now.machine.cpu.pc told ∧
        (.deed .step ∉ commands → Announced Mark.isInstruction now.machine.cpu.pc told) := by
  intro first now told hphase hcontains
  have hmindful := Machine.obeyAll_mindful commands
    (Machine.mindful_of_resumePc_none hresume []) hcompletes
  have hrecalls := Engine.through_recalls schedule (hmindful.start_recalls hattached options)
    ((Machine.start_breakpoints _ options).trans hattached)
  change now.machine.Recalls b told now.phase at hrecalls
  rw [hphase] at hrecalls
  have hannounced := hrecalls.2 hcontains
  refine ⟨hannounced, fun hstep => hannounced.congr fun mark hmark => ?_⟩
  rcases List.mem_append.mp hmark with hmark | hmark
  · exact Machine.isInstruction_of_mem_chronicle hstep m mark hmark
  · exact Machine.isInstruction_of_mem_marks schedule first mark hmark

/-- A program at $0000 that counts down from two. -/
def countdown : Machine FlatMemory :=
  (Machine.powerOn (Bus.writeAll FlatMemory.zeroed 0x0000 [0xCA, 0xD0, 0xFD])).setRegister .x 2

/-- A breakpoint at $0000 stops the program, and the run is cancelled there. -/
def cancelledAtHit : List Command :=
  [.attach (some (Breakpoints.mk [0x0000]).evaluator), .deed (.run ⟨none, 0⟩
    (.replicate 10 .move ++ [.act .cancel, .wake] ++ .replicate 3 .move))]

def reopened : List Command :=
  [.deed (.act .resetCancel), .deed (.act .go)]

/-- A later run goes on from the hit, whatever has been written in between. -/
theorem hit_precedes_instruction_reopened :
    let commands := cancelledAtHit ++ [.set .a 7, .poke 0x0000 [0xE8]] ++ reopened
    Announced Mark.isInstruction 0x0000 (countdown.chronicle commands ++
      (Engine.start (countdown.obeyAll commands) ⟨none, 0⟩).marks (.replicate 4 .move)) := by
  intro commands
  have hpc : ((Engine.start (countdown.obeyAll commands) ⟨none, 0⟩).through
      (.replicate 4 .move)).machine.cpu.pc = 0x0000 := by
    decide +kernel
  obtain ⟨-, hannounced⟩ := hit_precedes_instruction countdown (by decide +kernel) commands
    (by decide +kernel) ⟨none, 0⟩ (.replicate 4 .move) ⟨[0x0000]⟩ rfl (by decide +kernel)
    (by decide +kernel)
  rw [hpc] at hannounced
  exact hannounced (by simp [commands, cancelledAtHit, reopened])

/-- Two single steps lead away from the hit and back, and the next run is about to execute the
instruction at the breakpoint without another hit. -/
theorem breakpoint_passed_after_steps :
    let commands := cancelledAtHit ++ [.deed .step, .deed .step] ++ reopened
    let first := Engine.start (countdown.obeyAll commands) ⟨none, 0⟩
    let now := first.through (.replicate 4 .move)
    countdown.resumePc = none ∧ countdown.CompletesAll commands ∧
      (countdown.obeyAll commands).breakpoints = some (Breakpoints.mk [0x0000]).evaluator ∧
      now.phase = .fetch ∧ (Breakpoints.mk [0x0000]).contains now.machine.cpu.pc = true ∧
      ¬ Announced Mark.isInstruction now.machine.cpu.pc
        (countdown.chronicle commands ++ first.marks (.replicate 4 .move)) :=
  ⟨by decide +kernel, by decide +kernel, rfl, by decide +kernel, by decide +kernel,
    by decide +kernel⟩

end Nmos6502
