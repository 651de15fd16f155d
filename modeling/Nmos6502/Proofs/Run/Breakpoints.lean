import Nmos6502.Bus.Flat
import Nmos6502.Machine.Setup
import Nmos6502.Proofs.Cpu.Stable
import Nmos6502.Proofs.Interrupt.History
import Nmos6502.Proofs.Machine.Transfer
import Nmos6502.Proofs.Run.Marks

namespace Nmos6502

universe u

variable {β : Type u}

def Hit.ofInstruction (instruction : Word × Byte) : Hit where
  description := "PC == $" ++ Hex.ofWord instruction.1
  address := instruction.1
  value := Byte.toWord instruction.2

namespace Breakpoints

/-- What shows of an instruction: a hit if its address is in the set, and then the instruction. -/
def account (b : Breakpoints) (instruction : Word × Byte) : List Mark :=
  (if b.contains instruction.1 then [.published (.breakpoint (.ofInstruction instruction))]
    else []) ++ [.executed instruction.1 instruction.2]

def accounts (b : Breakpoints) (program : List (Word × Byte)) : List Mark :=
  program.flatMap b.account

def hits (b : Breakpoints) (program : List (Word × Byte)) : List Hit :=
  (program.filter fun instruction => b.contains instruction.1).map Hit.ofInstruction

theorem accounts_concat (b : Breakpoints) (program : List (Word × Byte))
    (instruction : Word × Byte) :
    b.accounts (program ++ [instruction]) = b.accounts program ++ b.account instruction := by
  simp [accounts]

theorem events_accounts (b : Breakpoints) (program : List (Word × Byte)) :
    (b.accounts program).filterMap Mark.event? = (b.hits program).map .breakpoint := by
  induction program with
  | nil => rfl
  | cons instruction program ih =>
    have haccount : (b.account instruction).filterMap Mark.event? =
        (b.hits [instruction]).map .breakpoint := by
      rw [account, hits]
      cases h : b.contains instruction.1 <;> simp [h, Mark.event?]
    have hhits : b.hits (instruction :: program) = b.hits [instruction] ++ b.hits program := by
      rw [← List.singleton_append, hits, List.filter_append, List.map_append]
      rfl
    rw [accounts, List.flatMap_cons, List.filterMap_append, haccount, hhits, List.map_append]
    exact congrArg _ ih

end Breakpoints

variable [Bus β]

namespace Cpu

/-- The instruction at the program counter: its address and its opcode. -/
def here (c : Cpu β) : Word × Byte :=
  (c.pc, Bus.read c.bus c.pc)

def afterInstructions (c : Cpu β) : Nat → Cpu β
  | 0 => { c with log := [] }
  | n + 1 => { (c.afterInstructions n).executeNext with log := [] }

/-- The first `n` instructions that the processor executes if it is not interrupted. -/
def trail (c : Cpu β) (n : Nat) : List (Word × Byte) :=
  (List.range n).map fun i => (c.afterInstructions i).here

theorem afterInstructions_log (c : Cpu β) (n : Nat) : (c.afterInstructions n).log = [] := by
  cases n <;> rfl

theorem trail_succ (c : Cpu β) (n : Nat) :
    c.trail (n + 1) = c.trail n ++ [(c.afterInstructions n).here] := by
  simp [trail, List.range_succ]

theorem executeNext_fetched (c : Cpu β) : c.executeNext.fetched = c.fetched + 1 := by
  have hact : ∀ (c : Cpu β) mode address operand mnemonic,
      (c.act mode address operand mnemonic).fetched = c.fetched := by
    intro c mode address operand mnemonic
    cases mnemonic <;> simp [act]
  cases h : Opcode.decode (Bus.read c.bus c.pc) with
  | none => simp [executeNext_of_undocumented c h]
  | some op => simp [executeNext_of_decode c h, execute, hact]

theorem afterInstructions_fetched (c : Cpu β) (n : Nat) :
    (c.afterInstructions n).fetched = c.fetched + n := by
  induction n with
  | zero => rfl
  | succ n ih =>
    change (c.afterInstructions n).executeNext.fetched = _
    rw [executeNext_fetched, ih, Nat.add_assoc]

theorem afterInstructions_latched {c : Cpu β} (h : c.Latched) (n : Nat) :
    (c.afterInstructions n).Latched := by
  induction n with
  | zero => exact h
  | succ n ih =>
    have hnext : (c.afterInstructions n).executeNext.Latched := stable_latched.executeNext ih
    exact hnext

end Cpu

/-- A set of addresses hits at its addresses, except right after a hit there. -/
theorem Machine.consult_of_addresses {m : Machine β} {b : Breakpoints}
    (h : m.breakpoints = some b.evaluator) :
    m.consult =
      if m.resumePc ≠ some m.cpu.pc ∧ b.contains m.cpu.pc = true then
        ({ m with resumePc := some m.cpu.pc }, some (.ofInstruction m.cpu.here))
      else ({ m with resumePc := none }, none) := by
  obtain ⟨cpu, lines, gate, observer, trace, breakpoints, resumePc⟩ := m
  obtain rfl : breakpoints = some b.evaluator := h
  have hask : ∀ s, b.evaluator.ask s = (⟨b.hit? s, none⟩, b.evaluator) := fun _ => rfl
  rw [consult]
  dsimp only
  rcases Decidable.em (resumePc = some cpu.pc) with hresume | hresume
  · simp [hresume]
  · cases hcontains : b.contains cpu.pc with
    | true =>
      have hhit :
          b.hit? (snapshot ⟨cpu, lines, gate, observer, trace, some b.evaluator, resumePc⟩) =
            some (.ofInstruction cpu.here) := if_pos hcontains
      simp [hresume, hask, hhit, Machine.signals]
    | false =>
      have hhit :
          b.hit? (snapshot ⟨cpu, lines, gate, observer, trace, some b.evaluator, resumePc⟩) =
            none := if_neg (by simp [snapshot, snapshotAt, hcontains])
      simp [hresume, hask, hhit, Machine.signals]

variable {b : Breakpoints} {start : Cpu β} {n : Nat} {e e' : Engine β} {m m' : Machine β}
  {told : List Mark}

/-- A hit at the program counter has paused the program. -/
structure Machine.Held (b : Breakpoints) (m : Machine β) : Prop where
  resumePc : m.resumePc = some m.cpu.pc
  contains : b.contains m.cpu.pc = true
  unbroken : m.cpu.status.has .brk = false

/-- What shows in a phase of a run that has executed `program`. -/
def Machine.Shows (b : Breakpoints) (program : List (Word × Byte)) (m : Machine β)
    (told : List Mark) : Phase → Prop
  | .boundary | .poll | .gate | .parked _ | .watch =>
    (m.resumePc = none ∧ m.cpu.status.has .brk = false ∧ told = b.accounts program) ∨
      (m.Held b ∧
        told = b.accounts program ++ [.published (.breakpoint (.ofInstruction m.cpu.here))])
  | .settle =>
    (m.resumePc = none ∧ told = b.accounts program) ∨
      (m.Held b ∧
        told = b.accounts program ++ [.published (.breakpoint (.ofInstruction m.cpu.here))])
  | .pausing hit | .notifying hit =>
    m.Held b ∧ hit = .ofInstruction m.cpu.here ∧ told = b.accounts program
  | .fetch =>
    m.resumePc = none ∧ told ++ [.executed m.cpu.here.1 m.cpu.here.2] =
      b.accounts program ++ b.account m.cpu.here
  | .announcing outcome => ∀ why, outcome = .halted why → told = b.accounts program
  | .finished result => ∀ why, result = .ok (.halted why) →
      told = b.accounts program ++ [.published (.finished (.halted why))]

theorem Machine.Shows.congr {program : List (Word × Byte)} {phase : Phase}
    (h : m.Shows b program told phase) (hpc : m'.cpu.pc = m.cpu.pc)
    (hbus : m'.cpu.bus = m.cpu.bus) (hstatus : m'.cpu.status = m.cpu.status)
    (hresume : m'.resumePc = m.resumePc) : m'.Shows b program told phase := by
  have hhere : m'.cpu.here = m.cpu.here := by rw [Cpu.here, hpc, hbus, Cpu.here]
  have hheld : m.Held b → m'.Held b := by
    intro hheld
    constructor
    · rw [hresume, hpc, hheld.resumePc]
    · rw [hpc, hheld.contains]
    · rw [hstatus, hheld.unbroken]
  cases phase with
  | boundary | poll | gate | parked _ | watch =>
    simp only [Shows, hhere, hresume, hstatus]
    exact h.imp_right fun hright => ⟨hheld hright.1, hright.2⟩
  | settle =>
    simp only [Shows, hhere, hresume]
    exact h.imp_right fun hright => ⟨hheld hright.1, hright.2⟩
  | pausing hit | notifying hit =>
    simp only [Shows, hhere]
    exact ⟨hheld h.1, h.2⟩
  | fetch =>
    simp only [Shows, hhere, hresume]
    exact h
  | announcing outcome | finished result => exact h

/-- A run from `start` has executed `n` instructions, and this is what shows of them. -/
structure Engine.Tells (b : Breakpoints) (start : Cpu β) (n : Nat) (e : Engine β)
    (told : List Mark) : Prop where
  breakpoints : e.machine.breakpoints = some b.evaluator
  cpu : ∃ reportedPc, e.machine.cpu =
    (start.afterInstructions n).transfer (fun bus => bus) reportedPc
  shows : e.machine.Shows b (start.trail n) told e.phase

theorem Machine.Shows.settle {program : List (Word × Byte)} (h : m.Shows b program told .watch) :
    m.Shows b program told .settle :=
  h.imp_left fun hleft => ⟨hleft.1, hleft.2.2⟩

namespace Engine

theorem Tells.stay {told' : List Mark} (h : e.Tells b start n told)
    (hbreakpoints : e'.machine.breakpoints = e.machine.breakpoints)
    (hcpu : e'.machine.cpu = e.machine.cpu)
    (hshows : e'.machine.Shows b (start.trail n) told' e'.phase) : e'.Tells b start n told' where
  breakpoints := hbreakpoints.trans h.breakpoints
  cpu := by
    rw [hcpu]
    exact h.cpu
  shows := hshows

theorem Tells.here_eq (h : e.Tells b start n told) :
    e.machine.cpu.here = (start.afterInstructions n).here := by
  obtain ⟨reportedPc, hcpu⟩ := h.cpu
  rw [hcpu]
  rfl

theorem askGate_tells (h : e.Tells b start n told) {closed : Phase}
    (hwatch : e.machine.Shows b (start.trail n) told .watch)
    (hclosed : e.machine.Shows b (start.trail n) told closed) :
    (e.askGate closed).Tells b start n told := by
  rw [askGate]
  split
  · exact h.stay rfl rfl (hwatch.congr rfl rfl rfl rfl)
  · exact h.stay rfl rfl (hwatch.settle.congr rfl rfl rfl rfl)
  · exact h.stay rfl rfl (hclosed.congr rfl rfl rfl rfl)

theorem wake_tells (h : e.Tells b start n told) : e.wake.Tells b start n told := by
  have hshows := h.shows
  rw [wake]
  split
  case h_2 => exact h
  case h_1 allowance hphase =>
    rw [hphase] at hshows
    exact askGate_tells h hshows hshows.settle

theorem expire_tells (h : e.Tells b start n told) : e.expire.Tells b start n told := by
  have hshows := h.shows
  rw [expire]
  split
  case h_2 => exact h
  case h_1 allowance hphase =>
    rw [hphase] at hshows
    refine askGate_tells (e := { e with elapsed := e.elapsed + allowance })
      (h.stay rfl rfl h.shows) hshows ?_
    split
    · intro why hwhy
      cases hwhy
    · exact hshows.settle

theorem pollMove_tells (h : e.Tells b start n told) (hphase : e.phase = .poll)
    (hnone : e.machine.accepted = none) : e.pollMove.Tells b start n told := by
  have hshows := h.shows
  rw [hphase] at hshows
  rw [pollMove, hnone]
  dsimp only
  split
  · exact h.stay rfl rfl hshows.settle
  · exact h.stay rfl rfl hshows

theorem watchMove_tells (h : e.Tells b start n told) (hphase : e.phase = .watch) :
    e.watchMove.Tells b start n told := by
  have hshows := h.shows
  rw [hphase] at hshows
  have hconsult := Machine.consult_of_addresses h.breakpoints
  rw [watchMove, hconsult]
  rcases hshows with ⟨hresume, hunbroken, htold⟩ | ⟨hheld, htold⟩
  -- The program has just arrived here, and the set alone decides.
  · cases hcontains : b.contains e.machine.cpu.pc with
    | true =>
      rw [if_pos ⟨by simp [hresume], rfl⟩]
      exact h.stay rfl rfl ⟨⟨rfl, hcontains, hunbroken⟩, rfl, htold⟩
    | false =>
      rw [if_neg (by simp)]
      refine h.stay rfl rfl ⟨rfl, ?_⟩
      have hcontains' : b.contains e.machine.cpu.here.1 = false := hcontains
      simp only [htold, Breakpoints.account, hcontains', Bool.false_eq_true, if_false,
        List.nil_append]
  -- The hit has been published. Its mark lets the instruction pass and is used up.
  · rw [if_neg (by simp [hheld.resumePc])]
    refine h.stay rfl rfl ⟨rfl, ?_⟩
    have hcontains : b.contains e.machine.cpu.here.1 = true := hheld.contains
    simp only [htold, Breakpoints.account, hcontains, if_true, List.append_assoc]

theorem fetchMove_tells (h : e.Tells b start n told) (hphase : e.phase = .fetch) :
    e.fetchMove.Tells b start (n + 1)
      (told ++ [.executed e.machine.cpu.here.1 e.machine.cpu.here.2]) := by
  have hshows := h.shows
  rw [hphase] at hshows
  obtain ⟨hresume, htold⟩ := hshows
  obtain ⟨reportedPc, hcpu⟩ := h.cpu
  constructor
  · simpa [fetchMove] using h.breakpoints
  · refine ⟨reportedPc, ?_⟩
    have hexecute := Cpu.transfer_executeNext Bus.Faithful.id (start.afterInstructions n) reportedPc
    simp only [fetchMove, Machine.perform_fields, hcpu, hexecute]
    rfl
  · refine .inl ⟨by simpa [fetchMove] using hresume, ?_⟩
    rw [Cpu.trail_succ, Breakpoints.accounts_concat, htold, h.here_eq]

theorem settleMove_tells (h : e.Tells b start n told) (hlatched : start.Latched)
    (hphase : e.phase = .settle) : e.settleMove.Tells b start n told := by
  have hshows := h.shows
  rw [hphase] at hshows
  have hlast := Cpu.afterInstructions_latched hlatched n
  have hbreakpoints : (e.machine.perform Cpu.reportPc).breakpoints = some b.evaluator := by
    simpa using h.breakpoints
  have hcpu : (e.machine.perform Cpu.reportPc).cpu =
      (start.afterInstructions n).transfer (fun bus => bus) e.machine.cpu.pc := by
    obtain ⟨reportedPc, hcpu⟩ := h.cpu
    have hlog := start.afterInstructions_log n
    rw [Machine.perform_reportPc_cpu, hcpu, Cpu.transfer, Cpu.transfer, hlog]
  have hshows' : (e.machine.perform Cpu.reportPc).Shows b (start.trail n) told .settle :=
    hshows.congr (by simp) (by simp) (by simp) (by simp)
  rw [settleMove]
  dsimp only
  generalize e.machine.perform Cpu.reportPc = m at hbreakpoints hcpu hshows' ⊢
  cases hbrk : m.cpu.status.has .brk with
  | true =>
    have hhalted : m.cpu.halt.isSome = true := by
      rw [hcpu] at hbrk ⊢
      exact hlast.symm.trans hbrk
    obtain ⟨why, hwhy⟩ := Option.isSome_iff_exists.mp hhalted
    have hsame : { m with cpu := { m.cpu with halt := some why } } = m := by
      rw [← hwhy]
    simp only [if_true, hwhy, Option.getD_some, hsame]
    refine ⟨hbreakpoints, ⟨_, hcpu⟩, fun _ _ => ?_⟩
    -- A program that is held has executed nothing that could halt it.
    rcases hshows' with ⟨-, htold⟩ | ⟨hheld, -⟩
    · exact htold
    · exact absurd hbrk (by simp [hheld.unbroken])
  | false =>
    simp only [Bool.false_eq_true, if_false]
    cases e.overdue with
    | true =>
      refine ⟨hbreakpoints, ⟨_, hcpu⟩, ?_⟩
      intro why hwhy
      cases hwhy
    | false =>
      refine ⟨hbreakpoints, ⟨_, hcpu⟩, ?_⟩
      exact hshows'.imp_left fun hleft => ⟨hleft.1, hbrk, hleft.2⟩

theorem Tells.silent (h : e.Tells b start n told) : ∃ n', e.Tells b start n' (told ++ []) := by
  refine ⟨n, ?_⟩
  rw [List.append_nil]
  exact h

theorem move_tells (h : e.Tells b start n told) (hlatched : start.Latched)
    (hnone : e.machine.accepted = none) : ∃ n', e.move.Tells b start n' (told ++ e.moveMarks) := by
  have hshows := h.shows
  rw [move, moveMarks]
  cases hphase : e.phase with
  | fetch => exact ⟨n + 1, fetchMove_tells h hphase⟩
  | notifying hit =>
    rw [hphase] at hshows
    obtain ⟨hheld, rfl, htold⟩ := hshows
    refine ⟨n, h.stay rfl rfl (.inr ⟨⟨hheld.resumePc, hheld.contains, hheld.unbroken⟩, ?_⟩)⟩
    rw [htold]
  | announcing outcome =>
    rw [hphase] at hshows
    refine ⟨n, h.stay rfl rfl ?_⟩
    intro why hwhy
    cases hwhy
    rw [hshows why rfl]
  | boundary =>
    rw [hphase] at hshows
    refine Tells.silent (h.stay rfl rfl ?_)
    cases e.machine.gate.cancelled with
    | true =>
      intro why hwhy
      cases hwhy
    | false => exact hshows
  | gate =>
    rw [hphase] at hshows
    have hparked : e.machine.Shows b (start.trail n) told (.parked e.allowance) := hshows
    exact (askGate_tells h hshows hparked).silent
  | pausing hit =>
    rw [hphase] at hshows
    exact Tells.silent (h.stay rfl rfl (hshows.congr rfl rfl rfl rfl))
  | poll => exact (pollMove_tells h hphase hnone).silent
  | watch => exact (watchMove_tells h hphase).silent
  | settle => exact (settleMove_tells h hlatched hphase).silent
  | parked _ | finished _ => exact h.silent

theorem meet_tells (h : e.Tells b start n told) (hlatched : start.Latched)
    (hnone : e.machine.accepted = none) (o : Occurrence) :
    ∃ n', (e.meet o).Tells b start n' (told ++ e.occurrenceMarks o) := by
  cases o with
  | move =>
    have hlater : ({ e with elapsed := e.elapsed + 1 } : Engine β).Tells b start n told :=
      h.stay rfl rfl h.shows
    exact move_tells hlater hlatched hnone
  | act s => exact Tells.silent (h.stay rfl rfl (h.shows.congr rfl rfl rfl rfl))
  | wake => exact (wake_tells h).silent
  | expire => exact (expire_tells h).silent
  | pass time => exact Tells.silent (h.stay rfl rfl h.shows)

theorem through_tells (schedule : List Occurrence) (h : e.Tells b start n told)
    (hlatched : start.Latched) (hidle : ∀ kind, e.machine.lines.pending kind = false)
    (hrequests : ∀ kind, .requested kind ∉ e.scheduleEvents schedule) :
    ∃ n', (e.through schedule).Tells b start n' (told ++ e.marks schedule) := by
  induction schedule generalizing e n told with
  | nil => exact h.silent
  | cons o schedule ih =>
    obtain ⟨n', hmet⟩ := meet_tells h hlatched (Machine.accepted_of_idle hidle) o
    simp only [scheduleEvents, List.mem_append, not_or] at hrequests
    -- Without requests nothing is ever pending, and every poll goes on to the gate.
    have hidle' : ∀ kind, (e.meet o).machine.lines.pending kind = false := fun kind =>
      (e.meet_run o).idle (hidle kind) (hrequests kind).1
    have hrest := ih hmet hidle' fun kind => (hrequests kind).2
    rw [marks, ← List.append_assoc]
    exact hrest

theorem Tells.halted (h : e.Tells b start n told) {why : Halt}
    (hphase : e.phase = .finished (.ok (.halted why))) :
    told = b.accounts (start.trail n) ++ [.published (.finished (.halted why))] := by
  have hshows := h.shows
  rw [hphase] at hshows
  exact hshows why rfl

theorem start_tells {options : RunOptions} (hbreakpoints : m.breakpoints = some b.evaluator)
    (hresume : m.resumePc = none) :
    (Engine.start m options).Tells b (Engine.start m options).machine.cpu 0 [] := by
  constructor
  · simpa [Engine.start] using hbreakpoints
  · refine ⟨(Engine.start m options).machine.cpu.reportedPc, ?_⟩
    simp [Engine.start, Cpu.afterInstructions, Cpu.transfer]
  · exact .inl ⟨by simpa [Engine.start] using hresume, by simp [Engine.start], rfl⟩

end Engine

/-- A run that nobody interrupts and that ends with a halt publishes a hit for each instruction that
it executes at an address of the set, right before the instruction and with its opcode, and nothing
else but its end. The controller may let the program wait at a hit as long as it likes. -/
theorem breakpoints_fire_once (m : Machine β) (b : Breakpoints) (options : RunOptions)
    (schedule : List Occurrence) (why : Halt)
    (hidle : ∀ kind, m.lines.pending kind = false)
    (hrequests : ∀ kind,
      .requested kind ∉ (m.setBreakpoints (some b.evaluator)).deedEvents (.run options schedule))
    (hhalted : ((Engine.start (m.setBreakpoints (some b.evaluator)) options).through
      schedule).phase = .finished (.ok (.halted why))) :
    let first := Engine.start (m.setBreakpoints (some b.evaluator)) options
    let last := first.through schedule
    ∃ n, last.machine.cpu.fetched = m.cpu.fetched + n ∧
      first.marks schedule = b.accounts (first.machine.cpu.trail n) ++
        [.published (.finished (.halted why))] ∧
      last.machine.gate.mailboxes = m.gate.mailboxes.map fun box =>
        box.deliverAll ((b.hits (first.machine.cpu.trail n)).map .breakpoint ++
          [.finished (.halted why)]) := by
  intro first last
  rw [Machine.deedEvents] at hrequests
  simp only [List.mem_append, not_or] at hrequests
  have hidle' : ∀ kind, first.machine.lines.pending kind = false := by
    intro kind
    have hstart : Arbiter.Run (m.setBreakpoints (some b.evaluator)).arbiter
        (m.setBreakpoints (some b.evaluator)).startEvents first.machine.arbiter :=
      Machine.perform_run _ (by simp)
    exact hstart.idle (hidle kind) (hrequests kind).1
  have hlatched : first.machine.cpu.Latched := by
    simp [first, Engine.start, Cpu.Latched]
  obtain ⟨n, htells⟩ := Engine.through_tells schedule (Engine.start_tells rfl rfl) hlatched hidle'
    fun kind => (hrequests kind).2
  have hmarks : first.marks schedule = b.accounts (first.machine.cpu.trail n) ++
      [.published (.finished (.halted why))] := htells.halted hhalted
  refine ⟨n, ?_, hmarks, ?_⟩
  · obtain ⟨reportedPc, hcpu⟩ := htells.cpu
    have hfetched := first.machine.cpu.afterInstructions_fetched n
    have hfirst : first.machine.cpu.fetched = m.cpu.fetched := by
      simp [first, Engine.start, Machine.setBreakpoints]
    rw [← hfirst, ← hfetched]
    have hlast := congrArg Cpu.fetched hcpu
    exact hlast
  · have hboxes : first.machine.gate.mailboxes = m.gate.mailboxes :=
      Machine.mailboxes_perform _ _
    rw [Engine.mailboxes_through, hboxes, hmarks, List.filterMap_append, b.events_accounts]
    rfl

/-- A program at $0000 that counts up and branches back while there is no carry over, with one
subscriber. It runs its loop twice before the `BRK`. -/
def countingLoop : Machine FlatMemory :=
  let program := Bus.writeAll FlatMemory.zeroed 0x0000 [0xE8, 0xD0, 0xFD]
  let m := (Machine.powerOn program).setRegister .x 0xFE
  { m with gate := m.gate.subscribe.1 }

/-- A controller lets the program go on after each of two hits. -/
def twoHits : List Occurrence :=
  .replicate 10 .move ++ [.act .go, .wake] ++ .replicate 19 .move ++ [.act .go, .wake] ++
    .replicate 16 .move

theorem breakpoints_fire_once_countingLoop :
    ((Engine.start (countingLoop.setBreakpoints (some (Breakpoints.mk [0x0000]).evaluator))
      ⟨none, 0⟩).through twoHits).machine.gate.mailboxes =
        [⟨true, [.breakpoint ⟨"PC == $0000", 0x0000, 0xE8⟩,
          .breakpoint ⟨"PC == $0000", 0x0000, 0xE8⟩, .finished (.halted .brk)]⟩] := by
  have hidle : ∀ kind, countingLoop.lines.pending kind = false := by
    rintro (_ | _)
    · decide +kernel
    · decide +kernel
  have hrequests : ∀ kind, .requested kind ∉ (countingLoop.setBreakpoints
      (some (Breakpoints.mk [0x0000]).evaluator)).deedEvents (.run ⟨none, 0⟩ twoHits) := by
    rintro (_ | _)
    · decide +kernel
    · decide +kernel
  obtain ⟨n, hfetched, -, hboxes⟩ := breakpoints_fire_once countingLoop ⟨[0x0000]⟩ ⟨none, 0⟩
    twoHits .brk hidle hrequests (by decide +kernel)
  have hcount : ((Engine.start (countingLoop.setBreakpoints
      (some (Breakpoints.mk [0x0000]).evaluator)) ⟨none, 0⟩).through
        twoHits).machine.cpu.fetched = countingLoop.cpu.fetched + 5 := by
    decide +kernel
  rw [hcount, Nat.add_left_cancel_iff] at hfetched
  rw [hboxes, ← hfetched]
  decide +kernel

end Nmos6502
