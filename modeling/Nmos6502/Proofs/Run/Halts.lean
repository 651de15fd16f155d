import Nmos6502.Bus.Flat
import Nmos6502.Proofs.Cpu.Faults
import Nmos6502.Proofs.Interchange

namespace Nmos6502

universe u

variable {β : Type u}

/-- The reason with which a run ends or has ended. -/
def Phase.reason? : Phase → Option Halt
  | .announcing (.halted why) | .finished (.ok (.halted why)) => some why
  | _ => none

namespace Machine

theorem meets_perform {m : Machine β} {operation : Cpu β → Cpu β} {faults : List Halt}
    (h : m.cpu.Meets faults (operation m.cpu)) : m.cpu.Meets faults (m.perform operation).cpu := by
  rw [(m.perform_fields operation).1]
  exact ⟨h.halt, h.latched⟩

theorem meets_reportPc (m : Machine β) : m.cpu.Meets [] (m.perform Cpu.reportPc).cpu :=
  meets_perform (.nothing (by simp) fun h => by simpa [Cpu.Latched] using h)

variable [Bus β]

theorem meets_enter (m : Machine β) (kind : Interrupt) :
    m.cpu.Meets (pushFaults 3 m.cpu.sp) (m.enter kind).cpu :=
  meets_perform (m := { m with lines := m.lines.acknowledge kind }) (m.cpu.meets_enter kind)

def faults (m : Machine β) : List Halt :=
  if m.accepted.isSome then pushFaults 3 m.cpu.sp else m.cpu.faults

theorem meets_step (m : Machine β) : m.cpu.Meets m.faults m.step.cpu := by
  rw [step, faults]
  cases m.accepted with
  | none =>
    have hexecuted := meets_perform m.cpu.meets_executeNext
    simpa using hexecuted.trans (meets_reportPc _)
  | some kind => simpa using (m.meets_enter kind).trans (meets_reportPc _)

end Machine

namespace Engine

/-- Between the iterations of a run there is no reason to halt, and at its end the outcome tells the
reason. -/
structure Poised (e : Engine β) : Prop where
  latched : e.machine.cpu.Latched
  named : e.phase ≠ .settle → e.machine.cpu.halt = e.phase.reason?

theorem poised_start [Bus β] (m : Machine β) (options : RunOptions) :
    (start m options).Poised := by
  constructor
  · simp [start, Cpu.Latched]
  · intro
    simp [start, Phase.reason?]

theorem askGate_reason? (e : Engine β) {closed : Phase} (hclosed : closed.reason? = none) :
    (e.askGate closed).phase.reason? = none := by
  rw [askGate]
  split
  · rfl
  · rfl
  · exact hclosed

namespace Poised

variable {e e' : Engine β}

theorem idle (h : e.Poised) {phase : Phase} (hphase : e.phase = phase)
    (hsettle : phase ≠ .settle) (hreason : phase.reason? = none) : e.machine.cpu.halt = none := by
  rw [h.named (by rwa [hphase]), hphase, hreason]

theorem quiet (h : e.Poised) (hcpu : e'.machine.cpu = e.machine.cpu)
    (hnone : e.machine.cpu.halt = none) (hreason : e'.phase.reason? = none) :
    e.machine.cpu.Meets [] e'.machine.cpu ∧ e'.Poised := by
  refine ⟨?_, ?_, ?_⟩
  · rw [hcpu]
    exact .refl _
  · rw [hcpu]
    exact h.latched
  · intro
    rw [hcpu, hnone, hreason]

theorem askGate (h : e.Poised) {closed : Phase} (hnone : e.machine.cpu.halt = none)
    (hclosed : closed.reason? = none) :
    e.machine.cpu.Meets [] (e.askGate closed).machine.cpu ∧ (e.askGate closed).Poised :=
  h.quiet (e.askGate_fields closed).1 hnone (e.askGate_reason? hclosed)

theorem wake (h : e.Poised) : e.machine.cpu.Meets [] e.wake.machine.cpu ∧ e.wake.Poised := by
  rw [Engine.wake]
  split
  case h_1 allowance hphase => exact h.askGate (h.idle hphase (by simp) rfl) rfl
  case h_2 => exact ⟨.refl _, h⟩

theorem expire (h : e.Poised) :
    e.machine.cpu.Meets [] e.expire.machine.cpu ∧ e.expire.Poised := by
  rw [Engine.expire]
  split
  case h_1 allowance hphase =>
    have hlater : ({ e with elapsed := e.elapsed + allowance } : Engine β).Poised :=
      ⟨h.latched, h.named⟩
    refine hlater.askGate (h.idle hphase (by simp) rfl) ?_
    split <;> rfl
  case h_2 => exact ⟨.refl _, h⟩

theorem settleMove (h : e.machine.cpu.Latched) :
    e.machine.cpu.Meets [] e.settleMove.machine.cpu ∧ e.settleMove.Poised := by
  have hreported := e.machine.meets_reportPc
  have hlatched := hreported.latched h
  rw [Engine.settleMove]
  dsimp only
  generalize e.machine.perform Cpu.reportPc = m at hreported hlatched
  rw [show m.cpu.status.has .brk = m.cpu.halt.isSome from hlatched]
  cases hhalt : m.cpu.halt with
  | none =>
    refine ⟨hreported, hlatched, fun _ => ?_⟩
    change m.cpu.halt = _
    rw [hhalt]
    cases e.overdue <;> rfl
  | some why =>
    have hsame : { m.cpu with halt := some why } = m.cpu := by rw [← hhalt]
    simp only [Option.isSome_some, if_true, Option.getD_some, hsame]
    exact ⟨hreported, hlatched, fun _ => hhalt⟩

end Poised

variable [Bus β]

def moveFaults (e : Engine β) : List Halt :=
  match e.phase with
  | .poll => if e.machine.accepted.isSome then pushFaults 3 e.machine.cpu.sp else []
  | .fetch => e.machine.cpu.faults
  | .boundary | .gate | .parked _ | .watch | .pausing _ | .notifying _ | .settle | .announcing _
  | .finished _ => []

def faults (e : Engine β) : Occurrence → List Halt
  | .move => e.moveFaults
  | .act _ | .wake | .expire | .pass _ => []

def scheduleFaults (e : Engine β) : List Occurrence → List Halt
  | [] => []
  | o :: schedule => e.faults o ++ (e.meet o).scheduleFaults schedule

namespace Poised

variable {e : Engine β}

theorem pollMove (h : e.Poised) (hphase : e.phase = .poll) :
    e.machine.cpu.Meets (if e.machine.accepted.isSome then pushFaults 3 e.machine.cpu.sp else [])
      e.pollMove.machine.cpu ∧ e.pollMove.Poised := by
  rw [Engine.pollMove]
  cases e.machine.accepted with
  | some kind =>
    have hmeets := e.machine.meets_enter kind
    exact ⟨hmeets, hmeets.latched h.latched, fun hne => absurd rfl hne⟩
  | none =>
    have hnone := h.idle hphase (by simp) rfl
    cases e.sleepLeft with
    | some left => exact h.quiet rfl hnone rfl
    | none => exact h.quiet rfl hnone rfl

theorem watchMove (h : e.Poised) (hphase : e.phase = .watch) :
    e.machine.cpu.Meets [] e.watchMove.machine.cpu ∧ e.watchMove.Poised := by
  refine h.quiet e.watchMove_fields.1 (h.idle hphase (by simp) rfl) ?_
  rw [Engine.watchMove]
  split <;> rfl

theorem move (h : e.Poised) :
    e.machine.cpu.Meets e.moveFaults e.move.machine.cpu ∧ e.move.Poised := by
  rw [Engine.move, moveFaults]
  cases hphase : e.phase with
  | settle => exact settleMove h.latched
  | finished result => exact ⟨.refl _, h⟩
  | parked allowance => exact ⟨.refl _, h⟩
  | poll => exact h.pollMove hphase
  | watch => exact h.watchMove hphase
  | gate => exact h.askGate (h.idle hphase (by simp) rfl) rfl
  | pausing hit => exact h.quiet rfl (h.idle hphase (by simp) rfl) rfl
  | notifying hit => exact h.quiet rfl (h.idle hphase (by simp) rfl) rfl
  | boundary =>
    refine h.quiet rfl (h.idle hphase (by simp) rfl) ?_
    dsimp only
    split <;> rfl
  | announcing outcome =>
    have hnamed := h.named (by simp [hphase])
    rw [hphase] at hnamed
    refine ⟨.refl _, h.latched, fun _ => ?_⟩
    cases outcome <;> exact hnamed
  | fetch =>
    have hmeets := Machine.meets_perform e.machine.cpu.meets_executeNext
    exact ⟨hmeets, hmeets.latched h.latched, fun hne => absurd rfl hne⟩

theorem meet (h : e.Poised) (o : Occurrence) :
    e.machine.cpu.Meets (e.faults o) (e.meet o).machine.cpu ∧ (e.meet o).Poised := by
  cases o with
  | wake => exact h.wake
  | expire => exact h.expire
  | act s => exact ⟨.refl _, h.latched, h.named⟩
  | pass time => exact ⟨.refl _, h.latched, h.named⟩
  | move =>
    have hlater : ({ e with elapsed := e.elapsed + 1 } : Engine β).Poised := ⟨h.latched, h.named⟩
    exact hlater.move

theorem through (schedule : List Occurrence) {e : Engine β} (h : e.Poised) :
    e.machine.cpu.Meets (e.scheduleFaults schedule) (e.through schedule).machine.cpu ∧
      (e.through schedule).Poised := by
  induction schedule generalizing e with
  | nil => exact ⟨.refl _, h⟩
  | cons o schedule ih =>
    obtain ⟨hfirst, hmet⟩ := h.meet o
    obtain ⟨hrest, hended⟩ := ih hmet
    exact ⟨hfirst.trans hrest, hended⟩

theorem executed_not_mem (schedule : List Occurrence) {e : Engine β} (h : e.Poised) {why : Halt}
    (hwhy : e.machine.cpu.halt = some why) (pc : Word) (opcode : Byte) :
    .executed pc opcode ∉ e.marks schedule := by
  induction schedule generalizing e with
  | nil => exact List.not_mem_nil
  | cons o schedule ih =>
    obtain ⟨hfirst, hmet⟩ := h.meet o
    rw [marks, List.mem_append, not_or]
    refine ⟨?_, ih hmet (hfirst.halt_of_some hwhy)⟩
    cases o with
    | act s | wake | expire | pass time => exact List.not_mem_nil
    | move =>
      rw [occurrenceMarks, moveMarks]
      cases hphase : e.phase with
      | fetch => exact absurd (h.idle hphase (by simp) rfl) (by simp [hwhy])
      | boundary | poll | gate | parked _ | watch | pausing _ | settle | finished _ => simp
      | notifying hit | announcing outcome => simp

theorem executed_not_mem_of_faults (h : e.Poised) {o : Occurrence} (hfaults : e.faults o ≠ [])
    (later : List Occurrence) (pc : Word) (opcode : Byte) :
    .executed pc opcode ∉ (e.meet o).marks later := by
  obtain ⟨hmeets, hmet⟩ := h.meet o
  obtain ⟨why, rest, hcons⟩ := List.exists_cons_of_ne_nil hfaults
  rw [hcons] at hmeets
  cases hhalt : e.machine.cpu.halt with
  | some first => exact hmet.executed_not_mem later (hmeets.halt_of_some hhalt) pc opcode
  | none =>
    have hwhy : (e.meet o).machine.cpu.halt = some why := by
      rw [hmeets.halt, hhalt]
      rfl
    exact hmet.executed_not_mem later hwhy pc opcode

end Poised

end Engine

namespace Engine

theorem halt_through_start [Bus β] (m : Machine β) (options : RunOptions)
    (schedule : List Occurrence) :
    ((start m options).through schedule).machine.cpu.halt =
      ((start m options).scheduleFaults schedule).head? := by
  have hnone : (start m options).machine.cpu.halt = none :=
    (poised_start m options).named (by simp [start])
  rw [((poised_start m options).through schedule).1.halt, hnone, Option.none_or]

end Engine

namespace Cpu

theorem meets_setFlags (c : Cpu β) {mask : Byte} (h : (Status.mk mask).has .brk = false)
    (on : Bool) : c.Meets [] (c.setFlags mask on) := by
  have hbit : mask.getLsbD Flag.brk.index = false := by
    rwa [Status.has_eq_getLsbD] at h
  have hassign : ∀ value, (c.assign (.flag mask) value).status.has .brk = c.status.has .brk := by
    intro value
    rw [assign]
    split
    · rfl
    · change (c.status.assign mask _).has .brk = _
      rw [Status.has_eq_getLsbD, Status.has_eq_getLsbD, Status.assign]
      split
      · rw [BitVec.getLsbD_or, hbit, Bool.or_false]
      · rw [BitVec.getLsbD_and, BitVec.getLsbD_not, hbit]
        simp [Flag.index]
  rw [setFlags]
  split
  · exact .refl c
  · exact .nothing (by simp) fun hc => by simpa [Latched, hassign] using hc

variable [Bus β]

theorem meets_setRegister (c : Cpu β) {register : Register} (h : register ≠ .flag .brk)
    (value : Int) : c.Meets [] (c.setRegister register value) := by
  refine .nothing ?_ fun hc => ?_
  · cases register <;> simp [setRegister, setPc]
  · cases register with
    | a => exact stable_latched.setA _ hc
    | x => exact stable_latched.setX _ hc
    | y => exact stable_latched.setY _ hc
    | sp => exact stable_latched.setSp _ hc
    | pc => simpa [setRegister, setPc, Latched] using hc
    | status => exact stable_latched.setStatus _ hc
    | flag flag => exact stable_latched.setFlag c flag _ (fun hflag => h (hflag ▸ rfl)) hc

theorem meets_store (c : Cpu β) (address : Word) (value : Byte) :
    c.Meets [] (c.store address value) :=
  .nothing (by simp) (stable_latched.store c address value)

end Cpu

theorem Machine.meets_poke [Bus β] (values : List Byte) (m : Machine β) (address : Word) :
    m.cpu.Meets [] (m.poke address values).cpu := by
  induction values generalizing m address with
  | nil => exact .refl _
  | cons value values ih =>
    have hstored : m.cpu.Meets [] (m.perform fun c => c.store address value).cpu :=
      meets_perform (m.cpu.meets_store address value)
    exact hstored.trans (ih _ _)

namespace Workbench

/-- The operation leaves the Break flag to the program. -/
def Operation.sparesBreak : Operation → Bool
  | .command (.set (.flag .brk) _) => false
  | .setFlags mask _ => !(Status.mk mask).has .brk
  | _ => true

/-- The operation begins by taking back the Break flag and the reason to halt. -/
def Operation.clears : Operation → Bool
  | .command .reset | .command (.deed (.run _ _)) | .powerCycle => true
  | _ => false

variable [Bus β]

def faults (b : Workbench β) : Operation → List Halt
  | .command (.deed .step) => b.machine.faults
  | .command (.deed (.run options schedule)) =>
    (Engine.start b.machine options).scheduleFaults schedule
  | _ => []

theorem meets_load (b : Workbench β) (calls : List Loader.Call) :
    b.machine.cpu.Meets [] (b.load calls).machine.cpu := by
  have hcpu : (b.load calls).machine.cpu =
      { b.machine.cpu with bus := ((Loader.start b.memory b.labels).after calls).finish.bus } := by
    rw [load_machine, (Machine.foldl_notice_fields _ _).1]
  rw [hcpu]
  exact .nothing rfl id

theorem meets_operate (b : Workbench β) {operation : Operation}
    (hspares : operation.sparesBreak = true) (hclears : operation.clears = false) :
    b.machine.cpu.Meets (b.faults operation) (b.operate operation).machine.cpu := by
  cases operation with
  | observe observer => exact .refl _
  | requestIrq => exact .refl _
  | attachLines lines => exact .refl _
  | peek address count => exact .refl _
  | readWord address => exact .refl _
  | powerCycle => cases hclears
  | load calls => exact b.meets_load calls
  | writeWord address value => exact b.machine.meets_poke _ _
  | setFlags mask on =>
    have hmask : (Status.mk mask).has .brk = false := by
      simpa [Operation.sparesBreak] using hspares
    exact Machine.meets_perform (b.machine.cpu.meets_setFlags hmask on)
  | awaitIrq =>
    exact Machine.meets_perform (m := { b.machine with lines := b.machine.lines.request .irq })
      (b.machine.cpu.meets_setRegister (by simp) 0)
  | command command =>
    cases command with
    | reset => cases hclears
    | attach evaluator => exact .refl _
    | poke address values => exact b.machine.meets_poke _ _
    | set register value =>
      refine Machine.meets_perform (b.machine.cpu.meets_setRegister (fun hregister => ?_) value)
      rw [hregister] at hspares
      cases hspares
    | deed deed =>
      cases deed with
      | run options schedule => cases hclears
      | act s => exact .refl _
      | step => exact b.machine.meets_step

theorem latched_reset (m : Machine β) : m.reset.cpu.Latched ∧ m.reset.cpu.halt = none := by
  have hcpu : m.reset.cpu = { m.cpu.reset with log := [] } := (m.perform_fields Cpu.reset).1
  rw [hcpu]
  constructor
  · simp [Cpu.Latched, Cpu.reset, Cpu.setPc]
  · rfl

theorem latched_operate_of_clears (b : Workbench β) {operation : Operation}
    (hclears : operation.clears = true) :
    (b.operate operation).machine.cpu.Latched ∧
      (b.operate operation).machine.cpu.halt = (b.faults operation).head? := by
  cases operation with
  | powerCycle => exact ⟨(by decide : Status.reset.has .brk = false), rfl⟩
  | observe _ | requestIrq | attachLines _ | peek _ _ | readWord _ | load _ | writeWord _ _
  | setFlags _ _ | awaitIrq => cases hclears
  | command command =>
    cases command with
    | reset => exact latched_reset b.machine
    | attach _ | poke _ _ | set _ _ => cases hclears
    | deed deed =>
      cases deed with
      | act _ | step => cases hclears
      | run options schedule =>
        exact ⟨(Engine.poised_start b.machine options).through schedule |>.2.latched,
          Engine.halt_through_start b.machine options schedule⟩

/-- The faults met since the Break flag was last taken back, if those before are `met`. -/
def faultsAfter (b : Workbench β) (met : List Halt) : List Operation → List Halt
  | [] => met
  | operation :: operations =>
    (b.operate operation).faultsAfter
      (if operation.clears then b.faults operation else met ++ b.faults operation) operations

theorem latched_after (operations : List Operation) {b : Workbench β} (met : List Halt)
    (hlatched : b.machine.cpu.Latched) (hfirst : b.machine.cpu.halt = met.head?)
    (hspares : ∀ operation ∈ operations, operation.sparesBreak = true) :
    (b.after operations).machine.cpu.Latched ∧
      (b.after operations).machine.cpu.halt = (b.faultsAfter met operations).head? := by
  induction operations generalizing b met with
  | nil => exact ⟨hlatched, hfirst⟩
  | cons operation operations ih =>
    have hrest : ∀ other ∈ operations, other.sparesBreak = true :=
      fun other hother => hspares other (List.mem_cons_of_mem _ hother)
    rw [faultsAfter]
    cases hclears : operation.clears with
    | true =>
      obtain ⟨hlatched', hfirst'⟩ := b.latched_operate_of_clears hclears
      exact ih _ hlatched' hfirst' hrest
    | false =>
      have hmeets := b.meets_operate (hspares operation List.mem_cons_self) hclears
      refine ih _ (hmeets.latched hlatched) ?_ hrest
      rw [hmeets.halt, hfirst, if_neg Bool.false_ne_true, List.head?_append]

/-- At a workbench where these faults have been met since the Break flag was last taken back, the
first of them is the reason to halt. -/
structure KeepsFirstFault (b : Workbench β) (met : List Halt) : Prop where
  brk : b.machine.cpu.status.has .brk = b.machine.cpu.halt.isSome
  first : b.machine.cpu.halt = met.head?
  /-- Only what clears takes a reason back. -/
  next : ∀ operation, operation.sparesBreak = true →
    (b.operate operation).machine.cpu.halt =
      if operation.clears then (b.faults operation).head?
      else b.machine.cpu.halt.or (b.faults operation).head?
  /-- The outcome of a run is the first fault of that run. -/
  outcome : ∀ options schedule why,
    ((Engine.start b.machine options).through schedule).phase = .finished (.ok (.halted why)) →
      ((Engine.start b.machine options).through schedule).machine.cpu.halt = some why ∧
        ((Engine.start b.machine options).scheduleFaults schedule).head? = some why
  /-- Nothing is executed after a fault. -/
  last : ∀ options before o later,
    ((Engine.start b.machine options).through before).faults o ≠ [] → ∀ pc opcode,
      .executed pc opcode ∉ (((Engine.start b.machine options).through before).meet o).marks later

/-- As long as nobody but the program handles the Break flag, it is set exactly when there is a
reason to halt, and that is the first fault since the last reset or the beginning of the last run.
-/
theorem keepsFirstFault_after (bus : β) (labels : LabelTable) (operations : List Operation)
    (hspares : ∀ operation ∈ operations, operation.sparesBreak = true) :
    ((powerOn bus labels).after operations).KeepsFirstFault
      ((powerOn bus labels).faultsAfter [] operations) := by
  have hstart : (powerOn bus labels).machine.cpu.Latched :=
    (by decide : Status.reset.has .brk = false)
  obtain ⟨hlatched, hfirst⟩ := latched_after operations [] hstart rfl hspares
  generalize (powerOn bus labels).after operations = b at hlatched hfirst ⊢
  refine ⟨hlatched, hfirst, ?_, ?_, ?_⟩
  · intro operation hoperation
    cases hclears : operation.clears with
    | true => exact (b.latched_operate_of_clears hclears).2
    | false => exact (b.meets_operate hoperation hclears).halt
  · intro options schedule why hphase
    have hended := (Engine.poised_start b.machine options).through schedule |>.2
    have hwhy := hended.named (by simp [hphase])
    rw [hphase] at hwhy
    exact ⟨hwhy, by rw [← Engine.halt_through_start, hwhy, Phase.reason?]⟩
  · intro options before o later hfaults pc opcode
    have htold := (Engine.poised_start b.machine options).through before |>.2
    exact htold.executed_not_mem_of_faults hfaults later pc opcode

/-- An `RTI` meets three faults on an empty stack and a call two on a full one. The first of the
five stays the reason to halt until the call is run once more. -/
theorem keepsFirstFault_after_underflow :
    let operations : List Operation := [.command (.poke 0 [0x40]), .command (.deed .step),
      .command (.set .sp 0), .command (.poke 0 [0x20, 0x00, 0x00]), .command (.deed .step)]
    let now := (powerOn FlatMemory.zeroed .empty).after operations
    now.machine.cpu.halt = some .stackUnderflow ∧
      ((Engine.start now.machine ⟨none, 0⟩).through (List.replicate 7 .move)).machine.cpu.halt =
        some .stackOverflow := by
  intro operations now
  have hnow := keepsFirstFault_after FlatMemory.zeroed .empty operations (by decide)
  have hmet : (powerOn FlatMemory.zeroed .empty).faultsAfter [] operations =
      List.replicate 3 .stackUnderflow ++ List.replicate 2 .stackOverflow := by
    decide +kernel
  refine ⟨?_, ?_⟩
  · rw [hnow.first, hmet]
    rfl
  · exact (hnow.outcome ⟨none, 0⟩ (List.replicate 7 .move) .stackOverflow (by decide +kernel)).1

end Workbench

end Nmos6502
