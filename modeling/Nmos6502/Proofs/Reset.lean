import Nmos6502.Proofs.Cpu.Frame
import Nmos6502.Proofs.Interrupt.Mirror
import Nmos6502.Proofs.Run.Tracking

/-!
However a machine has come to where it is, a reset leaves its processor and its lines as they are in
a machine just switched on over the same memory. What is attached stays attached: an observer goes
on seeing changes and may ask for interrupts, and that is all in which the two can differ.
-/

namespace Nmos6502

universe u

variable {β : Type u}

theorem Status.ext_has {s t : Status} (h : ∀ flag, s.has flag = t.has flag) : s = t := by
  obtain ⟨bits⟩ := s
  obtain ⟨bits'⟩ := t
  refine congrArg Status.mk (BitVec.eq_of_getLsbD_eq fun i hi => ?_)
  obtain ⟨flag, rfl⟩ := Flag.exists_index hi
  have hflag := h flag
  rwa [Status.has_eq_getLsbD, Status.has_eq_getLsbD] at hflag

namespace Cpu

variable [Bus β]

theorem steady_unused : Steady fun c : Cpu β => c.status.has .unused = true where
  assign c what value _ hwhat hc := by rwa [c.assign_status what _ hwhat]
  setFlag c flag on hc := by
    by_cases hflag : flag = .unused
    · subst hflag
      exact hc
    · rwa [c.setFlag_has _ _ hflag, if_neg (Ne.symm hflag)]
  halt c halt hc := hc
  reportPc c hc := by simpa using hc
  store c address value hc := by simpa using hc
  pc c target hc := hc
  servicing c on hc := hc
  counters c fetched undocumented hc := hc

theorem reset_status (c : Cpu β) (hunused : c.status.has .unused = true) :
    c.reset.status = .reset := by
  refine Status.ext_has fun flag => ?_
  have hflags : c.reset.status.has flag =
      if flag = .brk then false
      else if flag ∈ loadedFlags then (Status.mk Status.reset.bits).has flag
      else c.status.has flag := by
    simp [reset, setPc, setStatus_has]
  rw [hflags]
  cases flag with
  | unused => exact hunused
  | _ => rfl

theorem reset_eq_powerOn (c : Cpu β) (hunused : c.status.has .unused = true) :
    { c.reset with log := [] } = powerOn c.bus := by
  have hfields : c.reset.a = 0 ∧ c.reset.x = 0 ∧ c.reset.y = 0 ∧ c.reset.sp = 0xFF ∧
      c.reset.pc = Bus.readWord c.bus resetVector ∧ c.reset.bus = c.bus ∧
      c.reset.servicing = false ∧ c.reset.halt = none ∧ c.reset.fetched = 0 ∧
      c.reset.undocumented = 0 ∧ c.reset.reportedPc = Bus.readWord c.bus resetVector := by
    simp [reset, setPc]
  simp only [powerOn, hfields, c.reset_status hunused]

end Cpu

namespace Machine

/-- Bit 5 of the status register is set, as it is after power-on. -/
def KeepsUnused (m : Machine β) : Prop :=
  m.cpu.status.has .unused = true

variable [Bus β]

theorem invariant_keepsUnused : Invariant (KeepsUnused (β := β)) where
  perform {m} h task := by
    rw [KeepsUnused, (m.perform_fields _).1]
    exact Cpu.steady_unused.run task h
  signal h _ := h
  acknowledge h _ := h
  setGate h _ := h
  setHalt h _ := h
  setBreakpoints h _ := h
  setResumePc h _ := h

end Machine

namespace Workbench

variable [Bus β]

/-- Flags are set and cleared one at a time. -/
def Operation.namesOneFlag : Operation → Bool
  | .setFlags mask _ => (Flag.ofMask? mask).isSome
  | .command _ | .attachLines _ | .observe _ | .requestIrq | .awaitIrq | .powerCycle | .peek _ _
  | .readWord _ | .writeWord _ _ | .load _ => true

/-- What can come of a workbench that is switched on and then used in any way, but for assignments
to several flags at once. -/
inductive Reachable : Workbench β → Prop where
  | powerOn (bus : β) (labels : LabelTable) : Reachable (Workbench.powerOn bus labels)
  | operate {b : Workbench β} {operation : Operation} (h : Reachable b)
      (hone : operation.namesOneFlag = true) : Reachable (b.operate operation)
  | useGate {b : Workbench β} (h : Reachable b) (gate : Gate) :
      Reachable { b with machine := { b.machine with gate := gate } }

theorem Operation.mask_of_namesOneFlag {mask : Byte} {on : Bool}
    (h : (Operation.setFlags mask on).namesOneFlag = true) : ∃ flag : Flag, mask = flag.mask := by
  obtain ⟨flag, hflag⟩ := Option.isSome_iff_exists.mp h
  have hmask : flag.mask = mask := by simpa using List.find?_some hflag
  exact ⟨flag, hmask.symm⟩

variable {b : Workbench β}

theorem Reachable.after (h : Reachable b) {operations : List Operation}
    (hone : ∀ operation ∈ operations, operation.namesOneFlag = true) :
    Reachable (b.after operations) := by
  induction operations generalizing b with
  | nil => exact h
  | cons operation operations ih =>
    rw [List.forall_mem_cons] at hone
    exact ih (h.operate hone.1) hone.2

theorem Reachable.mirrors (h : Reachable b) : b.machine.Mirrors := by
  induction h with
  | powerOn bus labels => exact Machine.mirrors_powerOn bus
  | useGate h gate ih => exact ⟨ih.masked, ih.log⟩
  | @operate b operation h hone ih =>
    cases operation with
    | setFlags mask on =>
      obtain ⟨flag, rfl⟩ := Operation.mask_of_namesOneFlag hone
      change (b.machine.perform fun c => c.setFlags flag.mask on).Mirrors
      exact Machine.mirrors_perform_iff.mpr (ih.cpu.setFlag flag on)
    | _ => exact (mirrors_operate_iff ih _).mpr rfl

theorem Reachable.keepsUnused (h : Reachable b) : b.machine.KeepsUnused := by
  induction h with
  | powerOn bus labels => exact (by decide : Status.reset.has .unused = true)
  | useGate h gate ih => exact ih
  | @operate b operation h hone ih =>
    cases operation with
    | setFlags mask on =>
      -- A mask of several flags can reach bit 5; one that names a flag leaves it set.
      obtain ⟨flag, rfl⟩ := Operation.mask_of_namesOneFlag hone
      have hcpu := (b.machine.perform_fields fun c => c.setFlags flag.mask on).1
      exact (congrArg (·.status.has .unused) hcpu).trans (Cpu.steady_unused.setFlag _ flag on ih)
    | command command => exact Machine.invariant_keepsUnused.obey ih command
    | awaitIrq =>
      have hrequested : ({ b.machine with lines := b.machine.lines.request .irq }).KeepsUnused := ih
      exact Machine.invariant_keepsUnused.perform hrequested (.set (.flag .interruptDisable) 0)
    | powerCycle => exact (by decide : Status.reset.has .unused = true)
    | writeWord address value => exact Machine.invariant_keepsUnused.poke ih _ _
    | load calls =>
      change (b.load calls).machine.cpu.status.has .unused = true
      rw [load_machine, (Machine.foldl_notice_fields _ _).1]
      exact ih
    | attachLines lines | observe observer | requestIrq | peek address count | readWord address =>
      exact ih

end Workbench

theorem Lines.foldl_apply_filter (ss : List Signal) (l : Lines) :
    (ss.filter fun s => !s.movesGate).foldl apply l = ss.foldl apply l := by
  rw [List.foldl_filter]
  congr 1
  funext l s
  cases s <;> rfl

/-- What an observer asks of the interrupt lines when a change is shown to it. -/
def lineRequests (observer : Option Observer) (change : Change) : List Signal :=
  ((observer.map fun o => o.reactions change).getD []).filter fun s => !s.movesGate

theorem lineRequests_of_movesGate {observer : Observer}
    (h : ∀ t ∈ observer.triggers, t.signal.movesGate = true) :
    lineRequests (some observer) = lineRequests none := by
  funext change
  refine List.filter_eq_nil_iff.mpr fun s hs => ?_
  obtain ⟨t, ht, rfl⟩ := List.mem_map.mp hs
  simp [h t (List.mem_of_mem_filter ht)]

namespace Machine

theorem reset_eq_powerOn [Bus β] {m : Machine β} (hmirrors : m.Mirrors) (hunused : m.KeepsUnused) :
    m.reset.cpu = Cpu.powerOn m.cpu.bus ∧ m.reset.lines = .fresh := by
  have hcpu : m.reset.cpu = { m.cpu.reset with log := [] } := (m.perform_fields Cpu.reset).1
  have hpower := m.cpu.reset_eq_powerOn hunused
  -- Clearing the lines leaves their mask alone; setting the flag before has told them of it.
  have hmasked : m.reset.lines.masked = true := by
    have hlearned := (invariant_mirrors.obey hmirrors .reset).masked
    rw [obey, hcpu, hpower] at hlearned
    exact hlearned.trans (by decide : Status.reset.has .interruptDisable = true)
  exact ⟨hcpu.trans hpower, congrArg (Lines.mk false false) hmasked⟩

/-- Two machines with the same processor and the same lines, whose observers ask the same of the
lines. -/
structure Akin (m n : Machine β) : Prop where
  cpu : m.cpu = n.cpu
  lines : m.lines = n.lines
  requests : lineRequests m.observer = lineRequests n.observer

theorem reveal_lines (m : Machine β) (change : Change) :
    (m.reveal change).lines = (lineRequests m.observer change).foldl Lines.apply m.lines := by
  rw [lineRequests, Lines.foldl_apply_filter, reveal]
  cases m.observer with
  | none => rfl
  | some observer => simp

namespace Akin

variable {m n : Machine β}

theorem tellLines (h : Akin m n) (change : Change) :
    (m.tellLines change).lines = (n.tellLines change).lines := by
  rw [Machine.tellLines, Machine.tellLines]
  split
  · rw [h.lines]
  · exact h.lines

theorem notice (h : Akin m n) (entry : Happening) : Akin (m.notice entry) (n.notice entry) := by
  refine ⟨?_, ?_, ?_⟩
  · rw [(m.notice_fields entry).1, (n.notice_fields entry).1, h.cpu]
  · cases entry with
    | stored entry => simp [Machine.notice, h.lines]
    | changed change =>
      rw [Machine.notice, Machine.notice, reveal_lines, reveal_lines, h.tellLines,
        (m.tellLines_fields change).2.2.1, (n.tellLines_fields change).2.2.1, h.requests]
  · rw [(m.notice_fields entry).2.1, (n.notice_fields entry).2.1, h.requests]

theorem notices (h : Akin m n) (log : List Happening) :
    Akin (log.foldl Machine.notice m) (log.foldl Machine.notice n) := by
  induction log generalizing m n with
  | nil => exact h
  | cons entry log ih => exact ih (h.notice entry)

theorem perform (h : Akin m n) (operation : Cpu β → Cpu β) :
    Akin (m.perform operation) (n.perform operation) := by
  have hrelieved : Akin { m with cpu := { operation m.cpu with log := [] } }
      { n with cpu := { operation n.cpu with log := [] } } :=
    ⟨congrArg (fun c => { operation c with log := [] }) h.cpu, h.lines, h.requests⟩
  have hlog : (operation m.cpu).log = (operation n.cpu).log := by rw [h.cpu]
  have hnoticed := hrelieved.notices (operation m.cpu).log
  rw [hlog] at hnoticed
  rw [Machine.perform, hlog]
  exact hnoticed

theorem accepted (h : Akin m n) : m.accepted = n.accepted := by
  rw [Machine.accepted, Machine.accepted, h.cpu, h.lines]

theorem withLines (h : Akin m n) (f : Lines → Lines) :
    Akin { m with lines := f m.lines } { n with lines := f n.lines } :=
  ⟨h.cpu, congrArg f h.lines, h.requests⟩

variable [Bus β]

theorem step (h : Akin m n) : Akin m.step n.step := by
  rw [Machine.step, Machine.step, h.accepted]
  cases n.accepted with
  | none => exact (h.perform _).perform _
  | some kind => exact ((h.withLines (·.acknowledge kind)).perform _).perform _

theorem poke (h : Akin m n) (address : Word) (values : List Byte) :
    Akin (m.poke address values) (n.poke address values) := by
  induction values generalizing m n address with
  | nil => exact h
  | cons value values ih => exact ih (h.perform _) _

theorem reset (h : Akin m n) : Akin m.reset n.reset := by
  obtain ⟨hcpu, hlines, hrequests⟩ := (h.perform Cpu.reset).withLines Lines.clear
  exact ⟨hcpu, hlines, hrequests⟩

end Akin

end Machine

namespace Workbench

/-- Runs look at the gate and at breakpoints; nothing else that is done at a workbench does. -/
def Operation.runs : Operation → Bool
  | .command (.deed (.run _ _)) => true
  | _ => false

/-- Two workbenches with the same labels and machines that are akin. -/
structure Akin (b b' : Workbench β) : Prop where
  machine : b.machine.Akin b'.machine
  labels : b.labels = b'.labels

namespace Akin

variable {b b' : Workbench β}

theorem memory (h : Akin b b') : b.memory = b'.memory :=
  congrArg Cpu.bus h.machine.cpu

variable [Bus β]

theorem load (h : Akin b b') (calls : List Loader.Call) : Akin (b.load calls) (b'.load calls) := by
  obtain ⟨hcpu, hlines, hrequests⟩ := h.machine
  constructor
  · simp only [load_machine, h.memory, h.labels]
    generalize ((Loader.start b'.memory b'.labels).after calls).finish = ended
    have hlaid : Machine.Akin { b.machine with cpu := { b.machine.cpu with bus := ended.bus } }
        { b'.machine with cpu := { b'.machine.cpu with bus := ended.bus } } :=
      ⟨congrArg (fun c => { c with bus := ended.bus }) hcpu, hlines, hrequests⟩
    exact hlaid.notices _
  · rw [Workbench.load, Workbench.load, h.memory, h.labels]

theorem operate (h : Akin b b') {operation : Operation} (hruns : operation.runs = false) :
    Akin (b.operate operation) (b'.operate operation) := by
  have hmachine := h.machine
  have hlabels := h.labels
  cases operation with
  | setFlags mask on => exact ⟨hmachine.perform (·.setFlags mask on), hlabels⟩
  | attachLines lines =>
    refine ⟨⟨hmachine.cpu, ?_, hmachine.requests⟩, hlabels⟩
    simp only [Workbench.operate, Machine.attachLines, hmachine.cpu]
  | observe observer =>
    exact ⟨⟨hmachine.cpu, hmachine.lines, rfl⟩, hlabels⟩
  | requestIrq => exact ⟨hmachine.withLines (·.request .irq), hlabels⟩
  | awaitIrq =>
    have hrequested := hmachine.withLines (·.request .irq)
    exact ⟨hrequested.perform (·.setRegister (.flag .interruptDisable) 0), hlabels⟩
  | powerCycle =>
    refine ⟨⟨?_, rfl, rfl⟩, hlabels⟩
    exact congrArg (fun c => Cpu.powerOn c.bus) hmachine.cpu
  | writeWord address value => exact ⟨hmachine.poke _ _, hlabels⟩
  | peek address count | readWord address => exact ⟨hmachine, hlabels⟩
  | load calls => exact h.load calls
  | command command =>
    cases command with
    | attach evaluator => exact ⟨⟨hmachine.cpu, hmachine.lines, hmachine.requests⟩, hlabels⟩
    | set register value => exact ⟨hmachine.perform (·.setRegister register value), hlabels⟩
    | poke address values => exact ⟨hmachine.poke _ _, hlabels⟩
    | reset => exact ⟨hmachine.reset, hlabels⟩
    | deed deed =>
      cases deed with
      | act s =>
        obtain ⟨hcpu, hlines, hrequests⟩ := hmachine.withLines (·.apply s)
        exact ⟨⟨hcpu, hlines, hrequests⟩, hlabels⟩
      | step => exact ⟨hmachine.step, hlabels⟩
      | run options schedule => cases hruns

theorem answer (h : Akin b b') {operation : Operation} (hruns : operation.runs = false) :
    b.answer operation = b'.answer operation := by
  cases operation with
  | requestIrq => exact congrArg (fun l => Answer.ready l.requestIrq.2) h.machine.lines
  | awaitIrq =>
    have henabled : Akin (b.operate .awaitIrq) (b'.operate .awaitIrq) := h.operate rfl
    exact congrArg (fun l => Answer.ready !l.masked) henabled.machine.lines
  | peek address count => simp only [Workbench.answer, h.memory]
  | readWord address => simp only [Workbench.answer, h.memory]
  | load calls => simp only [Workbench.answer, h.memory, h.labels]
  | setFlags mask on | attachLines lines | observe observer | powerCycle
  | writeWord address value => rfl
  | command command =>
    cases command with
    | deed deed =>
      cases deed with
      | act s | step => rfl
      | run options schedule => cases hruns
    | attach evaluator | set register value | poke address values | reset => rfl

theorem after (h : Akin b b') {operations : List Operation}
    (hruns : ∀ operation ∈ operations, operation.runs = false) :
    Akin (b.after operations) (b'.after operations) := by
  induction operations generalizing b b' with
  | nil => exact h
  | cons operation operations ih =>
    rw [List.forall_mem_cons] at hruns
    exact ih (h.operate hruns.1) hruns.2

end Akin

variable [Bus β] {b : Workbench β}

/-- After a reset a machine is one just switched on over the same memory, with an observer that asks
the same of the interrupt lines as the one that the reset has left attached. Whatever is then done
at the two, except for runs, leaves the same processor and the same lines and is answered alike. -/
theorem reset_is_powerOn (hreachable : Reachable b) {observer : Option Observer}
    (hobserver : lineRequests observer = lineRequests b.machine.observer)
    (operations : List Operation) (hruns : ∀ operation ∈ operations, operation.runs = false) :
    let fresh : Workbench β := ⟨{ Machine.powerOn b.memory with observer := observer }, b.labels⟩
    let kept := (b.operate (.command .reset)).after operations
    kept.machine.cpu = (fresh.after operations).machine.cpu ∧
      kept.machine.lines = (fresh.after operations).machine.lines ∧
      ∀ operation, operation.runs = false →
        kept.answer operation = (fresh.after operations).answer operation := by
  intro fresh kept
  obtain ⟨hcpu, hlines⟩ := Machine.reset_eq_powerOn hreachable.mirrors hreachable.keepsUnused
  have hkept : b.machine.reset.observer = b.machine.observer :=
    (b.machine.perform_fields Cpu.reset).2.1
  have hasks : lineRequests b.machine.reset.observer = lineRequests fresh.machine.observer := by
    rw [hkept]
    exact hobserver.symm
  have hstart : Akin (b.operate (.command .reset)) fresh := ⟨⟨hcpu, hlines, hasks⟩, rfl⟩
  have hend := hstart.after hruns
  exact ⟨hend.machine.cpu, hend.machine.lines, fun operation h => hend.answer h⟩

/-- A workbench with a program that has halted, an interrupt pending and an observer that only
touches the gate. -/
def spent : Workbench FlatMemory :=
  (powerOn FlatMemory.zeroed .empty).after
    [.observe (some ⟨[⟨"A", 5, .go⟩]⟩), .command (.deed .step), .setFlags Flag.decimal.mask true,
      .command (.deed (.act .nmi))]

theorem reset_is_powerOn_spent :
    let operations := [Operation.command (.set .a 5), .command (.deed (.act .irq)),
      .setFlags Flag.interruptDisable.mask false, .command (.deed .step)]
    spent.machine.cpu.status.has .brk = true ∧ spent.machine.lines.nmi = true ∧
      ((spent.operate (.command .reset)).after operations).machine.cpu =
        ((powerOn spent.memory .empty).after operations).machine.cpu ∧
      ((powerOn spent.memory .empty).after operations).machine.cpu.servicing = true := by
  intro operations
  have hreachable : Reachable spent := .after (.powerOn _ _) (by decide)
  have hgate : ∀ t ∈ [Trigger.mk "A" 5 .go], t.signal.movesGate = true := by decide
  have hobserver : lineRequests none = lineRequests spent.machine.observer :=
    (lineRequests_of_movesGate hgate).symm
  obtain ⟨hcpu, -, -⟩ := reset_is_powerOn hreachable hobserver operations (by decide)
  exact ⟨by decide +kernel, by decide +kernel, hcpu, by decide +kernel⟩

/-- An observer outlives a reset, and with it what it asks for: here a non-maskable interrupt when X
becomes 5, which a machine just switched on is not asked for. -/
theorem observer_outlives_reset :
    let program := Bus.writeAll (Bus.writeAll FlatMemory.zeroed 0xFFFC [0x00, 0x02]) 0x0200
      [0xA2, 0x05]
    let b := (powerOn program .empty).operate (.observe (some ⟨[⟨"X", 5, .nmi⟩]⟩))
    Reachable b ∧
      ((b.operate (.command .reset)).operate (.command (.deed .step))).machine.lines.nmi = true ∧
      ((powerOn b.memory .empty).operate (.command (.deed .step))).machine.lines.nmi = false :=
  ⟨.operate (.powerOn _ _) rfl, by decide +kernel, by decide +kernel⟩

end Workbench

end Nmos6502
