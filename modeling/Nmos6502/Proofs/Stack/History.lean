import Nmos6502.Proofs.Interrupt.History
import Nmos6502.Proofs.Run.Marks
import Nmos6502.Proofs.Stack.Use

/-!
The uses of the stack while a machine is stepped and run, with interrupts in between. As long as
nobody else writes into the stack page or loads the stack pointer, the page holds what has been
pushed and not pulled yet.
-/

namespace Nmos6502

universe u

variable {β : Type u}

namespace Machine

def stackUses [Bus β] (m : Machine β) : List StackUse :=
  if m.accepted.isSome then m.cpu.frameUses else m.cpu.stackUses

def leavesStack [Bus β] (m : Machine β) : Bool :=
  m.accepted.isSome || m.cpu.leavesStack

theorem uses_perform {m : Machine FlatMemory} {operation : Cpu FlatMemory → Cpu FlatMemory}
    {events : List StackEvent} (h : m.cpu.Uses events (operation m.cpu)) :
    m.cpu.Uses events (m.perform operation).cpu := by
  have hlog := (operation m.cpu).sparesStack_forgetLog
  rw [(m.perform_fields operation).1]
  simpa using h.trans hlog.uses

theorem uses_reportPc (m : Machine FlatMemory) : m.cpu.Uses [] (m.perform Cpu.reportPc).cpu := by
  have hreported : m.cpu.SparesStack m.cpu.reportPc :=
    Cpu.sparesStack_of_eq (by simp) (by simp)
  exact uses_perform hreported.uses

theorem uses_enter (m : Machine FlatMemory) (kind : Interrupt) :
    m.cpu.Uses (m.cpu.frameUses.flatMap StackUse.bytes) (m.enter kind).cpu :=
  uses_perform (m := { m with lines := m.lines.acknowledge kind }) (m.cpu.uses_enter kind)

theorem uses_step {m : Machine FlatMemory} (h : m.leavesStack = true) :
    m.cpu.Uses (m.stackUses.flatMap StackUse.bytes) m.step.cpu := by
  rw [step, stackUses]
  rw [leavesStack] at h
  cases haccepted : m.accepted with
  | none =>
    rw [haccepted] at h
    simpa using (uses_perform (m.cpu.uses_executeNext h)).trans (uses_reportPc _)
  | some kind => simpa using (m.uses_enter kind).trans (uses_reportPc _)

theorem works_perform {m : Machine FlatMemory} {operation : Cpu FlatMemory → Cpu FlatMemory}
    {stack : List Byte} {events : List StackEvent}
    (h : m.cpu.Works stack events (operation m.cpu)) :
    m.cpu.Works stack events (m.perform operation).cpu := by
  have hlog := (operation m.cpu).sparesStack_forgetLog
  rw [(m.perform_fields operation).1]
  exact h.goOn hlog.uses ⟨rfl, rfl⟩

theorem works_enter {m : Machine FlatMemory} {stack : List Byte} (hholds : m.cpu.Holds stack)
    (kind : Interrupt) :
    m.cpu.Works stack (m.cpu.frameUses.flatMap StackUse.bytes) (m.enter kind).cpu :=
  works_perform (m := { m with lines := m.lines.acknowledge kind }) (Cpu.works_enter hholds kind)

theorem works_step {m : Machine FlatMemory} {stack : List Byte} (hholds : m.cpu.Holds stack)
    (h : m.leavesStack = true) :
    m.cpu.Works stack (m.stackUses.flatMap StackUse.bytes) m.step.cpu := by
  have hreported : ∀ m : Machine FlatMemory, m.cpu.GoesOn (m.perform Cpu.reportPc).cpu := by
    intro m
    simp [Cpu.GoesOn]
  rw [step, stackUses]
  rw [leavesStack] at h
  cases haccepted : m.accepted with
  | none =>
    rw [haccepted] at h
    exact (works_perform (Cpu.works_executeNext hholds h)).goOn (uses_reportPc _) (hreported _)
  | some kind => exact (works_enter hholds kind).goOn (uses_reportPc _) (hreported _)

end Machine

namespace Engine

section

variable [Bus β]

def stackUses (e : Engine β) : Occurrence → List StackUse
  | .move =>
    match e.phase with
    | .poll => if e.machine.accepted.isSome then e.machine.cpu.frameUses else []
    | .fetch => e.machine.cpu.stackUses
    | _ => []
  | .act _ | .wake | .expire | .pass _ => []

def leavesStack (e : Engine β) : Occurrence → Bool
  | .move =>
    match e.phase with
    | .fetch => e.machine.cpu.leavesStack
    | _ => true
  | .act _ | .wake | .expire | .pass _ => true

def scheduleUses (e : Engine β) : List Occurrence → List StackUse
  | [] => []
  | o :: schedule => e.stackUses o ++ (e.meet o).scheduleUses schedule

def scheduleLeavesStack (e : Engine β) : List Occurrence → Bool
  | [] => true
  | o :: schedule => e.leavesStack o && (e.meet o).scheduleLeavesStack schedule

theorem scheduleUses_append (first second : List Occurrence) (e : Engine β) :
    e.scheduleUses (first ++ second) =
      e.scheduleUses first ++ (e.through first).scheduleUses second := by
  induction first generalizing e with
  | nil => rfl
  | cons o first ih =>
    simp only [List.cons_append, scheduleUses, ih, through_cons, List.append_assoc]

theorem scheduleLeavesStack_append (first second : List Occurrence) (e : Engine β) :
    e.scheduleLeavesStack (first ++ second) =
      (e.scheduleLeavesStack first && (e.through first).scheduleLeavesStack second) := by
  induction first generalizing e with
  | nil => rfl
  | cons o first ih =>
    simp only [List.cons_append, scheduleLeavesStack, ih, through_cons, Bool.and_assoc]

end

theorem uses_settleMove (e : Engine FlatMemory) :
    e.machine.cpu.Uses [] e.settleMove.machine.cpu := by
  have hreported := e.machine.uses_reportPc
  rw [settleMove]
  dsimp only
  generalize e.machine.perform Cpu.reportPc = m at hreported ⊢
  split
  · have hhalted : m.cpu.SparesStack { m.cpu with halt := some (m.cpu.halt.getD .brk) } :=
      Cpu.sparesStack_of_eq rfl rfl
    exact hreported.trans hhalted.uses
  · exact hreported

theorem uses_of_cpu_eq {e e' : Engine FlatMemory} (h : e'.machine.cpu = e.machine.cpu) :
    e.machine.cpu.Uses [] e'.machine.cpu := by
  rw [h]
  exact .refl _

theorem uses_pollMove (e : Engine FlatMemory) : e.machine.cpu.Uses
    ((if e.machine.accepted.isSome then e.machine.cpu.frameUses else []).flatMap StackUse.bytes)
    e.pollMove.machine.cpu := by
  rw [pollMove]
  cases e.machine.accepted with
  | some kind => exact e.machine.uses_enter kind
  | none =>
    cases e.sleepLeft with
    | some left => exact .refl _
    | none => exact .refl _

theorem works_pollMove {e : Engine FlatMemory} {stack : List Byte}
    (hholds : e.machine.cpu.Holds stack) : e.machine.cpu.Works stack
    ((if e.machine.accepted.isSome then e.machine.cpu.frameUses else []).flatMap StackUse.bytes)
    e.pollMove.machine.cpu := by
  have huses := e.uses_pollMove
  rw [pollMove] at huses ⊢
  cases haccepted : e.machine.accepted with
  | some kind => exact Machine.works_enter hholds kind
  | none =>
    rw [haccepted] at huses
    exact Cpu.works_of_uses_nil hholds huses

theorem uses_meet {e : Engine FlatMemory} {o : Occurrence} (h : e.leavesStack o = true) :
    e.machine.cpu.Uses ((e.stackUses o).flatMap StackUse.bytes) (e.meet o).machine.cpu := by
  cases o with
  | act s | pass time => exact .refl _
  | wake => exact uses_of_cpu_eq e.wake_fields.1
  | expire => exact uses_of_cpu_eq e.expire_fields.1
  | move =>
    obtain ⟨machine, options, elapsed, asleepUntil, phase⟩ := e
    cases phase with
    | poll => exact uses_pollMove ⟨machine, options, elapsed + 1, asleepUntil, .poll⟩
    | fetch => exact Machine.uses_perform (machine.cpu.uses_executeNext h)
    | settle => exact uses_settleMove ⟨machine, options, elapsed + 1, asleepUntil, .settle⟩
    | gate => exact uses_of_cpu_eq (askGate_fields _ _).1
    | watch => exact uses_of_cpu_eq (watchMove_fields _).1
    | boundary | parked _ | pausing _ | notifying _ | announcing _ | finished _ => exact .refl _

theorem works_meet {e : Engine FlatMemory} {o : Occurrence} {stack : List Byte}
    (hholds : e.machine.cpu.Holds stack) (h : e.leavesStack o = true) :
    e.machine.cpu.Works stack ((e.stackUses o).flatMap StackUse.bytes) (e.meet o).machine.cpu := by
  have huses := uses_meet h
  cases o with
  | act s | pass time | wake | expire => exact Cpu.works_of_uses_nil hholds huses
  | move =>
    obtain ⟨machine, options, elapsed, asleepUntil, phase⟩ := e
    cases phase with
    | fetch => exact Machine.works_perform (Cpu.works_executeNext hholds h)
    | poll => exact works_pollMove (e := ⟨machine, options, elapsed + 1, asleepUntil, .poll⟩) hholds
    | boundary | gate | watch | settle | parked _ | pausing _ | notifying _ | announcing _
    | finished _ => exact Cpu.works_of_uses_nil hholds huses

theorem uses_through (schedule : List Occurrence) {e : Engine FlatMemory}
    (h : e.scheduleLeavesStack schedule = true) :
    e.machine.cpu.Uses ((e.scheduleUses schedule).flatMap StackUse.bytes)
      (e.through schedule).machine.cpu := by
  induction schedule generalizing e with
  | nil => exact .refl _
  | cons o schedule ih =>
    obtain ⟨hfirst, hrest⟩ := Bool.and_eq_true_iff.mp h
    rw [scheduleUses, List.flatMap_append]
    exact (uses_meet hfirst).trans (ih hrest)

theorem uses_start (m : Machine FlatMemory) (options : RunOptions) :
    m.cpu.Uses [] (start m options).machine.cpu := by
  have hresumed : m.cpu.SparesStack ({ m.cpu with halt := none }.setFlag .brk false) :=
    Cpu.sparesStack_of_eq (by simp) (by simp)
  exact Machine.uses_perform hresumed.uses

end Engine

namespace Machine

section

variable [Bus β]

def deedUses (m : Machine β) : Deed → List StackUse
  | .act _ => []
  | .step => m.stackUses
  | .run options schedule => (Engine.start m options).scheduleUses schedule

def deedLeavesStack (m : Machine β) : Deed → Bool
  | .act _ => true
  | .step => m.leavesStack
  | .run options schedule => (Engine.start m options).scheduleLeavesStack schedule

/-- How a history uses the stack. -/
def historyUses (m : Machine β) : List Deed → List StackUse
  | [] => []
  | deed :: deeds => m.deedUses deed ++ (m.carryOut deed).historyUses deeds

/-- Nothing but pushes and pulls changes the stack pointer or the stack page in a history. -/
def historyLeavesStack (m : Machine β) : List Deed → Bool
  | [] => true
  | deed :: deeds => m.deedLeavesStack deed && (m.carryOut deed).historyLeavesStack deeds

theorem historyUses_append (first second : List Deed) (m : Machine β) :
    m.historyUses (first ++ second) =
      m.historyUses first ++ (m.after first).historyUses second := by
  induction first generalizing m with
  | nil => rfl
  | cons deed first ih =>
    simp only [List.cons_append, historyUses, ih, List.append_assoc]
    rfl

theorem historyLeavesStack_append (first second : List Deed) (m : Machine β) :
    m.historyLeavesStack (first ++ second) =
      (m.historyLeavesStack first && (m.after first).historyLeavesStack second) := by
  induction first generalizing m with
  | nil => rfl
  | cons deed first ih =>
    simp only [List.cons_append, historyLeavesStack, ih, Bool.and_assoc]
    rfl

end

theorem uses_carryOut {m : Machine FlatMemory} {deed : Deed} (h : m.deedLeavesStack deed = true) :
    m.cpu.Uses ((m.deedUses deed).flatMap StackUse.bytes) (m.carryOut deed).cpu := by
  cases deed with
  | act s => exact .refl _
  | step => exact uses_step h
  | run options schedule =>
    exact (Engine.uses_start m options).trans (Engine.uses_through schedule h)

theorem uses_after (deeds : List Deed) {m : Machine FlatMemory}
    (h : m.historyLeavesStack deeds = true) :
    m.cpu.Uses ((m.historyUses deeds).flatMap StackUse.bytes) (m.after deeds).cpu := by
  induction deeds generalizing m with
  | nil => exact .refl _
  | cons deed deeds ih =>
    obtain ⟨hfirst, hrest⟩ := Bool.and_eq_true_iff.mp h
    rw [historyUses, List.flatMap_append]
    exact (uses_carryOut hfirst).trans (ih hrest)

end Machine

/-- These operations lead from an empty stack in `c` to `c'`, and what is in the page follows the
list of bytes that have been pushed and not pulled yet. -/
structure Cpu.FollowsStack (c : Cpu FlatMemory) (events : List StackEvent) (c' : Cpu FlatMemory) :
    Prop where
  uses : c.Uses events c'
  holds : ∀ stack, StackEvent.replay events [] = some stack → c'.Holds stack
  /-- Each operation keeps to the page, and does what the list says if there has been no fault
  before. -/
  performs : ∀ before event later, events = before ++ event :: later →
    ∃ mid, c.Uses before mid ∧ mid.Performs event later c' ∧ mid.KeepsToPage event ∧
      ∀ stack, StackEvent.replay before [] = some stack → mid.Holds stack ∧ mid.Obeys event stack

theorem Cpu.Uses.followsStack {c c' : Cpu FlatMemory} {events : List StackEvent}
    (h : c.Uses events c') (hempty : c.sp = 0xFF) : c.FollowsStack events c' where
  uses := h
  holds _ hstack := h.holds (holds_empty hempty) hstack
  performs before event later hevents := by
    obtain ⟨mid, hbefore, hmid⟩ := h.exists_performs hevents
    refine ⟨mid, hbefore, hmid, hmid.keepsToPage, fun stack hstack => ?_⟩
    have hholds := hbefore.holds (holds_empty hempty) hstack
    exact ⟨hholds, hmid.obeys hholds⟩

namespace Machine

theorem holds_after (deeds : List Deed) {m : Machine FlatMemory} (hempty : m.cpu.sp = 0xFF)
    (hleaves : m.historyLeavesStack deeds = true) {stack : List Byte}
    (hstack : StackEvent.replay ((m.historyUses deeds).flatMap StackUse.bytes) [] = some stack) :
    (m.after deeds).cpu.Holds stack :=
  (uses_after deeds hleaves).holds (Cpu.holds_empty hempty) hstack

/-- In a history that begins with an empty stack, what is in the page follows the list of bytes that
have been pushed and not pulled yet, and the machine halts at the ends of the page. -/
structure FollowsStack (m : Machine FlatMemory) (deeds : List Deed) : Prop where
  whole : m.cpu.FollowsStack ((m.historyUses deeds).flatMap StackUse.bytes) (m.after deeds).cpu
  /-- Each step begins with the list in the page, if there has been no fault before. -/
  steps : ∀ before later, deeds = before ++ .step :: later → ∀ stack,
    StackEvent.replay ((m.historyUses before).flatMap StackUse.bytes) [] = some stack →
      (m.after before).cpu.Works stack ((m.after before).stackUses.flatMap StackUse.bytes)
        (m.after before).step.cpu
  runs : ∀ before options earlier o rest later,
    deeds = before ++ .run options (earlier ++ o :: rest) :: later →
      ∀ first e, first = Engine.start (m.after before) options → e = first.through earlier →
        ∀ stack, StackEvent.replay
            ((m.historyUses before ++ first.scheduleUses earlier).flatMap StackUse.bytes) [] =
              some stack →
          e.machine.cpu.Works stack ((e.stackUses o).flatMap StackUse.bytes)
            (e.meet o).machine.cpu

theorem followsStack_of_leavesStack (deeds : List Deed) {m : Machine FlatMemory}
    (hempty : m.cpu.sp = 0xFF) (hleaves : m.historyLeavesStack deeds = true) :
    m.FollowsStack deeds where
  whole := (uses_after deeds hleaves).followsStack hempty
  steps := by
    rintro before later rfl stack hstack
    rw [historyLeavesStack_append, Bool.and_eq_true_iff] at hleaves
    obtain ⟨hbefore, hlater⟩ := hleaves
    exact works_step (holds_after before hempty hbefore hstack) (Bool.and_eq_true_iff.mp hlater).1
  runs := by
    rintro before options earlier o rest later rfl first e rfl rfl stack hstack
    rw [historyLeavesStack_append, Bool.and_eq_true_iff] at hleaves
    obtain ⟨hbefore, hlater⟩ := hleaves
    have hrun := (Bool.and_eq_true_iff.mp hlater).1
    rw [deedLeavesStack, Engine.scheduleLeavesStack_append, Bool.and_eq_true_iff] at hrun
    obtain ⟨hearlier, hrest⟩ := hrun
    refine Engine.works_meet ?_ (Bool.and_eq_true_iff.mp hrest).1
    have huses := (uses_after before hbefore).trans
      ((Engine.uses_start (m.after before) options).trans (Engine.uses_through earlier hearlier))
    rw [List.nil_append, ← List.flatMap_append] at huses
    exact huses.holds (Cpu.holds_empty hempty) hstack

/-- From an empty stack on, the stack page is a stack. -/
theorem stack_followed (m : Machine FlatMemory) (deeds : List Deed) (hempty : m.cpu.sp = 0xFF)
    (hleaves : m.historyLeavesStack deeds = true) : m.FollowsStack deeds :=
  followsStack_of_leavesStack deeds hempty hleaves

/-- A program that pushes the accumulator and pulls it twice, with a handler at $0010 that returns
at once. -/
def pullTwice : Machine FlatMemory :=
  powerOn (Bus.writeAll (Bus.writeAll (Bus.writeAll .zeroed 0x0000 [0x48, 0x68, 0x68])
    0x0010 [0x40]) 0xFFFA [0x10])

/-- Interrupted after the push. The second pull finds nothing. -/
theorem stack_followed_pullTwice :
    let deeds : List Deed := [.step, .act .nmi, .step, .step, .step, .step]
    pullTwice.cpu.sp = 0xFF ∧ pullTwice.historyLeavesStack deeds = true ∧
      pullTwice.FollowsStack deeds ∧
      (pullTwice.historyUses deeds).flatMap StackUse.bytes =
        [.pushed 0x00, .pushed 0x00, .pushed 0x01, .pushed 0x24, .pulled 0x24, .pulled 0x01,
          .pulled 0x00, .pulled 0x00, .pulled 0x00] ∧
      (pullTwice.after deeds).cpu.halt = some .stackUnderflow := by
  intro deeds
  have hleaves : pullTwice.historyLeavesStack deeds = true := by decide +kernel
  exact ⟨by decide +kernel, hleaves, pullTwice.stack_followed deeds (by decide +kernel) hleaves,
    by decide +kernel, by decide +kernel⟩

end Machine

end Nmos6502
