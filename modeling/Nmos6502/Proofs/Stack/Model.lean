import Nmos6502.Bus.Flat
import Nmos6502.Proofs.Cpu.Faults

namespace Nmos6502

/-- One byte goes on the stack or comes from it. -/
inductive StackEvent where
  | pushed (value : Byte)
  | pulled (value : Byte)
  deriving DecidableEq, Repr

namespace StackEvent

/-- The stack after an event, unless there is no room for a byte or none to pull. The lowest cell of
the page is never part of the stack. -/
def apply : StackEvent → List Byte → Option (List Byte)
  | pushed value, stack => if stack.length < 255 then some (value :: stack) else none
  | pulled _, _ :: stack => some stack
  | pulled _, [] => none

/-- The stack after several events, unless one of them is a fault. -/
def replay : List StackEvent → List Byte → Option (List Byte)
  | [], stack => some stack
  | event :: events, stack => (event.apply stack).bind (replay events)

theorem replay_append (first second : List StackEvent) (stack : List Byte) :
    replay (first ++ second) stack = (replay first stack).bind (replay second) := by
  induction first generalizing stack with
  | nil => rfl
  | cons event first ih =>
    rw [List.cons_append, replay, replay, Option.bind_assoc]
    exact congrArg _ (funext ih)

theorem replay_concat {before : List StackEvent} {stack : List Byte} (event : StackEvent)
    {start : List Byte} (h : replay before start = some stack) :
    replay (before ++ [event]) start = event.apply stack := by
  rw [replay_append, h, Option.bind_some, replay]
  exact Option.bind_fun_some _

/-- Why the processor halts if there is no room for the byte or none to pull. -/
def fault : StackEvent → Halt
  | pushed _ => .stackOverflow
  | pulled _ => .stackUnderflow

/-- The fault of the first event for which there is no room or no byte. -/
def fault? : List StackEvent → List Byte → Option Halt
  | [], _ => none
  | event :: events, stack => (event.apply stack).elim (some event.fault) (fault? events)

theorem fault?_of_replay {events : List StackEvent} {start stack : List Byte}
    (h : replay events start = some stack) : fault? events start = none := by
  induction events generalizing start with
  | nil => rfl
  | cons event events ih =>
    obtain ⟨next, hnext, hrest⟩ := Option.bind_eq_some_iff.mp h
    rw [fault?, hnext]
    exact ih hrest

end StackEvent

theorem head?_pushFaults (values : List Byte) {sp : Byte} {stack : List Byte}
    (h : sp.toNat + stack.length = 255) :
    (pushFaults values.length sp).head? = StackEvent.fault? (values.map .pushed) stack := by
  induction values generalizing sp stack with
  | nil => rfl
  | cons value values ih =>
    rw [List.length_cons, List.map_cons, pushFaults, StackEvent.fault?, StackEvent.apply]
    split
    case isTrue hzero =>
      have hfull : ¬ stack.length < 255 := by
        rw [hzero] at h
        simp at h
        omega
      rw [if_neg hfull]
      rfl
    case isFalse hne =>
      have hlowered : (lowered sp).toNat + (value :: stack).length = 255 := by
        rw [lowered, if_neg hne, List.length_cons]
        bv_omega
      rw [if_pos (by bv_omega), List.nil_append, ih hlowered]
      rfl

theorem head?_pullFaults (values : List Byte) {sp : Byte} {stack : List Byte}
    (h : sp.toNat + stack.length = 255) :
    (pullFaults values.length sp).head? = StackEvent.fault? (values.map .pulled) stack := by
  induction values generalizing sp stack with
  | nil => rfl
  | cons value values ih =>
    rw [List.length_cons, List.map_cons, pullFaults, StackEvent.fault?]
    cases stack with
    | nil =>
      have hmax : sp = 0xFF := BitVec.eq_of_toNat_eq (by simpa using h)
      rw [if_pos hmax]
      rfl
    | cons top stack =>
      rw [List.length_cons] at h
      have hne : sp ≠ 0xFF := by
        rintro rfl
        simp at h
      have hraised : (raised sp).toNat + stack.length = 255 := by
        rw [raised, if_neg hne]
        bv_omega
      rw [if_neg hne, List.nil_append, ih hraised]
      rfl

namespace Cpu

def stackCell (offset : Nat) : Word :=
  stackPage + BitVec.ofNat 16 offset

def InStackPage (address : Word) : Prop :=
  address.toNat / 256 = 1

instance (address : Word) : Decidable (InStackPage address) :=
  inferInstanceAs (Decidable (_ = _))

theorem toNat_stackCell {offset : Nat} (h : offset < 256) :
    (stackCell offset).toNat = 256 + offset := by
  rw [stackCell, BitVec.toNat_add, BitVec.toNat_ofNat]
  change (256 + offset % 2 ^ 16) % 2 ^ 16 = _
  omega

theorem inStackPage_stackCell {offset : Nat} (h : offset < 256) :
    InStackPage (stackCell offset) := by
  rw [InStackPage, toNat_stackCell h]
  omega

theorem stackCell_inj {m n : Nat} (hm : m < 256) (hn : n < 256) :
    stackCell m = stackCell n ↔ m = n := by
  rw [← BitVec.toNat_inj, toNat_stackCell hm, toNat_stackCell hn]
  omega

theorem stackSlot_eq_stackCell {β : Type*} (c : Cpu β) : c.stackSlot = stackCell c.sp.toNat := rfl

/-- The stack pointer and the stack page are left as they are. -/
structure SparesStack (c c' : Cpu FlatMemory) : Prop where
  sp : c'.sp = c.sp
  page : ∀ address, InStackPage address → Bus.read c'.bus address = Bus.read c.bus address

/-- From `c` to `c'` these are the operations on the stack. -/
inductive Uses : Cpu FlatMemory → List StackEvent → Cpu FlatMemory → Prop where
  | refl (c : Cpu FlatMemory) : Uses c [] c
  | spare {c mid c' : Cpu FlatMemory} {events : List StackEvent} :
    c.SparesStack mid → Uses mid events c' → Uses c events c'
  | push {c c' : Cpu FlatMemory} (value : Byte) {events : List StackEvent} :
    Uses (c.push value) events c' → Uses c (.pushed value :: events) c'
  | pull {c c' : Cpu FlatMemory} {events : List StackEvent} :
    Uses c.pull.2 events c' → Uses c (.pulled c.pull.1 :: events) c'

theorem Uses.trans {c mid c' : Cpu FlatMemory} {first second : List StackEvent}
    (h : Uses c first mid) (h' : Uses mid second c') : Uses c (first ++ second) c' := by
  induction h with
  | refl => exact h'
  | spare hspare _ ih => exact .spare hspare (ih h')
  | push value _ ih => exact .push value (ih h')
  | pull _ ih => exact .pull (ih h')

/-- The stack of the processor is `stack`. -/
structure Holds (c : Cpu FlatMemory) (stack : List Byte) : Prop where
  depth : c.sp.toNat + stack.length = 255
  cells : ∀ i (h : i < stack.length),
    Bus.read c.bus (stackCell (c.sp.toNat + 1 + i)) = stack[i]

variable {c c' : Cpu FlatMemory} {stack : List Byte} {value : Byte}

theorem holds_empty (h : c.sp = 0xFF) : c.Holds [] where
  depth := by rw [h]; rfl
  cells i hi := absurd hi (Nat.not_lt_zero i)

theorem Holds.spare (h : c.Holds stack) (hspare : c.SparesStack c') : c'.Holds stack where
  depth := by rw [hspare.sp, h.depth]
  cells i hi := by
    have hdepth := h.depth
    rw [hspare.sp, hspare.page _ (inStackPage_stackCell (by omega)), h.cells i hi]

theorem Holds.push (h : c.Holds stack) (hroom : stack.length < 255) :
    (c.push value).Holds (value :: stack) := by
  have hdepth := h.depth
  have hlt := c.sp.isLt
  constructor
  · rw [push_sp_toNat, List.length_cons]
    omega
  · intro i hi
    rw [(c.push_fields value).2.2.2.2.1, push_sp_toNat, FlatMemory.read_write,
      stackSlot_eq_stackCell]
    rw [List.length_cons] at hi
    -- The top is the cell just written; the others have moved one place down the list.
    cases i with
    | zero =>
      have htop : c.sp.toNat - 1 + 1 + 0 = c.sp.toNat := by omega
      rw [htop, if_pos rfl]
      rfl
    | succ i =>
      have hbelow : c.sp.toNat - 1 + 1 + (i + 1) = c.sp.toNat + 1 + i := by omega
      have hne : ¬ stackCell (c.sp.toNat + 1 + i) = stackCell c.sp.toNat := by
        rw [stackCell_inj (by omega) (by omega)]
        omega
      rw [hbelow, if_neg hne, h.cells i (by omega)]
      rfl

theorem Holds.sp_ne_zero (h : c.Holds stack) (hroom : stack.length < 255) : c.sp ≠ 0 := by
  intro hzero
  have hdepth := h.depth
  rw [hzero] at hdepth
  exact absurd hdepth (by simpa using Nat.ne_of_lt hroom)

theorem Holds.sp_ne_max {top : Byte} (h : c.Holds (top :: stack)) : c.sp ≠ 0xFF := by
  intro hmax
  have hdepth := h.depth
  rw [hmax, List.length_cons] at hdepth
  change 255 + (stack.length + 1) = 255 at hdepth
  omega

theorem Holds.pull {top : Byte} (h : c.Holds (top :: stack)) :
    c.pull.1 = top ∧ c.pull.2.Holds stack := by
  have hdepth := h.depth
  rw [List.length_cons] at hdepth
  have hne := h.sp_ne_max
  have hsp : c.pull.2.sp.toNat = c.sp.toNat + 1 := by
    rw [pull_sp, raised, if_neg hne, sp_succ_toNat hne]
  constructor
  · rw [pull_fst, pulled, if_pos (by omega)]
    exact h.cells 0 (by simp)
  · constructor
    · omega
    · intro i hi
      have hcell := h.cells (i + 1) (by simpa using hi)
      rw [hsp, (c.pull_fields).2.2.2.2.1]
      have hoffset : c.sp.toNat + 1 + (i + 1) = c.sp.toNat + 1 + 1 + i := by omega
      rw [hoffset] at hcell
      exact hcell

/-- The processor halts, for this reason if there was none before. -/
def Stops (c : Cpu FlatMemory) (why : Halt) (c' : Cpu FlatMemory) : Prop :=
  c'.halt = c.halt.or (some why) ∧ c'.status.has .brk = true

def GoesOn (c c' : Cpu FlatMemory) : Prop :=
  c'.halt = c.halt ∧ c'.status = c.status

theorem push_of_sp_ne_zero (h : c.sp ≠ 0) : c.GoesOn (c.push value) := by
  unfold Cpu.push
  dsimp only
  split
  case isTrue hzero => exact absurd (by simpa using hzero) h
  case isFalse => simp [GoesOn]

theorem push_of_sp_zero (h : c.sp = 0) (value : Byte) :
    (c.push value).sp = 0 ∧ c.Stops .stackOverflow (c.push value) := by
  unfold Cpu.push
  dsimp only
  simp [Stops, h, Status.has_assign]

theorem pull_of_sp_ne_max (h : c.sp ≠ 0xFF) : c.GoesOn c.pull.2 := by
  rw [pull_eq c h]
  simp [GoesOn]

theorem pull_of_sp_max (h : c.sp = 0xFF) :
    c.pull.1 = 0 ∧ c.pull.2.sp = 0xFF ∧ c.Stops .stackUnderflow c.pull.2 := by
  rw [pull_of_empty c h]
  simp [Stops, h, Status.has_assign]

/-- After `event`, which `c` performs, come the others. -/
def Performs (c : Cpu FlatMemory) : StackEvent → List StackEvent → Cpu FlatMemory → Prop
  | .pushed value, later, c' => (c.push value).Uses later c'
  | .pulled value, later, c' => value = c.pull.1 ∧ c.pull.2.Uses later c'

theorem Uses.exists_performs {before later : List StackEvent} {event : StackEvent}
    {events : List StackEvent} (h : c.Uses events c')
    (hevents : events = before ++ event :: later) :
    ∃ mid, c.Uses before mid ∧ mid.Performs event later c' := by
  -- What spares the stack goes with the operations before `event`, even if there are none.
  induction h generalizing before with
  | refl => simp at hevents
  | spare hspare _ ih =>
    obtain ⟨mid, hbefore, hmid⟩ := ih hevents
    exact ⟨mid, .spare hspare hbefore, hmid⟩
  | push value huses ih =>
    cases before with
    | nil =>
      cases hevents
      exact ⟨_, .refl _, huses⟩
    | cons first before =>
      cases hevents
      obtain ⟨mid, hbefore, hmid⟩ := ih rfl
      exact ⟨mid, .push value hbefore, hmid⟩
  | pull huses ih =>
    cases before with
    | nil =>
      cases hevents
      exact ⟨_, .refl _, rfl, huses⟩
    | cons first before =>
      cases hevents
      obtain ⟨mid, hbefore, hmid⟩ := ih rfl
      exact ⟨mid, .pull hbefore, hmid⟩

theorem Uses.holds {events : List StackEvent} (h : c.Uses events c') {start : List Byte}
    (hstart : c.Holds start) (hstack : StackEvent.replay events start = some stack) :
    c'.Holds stack := by
  induction h generalizing start with
  | refl =>
    cases hstack
    exact hstart
  | spare hspare _ ih => exact ih (hstart.spare hspare) hstack
  | push value _ ih =>
    rw [StackEvent.replay, StackEvent.apply] at hstack
    split at hstack
    case isTrue hroom => exact ih (hstart.push hroom) hstack
    case isFalse => cases hstack
  | pull _ ih =>
    cases start with
    | nil => cases hstack
    | cons top start => exact ih hstart.pull.2 hstack

/-- An operation touches no cell but one of the stack page, and the stack pointer does not go round.
-/
def KeepsToPage (c : Cpu FlatMemory) : StackEvent → Prop
  | .pushed value =>
    (c.push value).bus = Bus.write c.bus c.stackSlot value ∧ InStackPage c.stackSlot ∧
      (c.push value).sp.toNat = c.sp.toNat - 1
  | .pulled value =>
    value = (if c.sp = 0xFF then 0 else Bus.read c.bus c.pull.2.stackSlot) ∧
      InStackPage c.pull.2.stackSlot ∧ c.pull.2.bus = c.bus ∧
      c.pull.2.sp.toNat = min (c.sp.toNat + 1) 255

/-- An operation does to the stack what the event does to the list. At the ends of the page it
leaves the stack pointer where it is and halts. -/
def Obeys (c : Cpu FlatMemory) : StackEvent → List Byte → Prop
  | .pushed value, stack =>
    if stack.length < 255 then (c.push value).Holds (value :: stack) ∧ c.GoesOn (c.push value)
    else (c.push value).bus = Bus.write c.bus 0x0100 value ∧ (c.push value).sp = 0x00 ∧
      c.Stops .stackOverflow (c.push value)
  | .pulled value, top :: stack => value = top ∧ c.pull.2.Holds stack ∧ c.GoesOn c.pull.2
  | .pulled value, [] =>
    value = 0 ∧ c.pull.2.sp = 0xFF ∧ c.pull.2.bus = c.bus ∧ c.Stops .stackUnderflow c.pull.2

theorem Performs.keepsToPage {event : StackEvent} {later : List StackEvent}
    (h : c.Performs event later c') : c.KeepsToPage event := by
  cases event with
  | pushed value =>
    exact ⟨(c.push_fields value).2.2.2.2.1, inStackPage_stackCell c.sp.isLt,
      c.push_sp_toNat value⟩
  | pulled value =>
    obtain ⟨rfl, -⟩ := h
    refine ⟨?_, inStackPage_stackCell c.pull.2.sp.isLt, c.pull_fields.2.2.2.2.1, ?_⟩
    · split
      case isTrue hmax => exact (pull_of_sp_max hmax).1
      case isFalse hne => rw [pull_eq c hne]
    · have hlt := c.sp.isLt
      rw [pull_sp, raised]
      split
      case isTrue hmax => rw [hmax]; rfl
      case isFalse hne =>
        have hsp := (c.sp + 1).isLt
        rw [sp_succ_toNat hne] at hsp ⊢
        omega

theorem Performs.obeys {event : StackEvent} {later : List StackEvent}
    (h : c.Performs event later c') (hholds : c.Holds stack) : c.Obeys event stack := by
  have hdepth := hholds.depth
  cases event with
  | pushed value =>
    rw [Obeys]
    split
    case isTrue hroom => exact ⟨hholds.push hroom, push_of_sp_ne_zero (hholds.sp_ne_zero hroom)⟩
    case isFalse hfull =>
      have hzero : c.sp = 0 := BitVec.eq_of_toNat_eq (by simpa using by omega)
      have hslot : c.stackSlot = 0x0100 := by rw [stackSlot, hzero]; rfl
      obtain ⟨hsp, hstops⟩ := push_of_sp_zero hzero value
      rw [(c.push_fields value).2.2.2.2.1, hslot]
      exact ⟨rfl, hsp, hstops⟩
  | pulled value =>
    obtain ⟨rfl, -⟩ := h
    cases stack with
    | nil =>
      have hmax : c.sp = 0xFF := BitVec.eq_of_toNat_eq (by simpa using hdepth)
      obtain ⟨hzero, hsp, hstops⟩ := pull_of_sp_max hmax
      exact ⟨hzero, hsp, c.pull_fields.2.2.2.2.1, hstops⟩
    | cons top stack =>
      obtain ⟨htop, hrest⟩ := hholds.pull
      exact ⟨htop, hrest, pull_of_sp_ne_max hholds.sp_ne_max⟩

end Cpu

end Nmos6502
