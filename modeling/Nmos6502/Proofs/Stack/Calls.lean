import Nmos6502.Proofs.Cpu.Frame
import Nmos6502.Proofs.Stack.History

namespace Nmos6502

namespace Cpu

universe u

variable {β : Type u} [Bus β]

theorem exists_decode_of_mnemonic? {c : Cpu β} {mnemonic : Mnemonic}
    (h : c.mnemonic? = some mnemonic) :
    ∃ mode, Opcode.decode (Bus.read c.bus c.pc) = some ⟨mnemonic, mode⟩ := by
  obtain ⟨⟨_, mode⟩, hop, rfl⟩ := Option.map_eq_some_iff.mp h
  exact ⟨mode, hop⟩

theorem executeNext_sp_of_jsr {c : Cpu β} (h : c.mnemonic? = some .jsr) :
    c.executeNext.sp.toNat = c.sp.toNat - 2 := by
  obtain ⟨mode, hop⟩ := exists_decode_of_mnemonic? h
  rw [executeNext_of_decode c hop]
  change ((c.fetch.skipOperand mode).pushWord _).sp.toNat = _
  rw [pushWord, push_sp_toNat, push_sp_toNat, Nat.sub_sub]
  rfl

theorem read_executeNext_of_jsr {c : Cpu FlatMemory} (h : c.mnemonic? = some .jsr)
    (hroom : 2 ≤ c.sp.toNat) :
    Bus.read c.executeNext.bus (c.slotAfter 0) = Word.high (c.pc + 2) ∧
      Bus.read c.executeNext.bus (c.slotAfter 1) = Word.low (c.pc + 2) := by
  obtain ⟨mode, hop⟩ := exists_decode_of_mnemonic? h
  have hwrites : c.instructionWrites (Instruction.decode c.bus c.pc) = c.wordWrites (c.pc + 2) := by
    rw [Instruction.decode_of_documented hop]
    rfl
  have hslot : c.slotAfter 0 = c.slotAfter 1 ↔ 0 = 1 := c.slotAfter_inj (by omega) (by omega)
  rw [executeNext_bus, hwrites]
  simp [wordWrites, FlatMemory.read_write, hslot]

theorem pulled_eq_read_of_call {c d : Cpu β} (hroom : 2 ≤ c.sp.toNat)
    (hsp : d.sp.toNat = c.sp.toNat - 2) {n : Nat} (hn : n < 2) :
    d.pulled n = Bus.read d.bus (c.slotAfter (1 - n)) := by
  have hlt := c.sp.isLt
  have hslot : c.sp.toNat - 2 + n + 1 = c.sp.toNat - (1 - n) := by omega
  rw [pulled, slotAfter, hsp, if_pos (by omega), hslot]

theorem returnFromCall_of_lt (c : Cpu FlatMemory) (h : c.sp.toNat < 254) :
    c.returnFromCall.sp.toNat = c.sp.toNat + 2 ∧ c.GoesOn c.returnFromCall := by
  obtain ⟨hsp, hstatus, hhalt⟩ := c.pullWord_of_lt h
  exact ⟨hsp, hhalt, hstatus⟩

theorem executeNext_of_rts {c : Cpu β} (h : c.mnemonic? = some .rts) :
    ∃ mode, c.executeNext = (c.fetch.skipOperand mode).returnFromCall := by
  obtain ⟨mode, hop⟩ := exists_decode_of_mnemonic? h
  refine ⟨mode, ?_⟩
  rw [executeNext_of_decode c hop]
  rfl

end Cpu

namespace Machine

/-- In `last` a return is about to run and finds the stack as the call at `m` has left it. -/
structure AboutToReturnFromCall (m last : Machine FlatMemory) : Prop where
  accepted : last.accepted = none
  atReturn : last.cpu.mnemonic? = some .rts
  sp : last.cpu.sp = m.step.cpu.sp
  address : ∀ n < 2, Bus.read last.cpu.bus (m.cpu.slotAfter n) =
    Bus.read m.step.cpu.bus (m.cpu.slotAfter n)

/-- The return in `last` takes the call at `m` back, and there is no fault. -/
structure ReturnsFromCall (m last : Machine FlatMemory) : Prop where
  pc : last.step.cpu.pc = m.cpu.pc + 3
  sp : last.step.cpu.sp = m.cpu.sp
  goesOn : last.cpu.GoesOn last.step.cpu

theorem AboutToReturnFromCall.returns {m last : Machine FlatMemory}
    (h : m.AboutToReturnFromCall last) (haccepted : m.accepted = none)
    (hcall : m.cpu.mnemonic? = some .jsr) (hroom : 2 ≤ m.cpu.sp.toNat) :
    m.ReturnsFromCall last := by
  have hlt := m.cpu.sp.isLt
  have hcalled : m.step.cpu.sp = m.cpu.executeNext.sp ∧ m.step.cpu.bus = m.cpu.executeNext.bus := by
    rw [step_cpu, boundary_of_accepted_none haccepted]
    exact ⟨rfl, rfl⟩
  have hlow : last.cpu.sp.toNat = m.cpu.sp.toNat - 2 := by
    rw [h.sp, hcalled.1, Cpu.executeNext_sp_of_jsr hcall]
  obtain ⟨hhigh, hlast⟩ := Cpu.read_executeNext_of_jsr hcall hroom
  have haddress : last.cpu.pulled 0 = Word.low (m.cpu.pc + 2) ∧
      last.cpu.pulled 1 = Word.high (m.cpu.pc + 2) := by
    constructor
    · rw [Cpu.pulled_eq_read_of_call hroom hlow (by decide), h.address _ (by decide), hcalled.2,
        hlast]
    · rw [Cpu.pulled_eq_read_of_call hroom hlow (by decide), h.address _ (by decide), hcalled.2,
        hhigh]
  obtain ⟨mode, hreturn⟩ := Cpu.executeNext_of_rts h.atReturn
  obtain ⟨hsp, hgoesOn⟩ := (last.cpu.fetch.skipOperand mode).returnFromCall_of_lt (by
    simp only [Cpu.skipOperand_fields, Cpu.fetch_fields]
    omega)
  have hstep := last.step_cpu
  rw [boundary_of_accepted_none h.accepted, hreturn] at hstep
  have hsame : ∀ n, (last.cpu.fetch.skipOperand mode).pulled n = last.cpu.pulled n :=
    Cpu.pulled_congr rfl rfl
  constructor
  · rw [hstep]
    refine ((last.cpu.fetch.skipOperand mode).returnFromCall_fields.2.2.2.1).trans ?_
    rw [hsame, hsame, haddress.1, haddress.2, Word.ofBytes_low_high, BitVec.add_assoc]
    rfl
  · rw [hstep]
    refine BitVec.eq_of_toNat_eq (hsp.trans ?_)
    simp only [Cpu.skipOperand_fields, Cpu.fetch_fields]
    omega
  · rw [hstep]
    exact hgoesOn

end Machine

/-- What a program has on the stack. -/
inductive Entry where
  /-- What the call at `site` has pushed. -/
  | address (site : Word)
  | byte (value : Byte)
  deriving DecidableEq, Repr

/-- The bytes of an entry, the top first. -/
def Entry.bytes : Entry → List Byte
  | address site => [Word.low (site + 2), Word.high (site + 2)]
  | byte value => [value]

def stackBytes (entries : List Entry) : List Byte :=
  entries.flatMap Entry.bytes

namespace StackUse

/-- The entries after a use that nests properly: there is room, and what comes from the stack is an
entry that was put there for it. -/
def nest : StackUse → List Entry → Option (List Entry)
  | call site, entries =>
    if (stackBytes entries).length + 2 ≤ 255 then some (.address site :: entries) else none
  | push value, entries =>
    if (stackBytes entries).length + 1 ≤ 255 then some (.byte value :: entries) else none
  | ret _, .address _ :: entries => some entries
  | pull _, .byte _ :: entries => some entries
  | ret _, .byte _ :: _ | pull _, .address _ :: _ | ret _, [] | pull _, [] => none

def nestAll : List StackUse → List Entry → Option (List Entry)
  | [], entries => some entries
  | use :: uses, entries => (use.nest entries).bind (nestAll uses)

/-- How many calls are open in the end, if there are only calls and returns and never more open than
`most`. -/
def callDepth (most : Nat) : List StackUse → Nat → Option Nat
  | [], depth => some depth
  | call _ :: uses, depth => if depth < most then callDepth most uses (depth + 1) else none
  | ret _ :: uses, depth + 1 => callDepth most uses depth
  | ret _ :: _, 0 | push _ :: _, _ | pull _ :: _, _ => none

theorem replay_bytes_of_nest {use : StackUse} {entries entries' : List Entry}
    (h : use.nest entries = some entries') :
    StackEvent.replay use.bytes (stackBytes entries) = some (stackBytes entries') := by
  cases use with
  | call site =>
    rw [nest] at h
    split at h
    case isTrue hroom =>
      cases h
      have hfirst : (stackBytes entries).length < 255 := by omega
      have hsecond : (Word.high (site + 2) :: stackBytes entries).length < 255 := by
        rw [List.length_cons]
        omega
      simp only [bytes, StackEvent.replay, StackEvent.apply, if_pos hfirst, Option.bind_some,
        if_pos hsecond]
      rfl
    case isFalse => cases h
  | push value =>
    rw [nest] at h
    split at h
    case isTrue hroom =>
      cases h
      have hlt : (stackBytes entries).length < 255 := by omega
      simp only [bytes, StackEvent.replay, StackEvent.apply, if_pos hlt, Option.bind_some]
      rfl
    case isFalse => cases h
  | ret target =>
    cases entries with
    | nil => cases h
    | cons entry entries =>
      cases entry with
      | byte value => cases h
      | address site =>
        cases h
        rfl
  | pull value =>
    cases entries with
    | nil => cases h
    | cons entry entries =>
      cases entry with
      | address site => cases h
      | byte value =>
        cases h
        rfl

theorem replay_of_nestAll (uses : List StackUse) {entries entries' : List Entry}
    (h : nestAll uses entries = some entries') :
    StackEvent.replay (uses.flatMap bytes) (stackBytes entries) = some (stackBytes entries') := by
  induction uses generalizing entries with
  | nil =>
    cases h
    rfl
  | cons use uses ih =>
    obtain ⟨mid, huse, huses⟩ := Option.bind_eq_some_iff.mp h
    rw [List.flatMap_cons, StackEvent.replay_append, replay_bytes_of_nest huse]
    exact ih huses

theorem nestAll_append (first second : List StackUse) (entries : List Entry) :
    nestAll (first ++ second) entries = (nestAll first entries).bind (nestAll second) := by
  induction first generalizing entries with
  | nil => rfl
  | cons use first ih =>
    rw [List.cons_append, nestAll, nestAll, Option.bind_assoc]
    exact congrArg _ (funext ih)

theorem exists_nestAll_of_ret {before : List StackUse} {target : Word} {start entries : List Entry}
    (h : nestAll (before ++ [.ret target]) start = some entries) :
    ∃ site, nestAll before start = some (.address site :: entries) := by
  rw [nestAll_append] at h
  obtain ⟨now, hnow, hret⟩ := Option.bind_eq_some_iff.mp h
  obtain ⟨rest, hrest, hdone⟩ := Option.bind_eq_some_iff.mp hret
  cases hdone
  cases now with
  | nil => cases hrest
  | cons entry now =>
    cases entry with
    | byte value => cases hrest
    | address site =>
      cases hrest
      exact ⟨site, hnow⟩

theorem length_stackBytes_addresses (sites : List Word) :
    (stackBytes (sites.map .address)).length = 2 * sites.length := by
  induction sites with
  | nil => rfl
  | cons site sites ih =>
    change (stackBytes (sites.map .address)).length + 1 + 1 = _
    rw [ih, List.length_cons]
    omega

/-- The page has room for the addresses of 127 calls. -/
theorem nestAll_of_callDepth (uses : List StackUse) (sites : List Word) {depth : Nat}
    (h : callDepth 127 uses sites.length = some depth) :
    ∃ sites' : List Word, nestAll uses (sites.map .address) = some (sites'.map .address) ∧
      sites'.length = depth := by
  induction uses generalizing sites with
  | nil =>
    cases h
    exact ⟨sites, rfl, rfl⟩
  | cons use uses ih =>
    cases use with
    | push value => cases h
    | pull value => cases h
    | call site =>
      rw [callDepth] at h
      split at h
      case isTrue hdepth =>
        have hroom : (stackBytes (sites.map .address)).length + 2 ≤ 255 := by
          rw [length_stackBytes_addresses]
          omega
        obtain ⟨rest, hrest, hlength⟩ := ih (site :: sites) h
        refine ⟨rest, ?_, hlength⟩
        rw [nestAll, nest, if_pos hroom]
        exact hrest
      case isFalse => cases h
    | ret target =>
      cases sites with
      | nil => cases h
      | cons site sites => exact ih sites h

end StackUse

namespace Cpu

/-- The processor after an operation on the stack. -/
def did (c : Cpu FlatMemory) : StackEvent → Cpu FlatMemory
  | .pushed value => c.push value
  | .pulled _ => c.pull.2

theorem Obeys.goesOn {c : Cpu FlatMemory} {event : StackEvent} {stack stack' : List Byte}
    (h : c.Obeys event stack) (hstack : event.apply stack = some stack') :
    c.GoesOn (c.did event) := by
  cases event with
  | pushed value =>
    rw [StackEvent.apply] at hstack
    rw [Obeys] at h
    split at hstack
    case isTrue hroom =>
      rw [if_pos hroom] at h
      exact h.2
    case isFalse => cases hstack
  | pulled value =>
    cases stack with
    | nil => cases hstack
    | cons top stack => exact h.2.2

theorem FollowsStack.goesOn {c c' : Cpu FlatMemory} {events : List StackEvent}
    (h : c.FollowsStack events c') {stack : List Byte}
    (hstack : StackEvent.replay events [] = some stack) {before later : List StackEvent}
    {event : StackEvent} (hevents : events = before ++ event :: later) :
    ∃ mid, c.Uses before mid ∧ mid.Performs event later c' ∧ mid.GoesOn (mid.did event) := by
  obtain ⟨mid, hbefore, hmid, -, hobeys⟩ := h.performs before event later hevents
  rw [hevents, StackEvent.replay_append] at hstack
  obtain ⟨now, hnow, hrest⟩ := Option.bind_eq_some_iff.mp hstack
  obtain ⟨next, hnext, -⟩ := Option.bind_eq_some_iff.mp hrest
  exact ⟨mid, hbefore, hmid, (hobeys now hnow).2.goesOn hnext⟩

end Cpu

/-- From an empty stack in `c`, these uses of the stack lead to `c'`, and calls return. -/
structure Cpu.ReturnsCalls (c : Cpu FlatMemory) (uses : List StackUse) (c' : Cpu FlatMemory) :
    Prop where
  /-- A return that nests properly takes back the last call that has not been taken back yet. -/
  returns : ∀ before target later entries, uses = before ++ .ret target :: later →
    StackUse.nestAll (before ++ [.ret target]) [] = some entries →
    ∃ site, StackUse.nestAll before [] = some (.address site :: entries) ∧ target = site + 3
  /-- Where all nests properly there is no fault. -/
  goesOn : ∀ entries, StackUse.nestAll uses [] = some entries → c'.Holds (stackBytes entries) ∧
    ∀ before event later, uses.flatMap StackUse.bytes = before ++ event :: later →
      ∃ mid, c.Uses before mid ∧ mid.Performs event later c' ∧ mid.GoesOn (mid.did event)
  /-- Calls nest properly down to a depth of 127. -/
  deep : ∀ depth, StackUse.callDepth 127 uses 0 = some depth →
    ∃ sites : List Word, StackUse.nestAll uses [] = some (sites.map .address) ∧
      sites.length = depth

theorem Cpu.FollowsStack.returnsCalls {c c' : Cpu FlatMemory} {uses : List StackUse}
    (h : c.FollowsStack (uses.flatMap StackUse.bytes) c') : c.ReturnsCalls uses c' where
  deep depth hdepth := StackUse.nestAll_of_callDepth uses [] hdepth
  goesOn entries hentries := by
    have hreplay := StackUse.replay_of_nestAll uses hentries
    exact ⟨h.holds _ hreplay, fun before event later hevents => h.goesOn hreplay hevents⟩
  returns before target later entries huses hnests := by
    obtain ⟨site, hnest⟩ := StackUse.exists_nestAll_of_ret hnests
    refine ⟨site, hnest, ?_⟩
    have hstack := StackUse.replay_of_nestAll before hnest
    have hevents : uses.flatMap StackUse.bytes = before.flatMap StackUse.bytes ++
        .pulled (Word.low (target - 1)) :: .pulled (Word.high (target - 1)) ::
          later.flatMap StackUse.bytes := by
      rw [huses, List.flatMap_append]
      rfl
    -- The low byte is pulled first.
    obtain ⟨mid, -, -, -, hlow⟩ := h.performs _ _ _ hevents
    obtain ⟨mid', -, -, -, hhigh⟩ := h.performs
      (before.flatMap StackUse.bytes ++ [.pulled (Word.low (target - 1))]) _ _
      (by rw [hevents, List.append_assoc]; rfl)
    have hlow' := (hlow _ hstack).2.1
    have hhigh' := (hhigh _ (StackEvent.replay_concat _ hstack)).2.1
    have haddress : target - 1 = site + 2 := by
      rw [← Word.ofBytes_low_high (target - 1), hlow', hhigh', Word.ofBytes_low_high]
    calc target = target - 1 + 1 := (BitVec.sub_add_cancel target 1).symm
      _ = site + 3 := by
        rw [haddress, BitVec.add_assoc]
        rfl

theorem StackUse.flatMap_bytes_ne_nil {uses : List StackUse} (h : uses ≠ []) :
    uses.flatMap StackUse.bytes ≠ [] := by
  cases uses with
  | nil => exact absurd rfl h
  | cons use uses => cases use <;> simp [bytes]

/-- The processor has met no fault on the way. -/
def Cpu.MeetsNoFault (c c' : Cpu FlatMemory) : Prop :=
  c'.halt = c.halt ∧ c'.status.has .brk = c.status.has .brk

theorem Cpu.Works.meetsNoFault {c c' : Cpu FlatMemory} {stack rest : List Byte}
    {uses later : List StackUse} (h : c.Works stack (uses.flatMap StackUse.bytes) c')
    (huses : uses ≠ [])
    (hstack : StackEvent.replay ((uses ++ later).flatMap StackUse.bytes) stack = some rest) :
    c.MeetsNoFault c' := by
  have hevents := StackUse.flatMap_bytes_ne_nil huses
  rw [List.flatMap_append, StackEvent.replay_append] at hstack
  obtain ⟨now, hnow, -⟩ := Option.bind_eq_some_iff.mp hstack
  have hnone := StackEvent.fault?_of_replay hnow
  exact ⟨by rw [h.halt hevents, hnone, Option.or_none], by
    rw [h.brk hevents, hnone, Option.isSome_none, Bool.or_false]⟩

/-- In a history that begins with an empty stack, calls return. -/
structure Machine.ReturnsCalls (m : Machine FlatMemory) (deeds : List Deed) : Prop where
  whole : m.cpu.ReturnsCalls (m.historyUses deeds) (m.after deeds).cpu
  /-- Where all nests properly, no step that uses the stack makes the machine halt. -/
  steps : ∀ entries, StackUse.nestAll (m.historyUses deeds) [] = some entries →
    ∀ before later, deeds = before ++ .step :: later → (m.after before).stackUses ≠ [] →
      (m.after before).cpu.MeetsNoFault (m.after before).step.cpu
  runs : ∀ entries, StackUse.nestAll (m.historyUses deeds) [] = some entries →
    ∀ before options earlier o rest later,
      deeds = before ++ .run options (earlier ++ o :: rest) :: later →
        ∀ e, e = (Engine.start (m.after before) options).through earlier →
          e.stackUses o ≠ [] → e.machine.cpu.MeetsNoFault (e.meet o).machine.cpu

theorem Machine.FollowsStack.returnsCalls {m : Machine FlatMemory} {deeds : List Deed}
    (h : m.FollowsStack deeds) : m.ReturnsCalls deeds where
  whole := h.whole.returnsCalls
  steps := by
    rintro entries hentries before later rfl huses
    have hstack := StackUse.replay_of_nestAll _ hentries
    rw [historyUses_append, List.flatMap_append, StackEvent.replay_append] at hstack
    obtain ⟨stack, hbefore, hlater⟩ := Option.bind_eq_some_iff.mp hstack
    exact (h.steps before later rfl stack hbefore).meetsNoFault huses hlater
  runs := by
    rintro entries hentries before options earlier o rest later rfl e rfl huses
    have hstack := StackUse.replay_of_nestAll _ hentries
    rw [historyUses_append, historyUses, deedUses, Engine.scheduleUses_append, List.append_assoc,
      ← List.append_assoc, List.flatMap_append, StackEvent.replay_append] at hstack
    obtain ⟨stack, hbefore, hlater⟩ := Option.bind_eq_some_iff.mp hstack
    rw [Engine.scheduleUses, List.append_assoc] at hlater
    exact (h.runs before options earlier o rest later rfl _ _ rfl rfl stack hbefore).meetsNoFault
      huses hlater

/-- A return that finds the stack pointer and the address as the call has left them goes on after
the call, whatever has happened in between. From an empty stack on, calls return in the reverse of
their order. -/
theorem calls_return :
    (∀ (m : Machine FlatMemory) (body : List Deed), m.accepted = none →
      m.cpu.mnemonic? = some .jsr → 2 ≤ m.cpu.sp.toNat →
      m.AboutToReturnFromCall (m.step.after body) → m.ReturnsFromCall (m.step.after body)) ∧
    ∀ (m : Machine FlatMemory) (deeds : List Deed), m.cpu.sp = 0xFF →
      m.historyLeavesStack deeds = true → m.ReturnsCalls deeds := by
  constructor
  · intro m body haccepted hcall hroom hreturn
    exact hreturn.returns haccepted hcall hroom
  · intro m deeds hempty hleaves
    exact (Machine.followsStack_of_leavesStack deeds hempty hleaves).returnsCalls

/-- A call across the top of the address space, of a subroutine at $0010 that calls another one. -/
def callAcrossTop : Machine FlatMemory :=
  .powerOn (Bus.writeAll (Bus.writeAll (Bus.writeAll .zeroed 0xFFFC [0xFE, 0xFF, 0x20, 0x10, 0x00])
    0x0010 [0x20, 0x20, 0x00, 0x60]) 0x0020 [0x60])

theorem calls_return_callAcrossTop :
    (callAcrossTop.step.after [.step, .step]).step.cpu.pc = 0x0001 ∧
      callAcrossTop.historyUses [.step, .step, .step, .step] =
        [.call 0xFFFE, .call 0x0010, .ret 0x0013, .ret 0x0001] ∧
      callAcrossTop.ReturnsCalls [.step, .step, .step, .step] := by
  have habout : callAcrossTop.AboutToReturnFromCall (callAcrossTop.step.after [.step, .step]) :=
    ⟨by decide +kernel, by decide +kernel, by decide +kernel, by decide +kernel⟩
  have hreturns := calls_return.1 callAcrossTop [.step, .step] (by decide +kernel)
    (by decide +kernel) (by decide +kernel) habout
  refine ⟨hreturns.pc.trans (by decide +kernel), by decide +kernel, ?_⟩
  exact calls_return.2 callAcrossTop _ (by decide +kernel) (by decide +kernel)

end Nmos6502
