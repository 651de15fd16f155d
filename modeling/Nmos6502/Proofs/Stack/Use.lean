import Nmos6502.Proofs.Effects
import Nmos6502.Proofs.Stack.Model
import Nmos6502.Proofs.Writes

namespace Nmos6502

universe u

variable {β : Type u}

/-- How a program uses the stack. -/
inductive StackUse where
  /-- The call at `site` pushes the address of its last byte. -/
  | call (site : Word)
  /-- A return from a call pulls the address before `target`, where the program goes on. -/
  | ret (target : Word)
  | push (value : Byte)
  | pull (value : Byte)
  deriving DecidableEq, Repr

/-- The bytes that go on the stack and come from it. -/
def StackUse.bytes : StackUse → List StackEvent
  | call site => [.pushed (Word.high (site + 2)), .pushed (Word.low (site + 2))]
  | ret target => [.pulled (Word.low (target - 1)), .pulled (Word.high (target - 1))]
  | push value => [.pushed value]
  | pull value => [.pulled value]

namespace Cpu

theorem SparesStack.uses {c c' : Cpu FlatMemory} (h : c.SparesStack c') : c.Uses [] c' :=
  .spare h (.refl c')

theorem sparesStack_of_eq {c c' : Cpu FlatMemory} (hsp : c'.sp = c.sp) (hbus : c'.bus = c.bus) :
    c.SparesStack c' :=
  ⟨hsp, fun _ _ => by rw [hbus]⟩

theorem sparesStack_forgetLog (c : Cpu FlatMemory) : c.SparesStack { c with log := [] } :=
  sparesStack_of_eq rfl rfl

theorem read_replay_of_elsewhere (writes : List (Word × Byte)) (bus : FlatMemory)
    (h : ∀ entry ∈ writes, ¬ InStackPage entry.1) {address : Word}
    (haddress : InStackPage address) :
    Bus.read (Bus.replay bus writes) address = Bus.read bus address := by
  induction writes generalizing bus with
  | nil => rfl
  | cons entry writes ih =>
    have hne : ¬ address = entry.1 := by
      rintro rfl
      exact h entry List.mem_cons_self haddress
    rw [Bus.replay_cons, ih _ fun other hother => h other (List.mem_cons_of_mem _ hother),
      FlatMemory.read_write, if_neg hne]

theorem uses_pushWord (c : Cpu FlatMemory) (value : Word) :
    c.Uses [.pushed (Word.high value), .pushed (Word.low value)] (c.pushWord value) :=
  .push _ (.push _ (.refl _))

theorem uses_pullWord (c : Cpu FlatMemory) :
    c.Uses [.pulled (c.pulled 0), .pulled (c.pulled 1)] c.pullWord.2 := by
  rw [← c.pull_fst, ← c.pull_pulled 0, ← pull_fst]
  exact .pull (.pull (.refl _))

theorem uses_pull (c : Cpu FlatMemory) : c.Uses [.pulled (c.pulled 0)] c.pull.2 := by
  rw [← c.pull_fst]
  exact .pull (.refl _)

theorem uses_returnFromInterrupt (c : Cpu FlatMemory) :
    c.Uses [.pulled (c.pulled 0), .pulled (c.pulled 1), .pulled (c.pulled 2)]
      c.returnFromInterrupt := by
  have hstatus : c.pull.2.SparesStack (c.pull.2.setStatus c.pull.1) :=
    sparesStack_of_eq (by simp) (by simp)
  have hword := (c.pull.2.setStatus c.pull.1).uses_pullWord
  simp only [setStatus_pulled, pull_pulled] at hword
  have hlast : (c.pull.2.setStatus c.pull.1).pullWord.2.SparesStack c.returnFromInterrupt :=
    sparesStack_of_eq (by simp [returnFromInterrupt]) (by simp [returnFromInterrupt])
  exact (c.uses_pull.trans (.spare hstatus hword)).trans hlast.uses

/-- The instruction at the program counter, if it is documented. -/
def mnemonic? [Bus β] (c : Cpu β) : Option Mnemonic :=
  (Opcode.decode (Bus.read c.bus c.pc)).map Opcode.mnemonic

def stackUses [Bus β] (c : Cpu β) : List StackUse :=
  match c.mnemonic? with
  | some .jsr => [.call c.pc]
  | some .rts => [.ret c.executeNext.pc]
  | some .pha => [.push c.a]
  | some .php => [.push (c.status.packed ||| Flag.brk.mask)]
  | some .pla => [.pull c.executeNext.a]
  | some .plp => [.pull (c.pulled 0)]
  | some .rti => [.pull (c.pulled 0), .pull (c.pulled 1), .pull (c.pulled 2)]
  | _ => []

/-- The instruction at the program counter changes the stack by pushes and pulls alone. -/
def leavesStack [Bus β] (c : Cpu β) : Bool :=
  match c.mnemonic? with
  | some .txs => c.x == c.sp
  | some .jsr | some .pha | some .php => true
  | _ => (c.instructionWrites (Instruction.decode c.bus c.pc)).all
    fun entry => !decide (InStackPage entry.1)

theorem sparesStack_skipOperand (c : Cpu FlatMemory) (mode : Mode) :
    c.SparesStack (c.fetch.skipOperand mode) :=
  sparesStack_of_eq rfl rfl

theorem sparesStack_executeNext {c : Cpu FlatMemory} (hsp : .sp ∉ c.affected)
    (hwrites : (c.instructionWrites (Instruction.decode c.bus c.pc)).all
      (fun entry => !decide (InStackPage entry.1)) = true) : c.SparesStack c.executeNext where
  sp := c.changes_executeNext.others .sp hsp (by simp) (by simp)
  page address haddress := by
    rw [executeNext_bus]
    refine read_replay_of_elsewhere _ _ (fun entry hentry => ?_) haddress
    simpa using List.all_eq_true.mp hwrites entry hentry

theorem uses_jsr {c : Cpu FlatMemory} {mode : Mode}
    (h : Opcode.decode (Bus.read c.bus c.pc) = some ⟨.jsr, mode⟩) :
    c.Uses (StackUse.call c.pc).bytes c.executeNext := by
  obtain rfl := Opcode.jsr_mode_of_decode h rfl
  have hsite : (c.fetch.skipOperand .absolute).pc - 1 = c.pc + 2 := by
    simp only [skipOperand_fields, fetch_fields, Mode.operandSize]
    bv_omega
  rw [executeNext_of_decode c h, execute]
  generalize c.fetch.address .absolute = target
  generalize c.fetch.operand .absolute = operand
  have hword := (c.fetch.skipOperand .absolute).uses_pushWord
    ((c.fetch.skipOperand .absolute).pc - 1)
  have hjump : ((c.fetch.skipOperand .absolute).pushWord
      ((c.fetch.skipOperand .absolute).pc - 1)).SparesStack
      ((c.fetch.skipOperand .absolute).call target) :=
    sparesStack_of_eq rfl rfl
  rw [hsite] at hword hjump
  exact .spare (c.sparesStack_skipOperand _) (hword.trans hjump.uses)

theorem uses_rts {c : Cpu FlatMemory} {mode : Mode}
    (h : Opcode.decode (Bus.read c.bus c.pc) = some ⟨.rts, mode⟩) :
    c.Uses (StackUse.ret c.executeNext.pc).bytes c.executeNext := by
  have hnext : c.executeNext = (c.fetch.skipOperand mode).returnFromCall := by
    rw [executeNext_of_decode c h]
    rfl
  have htarget : c.executeNext.pc - 1 = Word.ofBytes (c.pulled 0) (c.pulled 1) := by
    rw [hnext, (returnFromCall_fields _).2.2.2.1]
    exact BitVec.add_sub_cancel _ _
  have hword := (c.fetch.skipOperand mode).uses_pullWord
  have hjump : (c.fetch.skipOperand mode).pullWord.2.SparesStack
      (c.fetch.skipOperand mode).returnFromCall :=
    sparesStack_of_eq rfl rfl
  rw [StackUse.bytes, htarget, Word.low_ofBytes, Word.high_ofBytes, hnext]
  exact .spare (c.sparesStack_skipOperand _) (hword.trans hjump.uses)

theorem uses_executeNext_of_decode {c : Cpu FlatMemory} {op : Opcode}
    (h : Opcode.decode (Bus.read c.bus c.pc) = some op) (hleaves : c.leavesStack = true) :
    c.Uses (c.stackUses.flatMap StackUse.bytes) c.executeNext := by
  have hskipped := c.sparesStack_skipOperand op.mode
  have hnext : c.executeNext = (c.fetch.skipOperand op.mode).act op.mode
      (c.fetch.address op.mode) (c.fetch.operand op.mode) op.mnemonic :=
    executeNext_of_decode c h
  obtain ⟨mnemonic, mode⟩ := op
  simp only [leavesStack, mnemonic?, h, Option.map_some] at hleaves
  simp only [stackUses, mnemonic?, h, Option.map_some]
  -- For all but the uses of the stack and `TXS`, which loads the stack pointer.
  have hothers : .sp ∉ mnemonic.changes mode → (c.instructionWrites
      (Instruction.decode c.bus c.pc)).all (fun entry => !decide (InStackPage entry.1)) = true →
      c.Uses [] c.executeNext := by
    intro hsp hwrites
    have haffected : .sp ∉ c.affected := by rwa [affected, h]
    exact (sparesStack_executeNext haffected hwrites).uses
  cases mnemonic with
  | jsr =>
    rw [List.flatMap_singleton]
    exact uses_jsr h
  | rts =>
    rw [List.flatMap_singleton]
    exact uses_rts h
  | pha | php =>
    rw [hnext]
    exact .spare hskipped (.push _ (.refl _))
  | pla =>
    have hvalue : c.executeNext.a = c.pulled 0 := by
      rw [hnext]
      exact (resultInA_fields _ (c.fetch.skipOperand mode).pull.1).1.trans (pull_fst _)
    rw [hvalue, hnext]
    have hresult : (c.fetch.skipOperand mode).pull.2.SparesStack
        ((c.fetch.skipOperand mode).pull.2.resultInA (c.fetch.skipOperand mode).pull.1) :=
      sparesStack_of_eq (by simp) (by simp)
    exact .spare hskipped ((uses_pull _).trans hresult.uses)
  | plp =>
    rw [hnext]
    have hresult : (c.fetch.skipOperand mode).pull.2.SparesStack
        ((c.fetch.skipOperand mode).pull.2.setStatus (c.fetch.skipOperand mode).pull.1) :=
      sparesStack_of_eq (by simp) (by simp)
    exact .spare hskipped ((uses_pull _).trans hresult.uses)
  | rti =>
    rw [hnext]
    exact .spare hskipped (uses_returnFromInterrupt _)
  | txs =>
    have hsp : c.x = c.sp := by simpa using hleaves
    rw [hnext]
    have hsame : (c.fetch.skipOperand mode).SparesStack
        ((c.fetch.skipOperand mode).setSp (c.fetch.skipOperand mode).x) :=
      sparesStack_of_eq (by simp [hsp]) (by simp)
    exact .spare hskipped hsame.uses
  | asl | lsr | rol | ror =>
    refine hothers ?_ hleaves
    rw [Mnemonic.changes]
    split <;> decide
  | _ => exact hothers (by simp [Mnemonic.changes, Part.zeroNegative]) hleaves

/-- The stack and the stack pointer change through the uses of the stack and in no other way. -/
theorem uses_executeNext {c : Cpu FlatMemory} (hleaves : c.leavesStack = true) :
    c.Uses (c.stackUses.flatMap StackUse.bytes) c.executeNext := by
  cases h : Opcode.decode (Bus.read c.bus c.pc) with
  | some op => exact uses_executeNext_of_decode h hleaves
  | none =>
    simp only [stackUses, mnemonic?, h, Option.map_none]
    rw [executeNext_of_undocumented c h]
    exact SparesStack.uses (sparesStack_of_eq rfl rfl)

def frameUses [Bus β] (c : Cpu β) : List StackUse :=
  c.frameWrites.map fun entry => .push entry.2

theorem uses_enter (c : Cpu FlatMemory) (kind : Interrupt) :
    c.Uses (c.frameUses.flatMap StackUse.bytes) (c.enter kind) := by
  have hframe : c.Uses (c.frameUses.flatMap StackUse.bytes) c.pushFrame := by
    have hstatus := c.pushWord_status c.pc
    rw [frameUses, frameWrites, ← hstatus]
    exact (c.uses_pushWord c.pc).trans (.push _ (.refl _))
  have hserved : c.pushFrame.SparesStack (c.enter kind) := by
    cases kind with
    | nmi | irq => exact sparesStack_of_eq (by simp [enter, serve]) (by simp [enter, serve])
  simpa using hframe.trans hserved.uses

theorem changes_enter (c : Cpu FlatMemory) (kind : Interrupt) :
    Changes [.sp, .flag .interruptDisable, .servicing] (pushFaults 3 c.sp) c (c.enter kind) := by
  have hframe := (c.changes_pushWord c.pc).trans (changes_push _ (c.pushWord c.pc).status.packed)
  have hsp : (c.pushWord c.pc).sp = lowered (lowered c.sp) := by
    rw [pushWord, push_sp, push_sp]
  have hfaults : pushFaults 2 c.sp ++ pushFaults 1 (c.pushWord c.pc).sp = pushFaults 3 c.sp := by
    simp [pushFaults, hsp]
  rw [hfaults] at hframe
  have hserved : ∀ (d : Cpu FlatMemory) (vector : Word),
      Changes [.servicing] [] d (d.serve vector) := by
    intro d vector
    have hjumped : Changes [] [] d { d with pc := Bus.readWord d.bus vector } :=
      changes_nothing rfl rfl rfl rfl rfl rfl rfl
    exact hjumped.trans (changes_servicing _ true)
  cases kind with
  | nmi =>
    have hentered := hframe.trans (hserved c.pushFrame nmiVector)
    rw [List.append_nil] at hentered
    exact hentered.mono (by decide)
  | irq =>
    have hdisabled := hframe.trans
      (changes_setFlag c.pushFrame .interruptDisable (by decide) (by decide) true)
    have hentered := hdisabled.trans (hserved _ irqVector)
    rw [List.append_nil, List.append_nil] at hentered
    exact hentered.mono (by decide)

/-- The list tells which fault the work of an instruction or an entry meets first. -/
theorem head?_faults {c : Cpu FlatMemory} {stack : List Byte} (h : c.Holds stack)
    (huses : c.stackUses ≠ []) :
    c.faults.head? = StackEvent.fault? (c.stackUses.flatMap StackUse.bytes) stack := by
  cases hop : Opcode.decode (Bus.read c.bus c.pc) with
  | none => exact absurd (by simp only [stackUses, mnemonic?, hop, Option.map_none]) huses
  | some op =>
    simp only [stackUses, mnemonic?, hop, Option.map_some] at huses ⊢
    simp only [faults, hop]
    cases hmnemonic : op.mnemonic with
    | jsr => exact head?_pushFaults [_, _] h.depth
    | rts => exact head?_pullFaults [_, _] h.depth
    | pha | php => exact head?_pushFaults [_] h.depth
    | pla | plp => exact head?_pullFaults [_] h.depth
    | rti => exact head?_pullFaults [_, _, _] h.depth
    | _ => exact absurd (by rw [hmnemonic]) huses

theorem head?_frameFaults {c : Cpu FlatMemory} {stack : List Byte} (h : c.Holds stack) :
    (pushFaults 3 c.sp).head? =
      StackEvent.fault? (c.frameUses.flatMap StackUse.bytes) stack :=
  head?_pushFaults [_, _, _] h.depth

/-- From `c`, which has this stack, to `c'` these are the operations on it. If there is no room or
no byte for one of them, `c'` has halted. -/
structure Works (c : Cpu FlatMemory) (stack : List Byte) (events : List StackEvent)
    (c' : Cpu FlatMemory) : Prop where
  holds : c.Holds stack
  uses : c.Uses events c'
  halt : events ≠ [] → c'.halt = c.halt.or (StackEvent.fault? events stack)
  brk : events ≠ [] → c'.status.has .brk =
    (c.status.has .brk || (StackEvent.fault? events stack).isSome)

theorem Changes.works {c c' : Cpu FlatMemory} {parts : List Part} {faults : List Halt}
    {stack : List Byte} {events : List StackEvent} (h : Changes parts faults c c')
    (hholds : c.Holds stack) (huses : c.Uses events c')
    (hfaults : events ≠ [] → faults.head? = StackEvent.fault? events stack) :
    c.Works stack events c' where
  holds := hholds
  uses := huses
  halt hevents := by rw [h.halt, hfaults hevents]
  brk hevents := by
    rw [h.brk, ← hfaults hevents]
    cases faults <;> rfl

theorem Works.goOn {c mid c' : Cpu FlatMemory} {stack : List Byte} {events : List StackEvent}
    (h : c.Works stack events mid) (huses : mid.Uses [] c') (hon : mid.GoesOn c') :
    c.Works stack events c' where
  holds := h.holds
  uses := by simpa using h.uses.trans huses
  halt hevents := by rw [hon.1, h.halt hevents]
  brk hevents := by rw [hon.2, h.brk hevents]

theorem works_executeNext {c : Cpu FlatMemory} {stack : List Byte} (hholds : c.Holds stack)
    (hleaves : c.leavesStack = true) :
    c.Works stack (c.stackUses.flatMap StackUse.bytes) c.executeNext :=
  c.changes_executeNext.works hholds (uses_executeNext hleaves) fun hevents =>
    head?_faults hholds fun hnone => hevents (by rw [hnone, List.flatMap_nil])

theorem works_enter {c : Cpu FlatMemory} {stack : List Byte} (hholds : c.Holds stack)
    (kind : Interrupt) : c.Works stack (c.frameUses.flatMap StackUse.bytes) (c.enter kind) :=
  (c.changes_enter kind).works hholds (c.uses_enter kind) fun _ => head?_frameFaults hholds

theorem works_of_uses_nil {c c' : Cpu FlatMemory} {stack : List Byte} (hholds : c.Holds stack)
    (huses : c.Uses [] c') : c.Works stack [] c' :=
  ⟨hholds, huses, fun h => absurd rfl h, fun h => absurd rfl h⟩

end Cpu

end Nmos6502
