import Nmos6502.Bus.Flat
import Nmos6502.Machine.Setup
import Nmos6502.Proofs.Cpu.Faults
import Nmos6502.Proofs.Machine.Step

/-!
The registers and flags that each instruction may change. A fault of the stack adds the Break flag
and the reason to halt, and nothing adds anything else.
-/

namespace Nmos6502

universe u

variable {β : Type u}

/-- A part of the processor, the program counter apart. -/
inductive Part where
  | a | x | y | sp
  | flag (flag : Flag)
  | halt
  | servicing
  deriving DecidableEq

namespace Part

def zeroNegative : List Part :=
  [.flag .zero, .flag .negative]

/-- The flags that come from a byte on the stack. -/
def loaded : List Part :=
  Cpu.loadedFlags.map .flag

def ofFaults (faults : List Halt) : List Part :=
  if faults = [] then [] else [.flag .brk, .halt]

end Part

/-- What an instruction may change unless it meets a fault. -/
def Mnemonic.changes (mode : Mode) : Mnemonic → List Part
  | .bcc | .bcs | .bne | .beq | .bpl | .bmi | .bvc | .bvs | .jmp | .nop | .sta | .stx | .sty => []
  | .brk => [.flag .brk, .halt]
  | .lda | .txa | .tya | .and | .ora | .eor => .a :: Part.zeroNegative
  | .ldx | .tax | .tsx | .inx | .dex => .x :: Part.zeroNegative
  | .ldy | .tay | .iny | .dey => .y :: Part.zeroNegative
  | .adc | .sbc => [.a, .flag .negative, .flag .overflow, .flag .zero, .flag .carry]
  | .cmp | .cpx | .cpy => [.flag .negative, .flag .zero, .flag .carry]
  | .bit => [.flag .negative, .flag .overflow, .flag .zero]
  | .asl | .lsr | .rol | .ror =>
    (if mode = .accumulator then [.a] else []) ++
      [.flag .negative, .flag .zero, .flag .carry]
  | .inc | .dec => Part.zeroNegative
  | .clc | .sec => [.flag .carry]
  | .cli | .sei => [.flag .interruptDisable]
  | .cld | .sed => [.flag .decimal]
  | .clv => [.flag .overflow]
  | .txs | .pha | .php | .jsr | .rts => [.sp]
  | .pla => .sp :: .a :: Part.zeroNegative
  | .plp => .sp :: Part.loaded
  | .rti => .sp :: .servicing :: Part.loaded

namespace Cpu

/-- Both processors have the same in this part. -/
def Agrees (c d : Cpu β) : Part → Prop
  | .a => d.a = c.a
  | .x => d.x = c.x
  | .y => d.y = c.y
  | .sp => d.sp = c.sp
  | .flag flag => d.status.has flag = c.status.has flag
  | .halt => d.halt = c.halt
  | .servicing => d.servicing = c.servicing

theorem Agrees.trans {c d e : Cpu β} {part : Part} (h : c.Agrees d part) (h' : d.Agrees e part) :
    c.Agrees e part := by
  cases part <;> exact Eq.trans h' h

/-- On the way from `c` to `d` nothing changes but these parts, and what the faults change. -/
structure Changes (parts : List Part) (faults : List Halt) (c d : Cpu β) : Prop where
  others : ∀ part, part ∉ parts → part ≠ .flag .brk → part ≠ .halt → c.Agrees d part
  brk : d.status.has .brk = (c.status.has .brk || !faults.isEmpty)
  halt : d.halt = c.halt.or faults.head?

namespace Changes

variable {parts parts' : List Part} {faults faults' : List Halt} {c d e : Cpu β}

theorem refl (c : Cpu β) : Changes [] [] c c where
  others part _ _ _ := by
    cases part <;> rfl
  brk := (Bool.or_false _).symm
  halt := Option.or_none.symm

theorem trans (h : Changes parts faults c d) (h' : Changes parts' faults' d e) :
    Changes (parts ++ parts') (faults ++ faults') c e where
  others part hpart hbrk hhalt := by
    rw [List.mem_append, not_or] at hpart
    exact (h.others part hpart.1 hbrk hhalt).trans (h'.others part hpart.2 hbrk hhalt)
  brk := by
    rw [h'.brk, h.brk, Bool.or_assoc]
    cases faults with
    | nil => rfl
    | cons fault faults => rfl
  halt := by
    rw [h'.halt, h.halt, List.head?_append, Option.or_assoc]

theorem mono (h : Changes parts faults c d) (hparts : ∀ part ∈ parts, part ∈ parts') :
    Changes parts' faults c d where
  others part hpart := h.others part fun hmem => hpart (hparts part hmem)
  brk := h.brk
  halt := h.halt

theorem agrees (h : Changes parts faults c d) {part : Part}
    (hpart : part ∉ parts ++ Part.ofFaults faults) : c.Agrees d part := by
  rw [List.mem_append, not_or] at hpart
  -- Break and the reason to halt are the parts that only the faults decide about.
  rcases Decidable.em (part = .flag .brk ∨ part = .halt) with hfault | hother
  · have hnone : faults = [] := by
      apply Classical.byContradiction
      intro hfaults
      apply hpart.2
      rw [Part.ofFaults, if_neg hfaults]
      simpa using hfault
    subst hnone
    rcases hfault with rfl | rfl
    · exact h.brk.trans (Bool.or_false _)
    · exact h.halt.trans Option.or_none
  · rw [not_or] at hother
    exact h.others part hpart.1 hother.1 hother.2

end Changes

end Cpu

def Observable.parts : Observable → List Part
  | .a => [.a]
  | .x => [.x]
  | .y => [.y]
  | .sp => [.sp]
  | .pc => []
  | .flag _ => []

namespace Cpu

theorem changes_assign (c : Cpu β) (what : Observable) (hwhat : ∀ mask, what ≠ .flag mask)
    (value : Word) : Changes what.parts [] c (c.assign what value) where
  others part hpart _ _ := by
    have hstatus := c.assign_status what value hwhat
    cases part with
    | flag flag => exact congrArg (Status.has · flag) hstatus
    | a | x | y | sp | halt | servicing =>
      cases what <;> simp_all [Agrees, Observable.parts]
  brk := by simp [c.assign_status what value hwhat]
  halt := by simp

theorem changes_setFlag (c : Cpu β) (flag : Flag) (hbrk : flag ≠ .brk) (hunused : flag ≠ .unused)
    (on : Bool) : Changes [.flag flag] [] c (c.setFlag flag on) where
  others part hpart _ _ := by
    cases part with
    | flag other =>
      have hne : other ≠ flag := fun heq => hpart (by simp [heq])
      simp [Agrees, hunused, hne]
    | a | x | y | sp | halt | servicing => simp [Agrees]
  brk := by simp [hunused, Ne.symm hbrk]
  halt := by simp

theorem changes_setZN (c : Cpu β) (value : Byte) :
    Changes Part.zeroNegative [] c (c.setZN value) :=
  (c.changes_setFlag .zero (by decide) (by decide) _).trans
    (changes_setFlag _ .negative (by decide) (by decide) _)

theorem changes_setStatus (c : Cpu β) (packed : Byte) :
    Changes Part.loaded [] c (c.setStatus packed) := by
  have hflags : ∀ flags : List Flag, .brk ∉ flags → .unused ∉ flags → ∀ c : Cpu β,
      Changes (flags.map .flag) [] c
        (flags.foldl (fun c flag => c.setFlag flag ((Status.mk packed).has flag)) c) := by
    intro flags
    induction flags with
    | nil => exact fun _ _ c => .refl c
    | cons flag flags ih =>
      intro hbrk hunused c
      rw [List.mem_cons, not_or] at hbrk hunused
      exact (c.changes_setFlag flag (Ne.symm hbrk.1) (Ne.symm hunused.1) _).trans
        (ih hbrk.2 hunused.2 _)
  exact hflags loadedFlags (by decide) (by decide) c

theorem changes_stop (c : Cpu β) (why : Halt) : Changes [] [why] c (c.stop why) where
  others part _ hbrk hhalt := by
    cases part with
    | flag flag =>
      have hne : flag ≠ .brk := fun heq => hbrk (by rw [heq])
      simp [Agrees, Status.has_assign, hne]
    | halt => exact absurd rfl hhalt
    | a | x | y | sp | servicing => simp [Agrees]
  brk := by simp [Status.has_assign]
  halt := by simp

theorem changes_nothing {c d : Cpu β} (ha : d.a = c.a) (hx : d.x = c.x) (hy : d.y = c.y)
    (hsp : d.sp = c.sp) (hstatus : d.status = c.status) (hhalt : d.halt = c.halt)
    (hservicing : d.servicing = c.servicing) : Changes [] [] c d where
  others part _ _ _ := by
    cases part with
    | a => exact ha
    | x => exact hx
    | y => exact hy
    | sp => exact hsp
    | flag flag => exact congrArg (Status.has · flag) hstatus
    | halt => exact hhalt
    | servicing => exact hservicing
  brk := by rw [hstatus, List.isEmpty_nil, Bool.not_true, Bool.or_false]
  halt := by rw [hhalt, List.head?_nil, Option.or_none]

theorem changes_servicing (c : Cpu β) (on : Bool) :
    Changes [.servicing] [] c { c with servicing := on } where
  others part hpart _ _ := by
    cases part with
    | servicing => exact absurd (List.mem_singleton_self _) hpart
    | a | x | y | sp | flag _ | halt => rfl
  brk := (Bool.or_false _).symm
  halt := Option.or_none.symm

theorem changes_resultInA (c : Cpu β) (value : Byte) :
    Changes (.a :: Part.zeroNegative) [] c (c.resultInA value) :=
  (c.changes_assign .a (by simp) _).trans (changes_setZN _ value)

theorem changes_resultInX (c : Cpu β) (value : Byte) :
    Changes (.x :: Part.zeroNegative) [] c (c.resultInX value) :=
  (c.changes_assign .x (by simp) _).trans (changes_setZN _ value)

theorem changes_resultInY (c : Cpu β) (value : Byte) :
    Changes (.y :: Part.zeroNegative) [] c (c.resultInY value) :=
  (c.changes_assign .y (by simp) _).trans (changes_setZN _ value)

theorem changes_addToA (c : Cpu β) (value : Byte) :
    Changes [.a, .flag .negative, .flag .overflow, .flag .zero, .flag .carry] [] c
      (c.addToA value) := by
  let sum := Alu.add c.a value (c.status.has .carry)
  have hflags := (c.changes_setFlag .carry (by decide) (by decide) sum.carry).trans
    (changes_setFlag _ .overflow (by decide) (by decide) sum.overflow)
  exact (hflags.trans (changes_resultInA _ sum.result)).mono (by decide)

theorem changes_compare (c : Cpu β) (register operand : Byte) :
    Changes [.flag .negative, .flag .zero, .flag .carry] [] c (c.compare register operand) :=
  (((c.changes_setFlag .zero (by decide) (by decide) _).trans
    (changes_setFlag _ .carry (by decide) (by decide) _)).trans
    (changes_setFlag _ .negative (by decide) (by decide) _)).mono (by decide)

theorem changes_testBits (c : Cpu β) (operand : Byte) :
    Changes [.flag .negative, .flag .overflow, .flag .zero] [] c (c.testBits operand) :=
  (((c.changes_setFlag .zero (by decide) (by decide) _).trans
    (changes_setFlag _ .negative (by decide) (by decide) _)).trans
    (changes_setFlag _ .overflow (by decide) (by decide) _)).mono (by decide)

theorem changes_branch (c : Cpu β) (taken : Bool) (target : Word) :
    Changes [] [] c (c.branch taken target) :=
  changes_nothing (by simp) (by simp) (by simp) (by simp) (by simp) (by simp) (by simp)

theorem changes_haltHere (c : Cpu β) : Changes [] [.brk] c c.haltHere := by
  have hmoved : Changes [] [] c { c with pc := c.pc - 1 } :=
    changes_nothing rfl rfl rfl rfl rfl rfl rfl
  exact hmoved.trans (changes_stop _ _)

theorem changes_reenabled (c : Cpu β) (address : Word) :
    Changes [.flag .interruptDisable, .servicing] [] c
      { { c with pc := address }.setFlag .interruptDisable false with servicing := false } := by
  have hjumped : Changes [] [] c { c with pc := address } :=
    changes_nothing rfl rfl rfl rfl rfl rfl rfl
  exact (hjumped.trans (changes_setFlag _ .interruptDisable (by decide) (by decide) false)).trans
    (changes_servicing _ false)

variable [Bus β]

theorem changes_store (c : Cpu β) (address : Word) (value : Byte) :
    Changes [] [] c (c.store address value) :=
  changes_nothing (by simp) (by simp) (by simp) (by simp) (by simp) (by simp) (by simp)

theorem changes_putBack (c : Cpu β) (mode : Mode) (address : Word) (value : Byte) :
    Changes ((if mode = .accumulator then [.a] else []) ++ Part.zeroNegative) [] c
      (c.putBack mode address value) := by
  unfold putBack
  dsimp only
  split
  · exact (c.changes_assign .a (by simp) _).trans (changes_setZN _ value)
  · exact (c.changes_store _ _).trans (changes_setZN _ value)

theorem changes_putShifted (c : Cpu β) (mode : Mode) (address : Word) (shifted : Alu.Shifted) :
    Changes ((if mode = .accumulator then [.a] else []) ++
        [.flag .negative, .flag .zero, .flag .carry]) [] c
      (c.putShifted mode address shifted) := by
  have hput := (c.changes_setFlag .carry (by decide) (by decide) shifted.carry).trans
    (changes_putBack _ mode address shifted.result)
  refine hput.mono ?_
  split <;> decide

theorem changes_push (c : Cpu β) (value : Byte) :
    Changes [.sp] (pushFaults 1 c.sp) c (c.push value) := by
  unfold push
  dsimp only
  simp only [store_fields, pushFaults, List.append_nil]
  split
  · exact ((c.changes_store _ _).trans (changes_stop _ _)).mono (by simp)
  · exact (c.changes_store _ _).trans (changes_assign _ .sp (by simp) _)

theorem changes_pull (c : Cpu β) : Changes [.sp] (pullFaults 1 c.sp) c c.pull.2 := by
  rw [pull]
  simp only [pullFaults, List.append_nil]
  split
  · exact (c.changes_stop _).mono (by simp)
  · exact c.changes_assign .sp (by simp) _

theorem changes_pushWord (c : Cpu β) (value : Word) :
    Changes [.sp] (pushFaults 2 c.sp) c (c.pushWord value) := by
  have hboth := (c.changes_push (Word.high value)).trans (changes_push _ (Word.low value))
  rw [push_sp] at hboth
  have hfaults : pushFaults 1 c.sp ++ pushFaults 1 (lowered c.sp) = pushFaults 2 c.sp := by
    simp [pushFaults]
  rw [hfaults] at hboth
  exact hboth.mono (by simp)

theorem changes_pullWord (c : Cpu β) : Changes [.sp] (pullFaults 2 c.sp) c c.pullWord.2 := by
  have hboth := c.changes_pull.trans (changes_pull _)
  rw [pull_sp] at hboth
  have hfaults : pullFaults 1 c.sp ++ pullFaults 1 (raised c.sp) = pullFaults 2 c.sp := by
    simp [pullFaults]
  rw [hfaults] at hboth
  exact hboth.mono (by simp)

theorem changes_call (c : Cpu β) (target : Word) :
    Changes [.sp] (pushFaults 2 c.sp) c (c.call target) := by
  have hjumped : Changes [] [] (c.pushWord (c.pc - 1)) (c.call target) :=
    changes_nothing rfl rfl rfl rfl rfl rfl rfl
  simpa using (c.changes_pushWord (c.pc - 1)).trans hjumped

theorem changes_returnFromCall (c : Cpu β) :
    Changes [.sp] (pullFaults 2 c.sp) c c.returnFromCall := by
  have hpulled := c.changes_pullWord
  rw [returnFromCall]
  generalize c.pullWord = pulled at hpulled ⊢
  have hjumped : Changes [] [] pulled.2 { pulled.2 with pc := pulled.1 + 1 } :=
    changes_nothing rfl rfl rfl rfl rfl rfl rfl
  simpa using hpulled.trans hjumped

theorem changes_returnFromInterrupt (c : Cpu β) :
    Changes (.sp :: .servicing :: Part.loaded) (pullFaults 3 c.sp) c c.returnFromInterrupt := by
  have hpulled := c.changes_pull
  have hsp := c.pull_sp
  rw [returnFromInterrupt]
  generalize c.pull = pulled at hpulled hsp ⊢
  have hstatus := hpulled.trans (changes_setStatus pulled.2 pulled.1)
  have hframe := hstatus.trans (changes_pullWord (pulled.2.setStatus pulled.1))
  have hfaults : pullFaults 1 c.sp ++ [] ++ pullFaults 2 (pulled.2.setStatus pulled.1).sp ++ [] =
      pullFaults 3 c.sp := by
    simp [pullFaults, hsp]
  dsimp only
  generalize (pulled.2.setStatus pulled.1).pullWord = frame at hframe ⊢
  have hreturned := hframe.trans (changes_reenabled frame.2 frame.1)
  rw [hfaults] at hreturned
  exact hreturned.mono (by decide)

theorem changes_act (c : Cpu β) {mode : Mode} (address : Word) (operand : Byte)
    {mnemonic : Mnemonic} (hmode : mnemonic = .inc ∨ mnemonic = .dec → mode ≠ .accumulator) :
    Changes (mnemonic.changes mode) (mnemonic.faults c.sp) c
      (c.act mode address operand mnemonic) := by
  cases mnemonic with
  | adc | sbc => exact c.changes_addToA _
  | and | ora | eor | lda | txa | tya => exact c.changes_resultInA _
  | ldx | inx | dex | tax | tsx => exact c.changes_resultInX _
  | ldy | iny | dey | tay => exact c.changes_resultInY _
  | cmp | cpx | cpy => exact c.changes_compare _ _
  | bit => exact c.changes_testBits _
  | bcc | bcs | bne | beq | bpl | bmi | bvc | bvs => exact c.changes_branch _ _
  | asl | lsr | rol | ror => exact c.changes_putShifted _ _ _
  | inc | dec =>
    have hchanges := c.changes_putBack mode address
    rw [if_neg (hmode (by simp))] at hchanges
    exact hchanges _
  | sta | stx | sty => exact c.changes_store _ _
  | jmp => exact changes_nothing rfl rfl rfl rfl rfl rfl rfl
  | jsr => exact c.changes_call _
  | rts => exact c.changes_returnFromCall
  | rti => exact c.changes_returnFromInterrupt
  | brk => exact c.changes_haltHere.mono (by simp)
  | nop => exact .refl c
  | pha | php => exact c.changes_push _
  | pla =>
    have hpulled := c.changes_pull.trans (changes_resultInA _ c.pull.1)
    rw [List.append_nil] at hpulled
    exact hpulled
  | plp =>
    have hpulled := c.changes_pull.trans (changes_setStatus _ c.pull.1)
    rw [List.append_nil] at hpulled
    exact hpulled
  | clc | sec | cli | sei | cld | sed | clv =>
    exact c.changes_setFlag _ (by decide) (by decide) _
  | txs => exact c.changes_assign .sp (by simp) _

/-- What the instruction at the program counter may change. -/
def affected (c : Cpu β) : List Part :=
  match Opcode.decode (Bus.read c.bus c.pc) with
  | some op => op.mnemonic.changes op.mode
  | none => []

theorem changes_executeNext (c : Cpu β) : Changes c.affected c.faults c c.executeNext := by
  cases h : Opcode.decode (Bus.read c.bus c.pc) with
  | none =>
    rw [executeNext_of_undocumented c h, affected, faults, h]
    exact changes_nothing rfl rfl rfl rfl rfl rfl rfl
  | some op =>
    have hmode : op.mnemonic = .inc ∨ op.mnemonic = .dec → op.mode ≠ .accumulator :=
      Opcode.of_decode (P := fun op => op.mnemonic = .inc ∨ op.mnemonic = .dec →
        op.mode ≠ .accumulator) (by decide +kernel) h
    have hskipped : Changes [] [] c (c.fetch.skipOperand op.mode) :=
      changes_nothing rfl rfl rfl rfl rfl rfl rfl
    rw [executeNext_of_decode c h, affected, faults, h, execute]
    generalize c.fetch.address op.mode = address
    generalize c.fetch.operand op.mode = operand
    exact hskipped.trans (changes_act (c.fetch.skipOperand op.mode) address operand hmode)

theorem executeNext_counters (c : Cpu β) :
    c.executeNext.fetched = c.fetched + 1 ∧
      c.executeNext.undocumented = c.undocumented +
        if Opcode.decode (Bus.read c.bus c.pc) = none then 1 else 0 := by
  cases h : Opcode.decode (Bus.read c.bus c.pc) with
  | none => simp [executeNext_of_undocumented c h]
  | some op =>
    rw [executeNext_of_decode c h, execute]
    generalize c.fetch.operand op.mode = operand
    cases op.mnemonic <;> simp [act]

end Cpu

/-- Where an instruction leaves a result. -/
inductive Place where
  | a | x | y
  | memory
  deriving DecidableEq

/-- The place of the result of which Zero and Negative tell. -/
def Mnemonic.result (mode : Mode) : Mnemonic → Option Place
  | .lda | .txa | .tya | .and | .ora | .eor | .adc | .sbc | .pla => some .a
  | .ldx | .tax | .tsx | .inx | .dex => some .x
  | .ldy | .tay | .iny | .dey => some .y
  | .asl | .lsr | .rol | .ror | .inc | .dec =>
    some (if mode = .accumulator then .a else .memory)
  | _ => none

namespace Cpu

/-- What is in a place, the one in memory being at `address`. -/
def held [Bus β] (c : Cpu β) (address : Word) : Place → Byte
  | .a => c.a
  | .x => c.x
  | .y => c.y
  | .memory => Bus.read c.bus address

/-- Zero is set exactly for the value zero, and Negative is bit 7 of the value. -/
def Shows (c : Cpu β) (value : Byte) : Prop :=
  c.status.has .zero = (value == 0) ∧ c.status.has .negative = value.msb

theorem setZN_shows (c : Cpu β) (value : Byte) : (c.setZN value).Shows value := by
  simp [Shows, setZN]

theorem resultInA_shows (c : Cpu β) (value : Byte) :
    (c.resultInA value).Shows (c.resultInA value).a := by
  rw [(c.resultInA_fields value).1]
  exact setZN_shows _ _

theorem resultInX_shows (c : Cpu β) (value : Byte) :
    (c.resultInX value).Shows (c.resultInX value).x := by
  rw [(c.resultInX_fields value).2.1]
  exact setZN_shows _ _

theorem resultInY_shows (c : Cpu β) (value : Byte) :
    (c.resultInY value).Shows (c.resultInY value).y := by
  rw [(c.resultInY_fields value).2.2.1]
  exact setZN_shows _ _

theorem putBack_shows (c : Cpu FlatMemory) (mode : Mode) (address : Word) (value : Byte) :
    (c.putBack mode address value).Shows ((c.putBack mode address value).held address
      (if mode = .accumulator then .a else .memory)) := by
  have hheld : (c.putBack mode address value).held address
      (if mode = .accumulator then .a else .memory) = value := by
    rcases Decidable.em (mode = .accumulator) with h | h
    · simp [held, h]
    · simp [held, h, FlatMemory.read_write]
  rw [hheld]
  exact setZN_shows _ _

theorem act_shows (c : Cpu FlatMemory) (mode : Mode) (address : Word) (operand : Byte)
    {mnemonic : Mnemonic} {place : Place} (h : mnemonic.result mode = some place) :
    (c.act mode address operand mnemonic).Shows
      ((c.act mode address operand mnemonic).held address place) := by
  cases mnemonic with
  | lda | txa | tya | and | ora | eor =>
    cases h
    exact resultInA_shows _ _
  | ldx | tax | tsx | inx | dex =>
    cases h
    exact resultInX_shows _ _
  | ldy | tay | iny | dey =>
    cases h
    exact resultInY_shows _ _
  | adc | sbc =>
    cases h
    exact resultInA_shows _ _
  | pla =>
    cases h
    exact resultInA_shows c.pull.2 c.pull.1
  | asl | lsr | rol | ror | inc | dec =>
    cases h
    exact putBack_shows _ _ _ _
  | _ => cases h

end Cpu

/-- What an instruction does to the registers, the flags and the counters. -/
structure Cpu.Effect (c d : Cpu FlatMemory) : Prop where
  fetched : d.fetched = c.fetched + 1
  undocumented : d.undocumented = c.undocumented +
    if Opcode.decode (Bus.read c.bus c.pc) = none then 1 else 0
  /-- Nothing changes but what the instruction may change, and the Break flag and the reason to halt
  if it meets a fault. -/
  others : ∀ part, part ∉ c.affected ++ Part.ofFaults c.faults → c.Agrees d part
  brk : d.status.has .brk = (c.status.has .brk || !c.faults.isEmpty)
  /-- The first fault is the reason to halt, if there was none before. -/
  halt : d.halt = c.halt.or c.faults.head?
  /-- Zero and Negative tell of the result of an instruction that leaves one. -/
  shows : ∀ op place, Opcode.decode (Bus.read c.bus c.pc) = some op →
    op.mnemonic.result op.mode = some place →
    d.Shows (d.held (c.fetch.address op.mode) place)

/-- A step without an interrupt has the effect of the instruction at the program counter. -/
theorem Machine.step_effect (m : Machine FlatMemory) (h : m.accepted = none) :
    m.cpu.Effect m.step.cpu := by
  have hchanges := m.cpu.changes_executeNext
  obtain ⟨hfetched, hundocumented⟩ := m.cpu.executeNext_counters
  have hstep : m.step.cpu =
      { m.cpu.executeNext with reportedPc := m.cpu.executeNext.pc, log := [] } := by
    rw [Machine.step_cpu, Machine.boundary_of_accepted_none h]
  rw [hstep]
  refine ⟨hfetched, hundocumented, ?_, hchanges.brk, hchanges.halt, ?_⟩
  · intro part hpart
    have hagrees := hchanges.agrees hpart
    cases part <;> exact hagrees
  · intro op place hop hplace
    have hshows := Cpu.act_shows (m.cpu.fetch.skipOperand op.mode) op.mode
      (m.cpu.fetch.address op.mode) (m.cpu.fetch.operand op.mode) hplace
    rw [Cpu.executeNext_of_decode m.cpu hop]
    cases place <;> exact hshows

/-- A machine about to pull the accumulator from an empty stack. -/
def emptyPull : Machine FlatMemory :=
  Machine.powerOn (Bus.write .zeroed 0x0000 0x68)

/-- The accumulator becomes zero, which Zero tells, and the stack pointer stays. -/
theorem step_effect_emptyPull :
    emptyPull.accepted = none ∧ emptyPull.cpu.Effect emptyPull.step.cpu ∧
      emptyPull.cpu.affected = [.sp, .a, .flag .zero, .flag .negative] ∧
      emptyPull.cpu.faults = [.stackUnderflow] ∧ emptyPull.step.cpu.sp = 0xFF :=
  ⟨by decide +kernel, emptyPull.step_effect (by decide +kernel), by decide +kernel,
    by decide +kernel, by decide +kernel⟩

end Nmos6502
