import Nmos6502.Proofs.Cpu.Bodies
import Nmos6502.Proofs.Cpu.Decoding
import Nmos6502.Proofs.Cpu.Stable

namespace Nmos6502

universe u

/-- Where a push leaves the stack pointer. -/
def lowered (sp : Byte) : Byte :=
  if sp = 0x00 then sp else sp - 1

/-- Where a pull leaves the stack pointer. -/
def raised (sp : Byte) : Byte :=
  if sp = 0xFF then sp else sp + 1

/-- The faults of several pushes in a row, the first of them with the stack pointer at `sp`. -/
def pushFaults : Nat → Byte → List Halt
  | 0, _ => []
  | n + 1, sp => (if sp = 0x00 then [.stackOverflow] else []) ++ pushFaults n (lowered sp)

/-- The faults of several pulls in a row, the first of them with the stack pointer at `sp`. -/
def pullFaults : Nat → Byte → List Halt
  | 0, _ => []
  | n + 1, sp => (if sp = 0xFF then [.stackUnderflow] else []) ++ pullFaults n (raised sp)

/-- The faults of an instruction that begins with the stack pointer at `sp`. -/
def Mnemonic.faults (sp : Byte) : Mnemonic → List Halt
  | .brk => [.brk]
  | .pha | .php => pushFaults 1 sp
  | .jsr => pushFaults 2 sp
  | .pla | .plp => pullFaults 1 sp
  | .rts => pullFaults 2 sp
  | .rti => pullFaults 3 sp
  | _ => []

namespace Cpu

variable {β : Type u}

/-- On the way from `c` to `c'` the processor meets these faults, in their order. -/
structure Meets (c : Cpu β) (faults : List Halt) (c' : Cpu β) : Prop where
  halt : c'.halt = c.halt.or faults.head?
  latched : c.Latched → c'.Latched

namespace Meets

variable {c c' c'' : Cpu β} {faults faults' : List Halt}

theorem nothing (hhalt : c'.halt = c.halt) (hlatched : c.Latched → c'.Latched) : c.Meets [] c' :=
  ⟨by simp [hhalt], hlatched⟩

theorem refl (c : Cpu β) : c.Meets [] c :=
  nothing rfl id

theorem trans (h : c.Meets faults c') (h' : c'.Meets faults' c'') :
    c.Meets (faults ++ faults') c'' := by
  refine ⟨?_, fun hc => h'.latched (h.latched hc)⟩
  rw [h'.halt, h.halt, List.head?_append, Option.or_assoc]

theorem halt_of_some (h : c.Meets faults c') {why : Halt} (hc : c.halt = some why) :
    c'.halt = some why := by
  rw [h.halt, hc, Option.some_or]

end Meets

theorem meets_stop (c : Cpu β) (why : Halt) : c.Meets [why] (c.stop why) where
  halt := (c.stop_fields why).2.2.2.2.2.2.2.1
  latched _ := by simp [Latched, Status.has_assign]

variable [Bus β]

theorem push_sp (c : Cpu β) (value : Byte) : (c.push value).sp = lowered c.sp := by
  unfold push lowered
  dsimp only
  simp only [store_fields]
  split <;> simp

theorem pull_sp (c : Cpu β) : c.pull.2.sp = raised c.sp := by
  rw [pull, raised]
  split <;> simp

theorem meets_push (c : Cpu β) (value : Byte) : c.Meets (pushFaults 1 c.sp) (c.push value) := by
  have hstored : c.Meets [] (c.store c.stackSlot value) :=
    .nothing (by simp) (stable_latched.store c _ value)
  unfold push
  dsimp only
  simp only [store_fields, pushFaults, List.append_nil]
  split
  · exact hstored.trans (meets_stop _ _)
  · exact hstored.trans (.nothing (by simp) (stable_latched.setSp _))

theorem meets_pull (c : Cpu β) : c.Meets (pullFaults 1 c.sp) c.pull.2 := by
  rw [pull]
  simp only [pullFaults, List.append_nil]
  split
  · exact meets_stop c _
  · exact .nothing (by simp) (stable_latched.setSp _)

theorem meets_pushWord (c : Cpu β) (value : Word) :
    c.Meets (pushFaults 2 c.sp) (c.pushWord value) := by
  have hboth := (c.meets_push (Word.high value)).trans (meets_push _ (Word.low value))
  rw [push_sp] at hboth
  simpa [pushFaults, pushWord] using hboth

theorem meets_pullWord (c : Cpu β) : c.Meets (pullFaults 2 c.sp) c.pullWord.2 := by
  have hboth := c.meets_pull.trans (meets_pull _)
  rw [pull_sp] at hboth
  simpa [pullFaults, pullWord] using hboth

theorem meets_enter (c : Cpu β) (kind : Interrupt) :
    c.Meets (pushFaults 3 c.sp) (c.enter kind) := by
  have hframe := (c.meets_pushWord c.pc).trans (meets_push _ (c.pushWord c.pc).status.packed)
  have hsp : (c.pushWord c.pc).sp = lowered (lowered c.sp) := by
    rw [pushWord, push_sp, push_sp]
  refine ⟨?_, stable_latched.enter kind⟩
  have hhalt : (c.enter kind).halt = c.pushFrame.halt := by
    cases kind <;> simp [enter, serve]
  rw [hhalt, pushFrame, hframe.halt, hsp]
  simp [pushFaults]

theorem meets_returnFromInterrupt (c : Cpu β) :
    c.Meets (pullFaults 3 c.sp) c.returnFromInterrupt := by
  have hstatus : c.pull.2.Meets [] (c.pull.2.setStatus c.pull.1) :=
    .nothing (by simp) (stable_latched.setStatus _)
  have hframe := (c.meets_pull.trans hstatus).trans (meets_pullWord _)
  refine ⟨?_, stable_latched.returnFromInterrupt⟩
  have hhalt : c.returnFromInterrupt.halt =
      (c.pull.2.setStatus c.pull.1).pullWord.2.halt := by
    simp [returnFromInterrupt]
  simpa [hhalt, pull_sp, pullFaults] using hframe.halt

theorem meets_act (c : Cpu β) (mode : Mode) (address : Word) (operand : Byte)
    (mnemonic : Mnemonic) :
    c.Meets (mnemonic.faults c.sp) (c.act mode address operand mnemonic) := by
  refine ⟨?_, stable_latched.act mode address operand mnemonic⟩
  cases mnemonic with
  | brk => simp [act, Mnemonic.faults]
  | pha | php => exact (c.meets_push _).halt
  | jsr => exact (c.meets_pushWord _).halt
  | pla | plp =>
    rw [Mnemonic.faults, ← c.meets_pull.halt]
    simp [act]
  | rts => exact c.meets_pullWord.halt
  | rti => exact c.meets_returnFromInterrupt.halt
  | _ => simp [act, Mnemonic.faults]

def faults (c : Cpu β) : List Halt :=
  match Opcode.decode (Bus.read c.bus c.pc) with
  | some op => op.mnemonic.faults c.sp
  | none => []

theorem meets_executeNext (c : Cpu β) : c.Meets c.faults c.executeNext := by
  refine ⟨?_, stable_latched.executeNext⟩
  cases h : Opcode.decode (Bus.read c.bus c.pc) with
  | none => simp [executeNext_of_undocumented c h, faults, h]
  | some op =>
    have hact := meets_act (c.fetch.skipOperand op.mode) op.mode (c.fetch.address op.mode)
      (c.fetch.operand op.mode) op.mnemonic
    simpa [executeNext_of_decode c h, execute, faults, h] using hact.halt

end Cpu

end Nmos6502
