import Nmos6502.Cpu.Execute
import Nmos6502.Cpu.Interrupt
import Nmos6502.Proofs.Bus.Recorded

namespace Nmos6502

universe u v

variable {β : Type u} {γ : Type v}

namespace Cpu

/-- The processor on the bus that `f` makes of its own. -/
def transfer (c : Cpu β) (f : β → γ) (reported : Word) : Cpu γ where
  a := c.a
  x := c.x
  y := c.y
  sp := c.sp
  pc := c.pc
  status := c.status
  bus := f c.bus
  servicing := c.servicing
  halt := c.halt
  fetched := c.fetched
  undocumented := c.undocumented
  reportedPc := reported
  log := c.log

section Assignments

variable (c : Cpu β) (f : β → γ) (reported : Word)

@[simp] theorem transfer_fields :
    (c.transfer f reported).a = c.a ∧ (c.transfer f reported).x = c.x ∧
      (c.transfer f reported).y = c.y ∧ (c.transfer f reported).sp = c.sp ∧
      (c.transfer f reported).pc = c.pc ∧ (c.transfer f reported).status = c.status ∧
      (c.transfer f reported).bus = f c.bus ∧
      (c.transfer f reported).servicing = c.servicing ∧
      (c.transfer f reported).halt = c.halt ∧ (c.transfer f reported).fetched = c.fetched ∧
      (c.transfer f reported).undocumented = c.undocumented ∧
      (c.transfer f reported).log = c.log ∧ (c.transfer f reported).reportedPc = reported := by
  simp [transfer]

theorem transfer_assign (what : Observable) (value : Word) :
    (c.transfer f reported).assign what value = (c.assign what value).transfer f reported := by
  have hvalue : (c.transfer f reported).value what = c.value what := by
    cases what <;> rfl
  simp only [assign, hvalue]
  split
  · rfl
  · cases what <;> rfl

theorem transfer_setFlags (mask : Byte) (on : Bool) :
    (c.transfer f reported).setFlags mask on = (c.setFlags mask on).transfer f reported := by
  simp only [setFlags]
  split
  · rfl
  · exact c.transfer_assign f reported ..

theorem transfer_setFlag (flag : Flag) (on : Bool) :
    (c.transfer f reported).setFlag flag on = (c.setFlag flag on).transfer f reported :=
  c.transfer_setFlags f reported flag.mask on

theorem transfer_setZN (value : Byte) :
    (c.transfer f reported).setZN value = (c.setZN value).transfer f reported := by
  simp only [setZN, transfer_setFlag]

theorem transfer_setStatus (packed : Byte) :
    (c.transfer f reported).setStatus packed = (c.setStatus packed).transfer f reported := by
  simp only [setStatus, loadedFlags, List.foldl_cons, List.foldl_nil, transfer_setFlag]

theorem transfer_stop (why : Halt) :
    (c.transfer f reported).stop why = (c.stop why).transfer f reported :=
  transfer_setFlag { c with halt := c.halt.or (some why) } f reported ..

theorem transfer_branch (taken : Bool) (target : Word) :
    (c.transfer f reported).branch taken target = (c.branch taken target).transfer f reported := by
  cases taken <;> rfl

theorem transfer_reportPc :
    (c.transfer f c.reportedPc).reportPc = c.reportPc.transfer f c.reportPc.reportedPc := by
  simp only [reportPc, transfer_fields]
  split <;> rfl

end Assignments

variable [Bus β] [Bus γ] {f : β → γ}

theorem transfer_store (hf : Bus.Faithful f) (c : Cpu β) (reported : Word) (address : Word)
    (value : Byte) :
    (c.transfer f reported).store address value = (c.store address value).transfer f reported := by
  simp [store, Bus.store, record, transfer, hf.write, hf.signal]

theorem transfer_push (hf : Bus.Faithful f) (c : Cpu β) (reported : Word) (value : Byte) :
    (c.transfer f reported).push value = (c.push value).transfer f reported := by
  have hslot : (c.transfer f reported).stackSlot = c.stackSlot := rfl
  simp only [push, hslot, transfer_store hf, transfer_fields]
  split
  · exact transfer_stop ..
  · exact transfer_assign ..

theorem transfer_pull (hf : Bus.Faithful f) (c : Cpu β) (reported : Word) :
    (c.transfer f reported).pull = (c.pull.1, c.pull.2.transfer f reported) := by
  simp only [pull, transfer_fields]
  split
  · rw [transfer_stop]
  · simp only [setSp, transfer_assign, transfer_fields, hf.read]
    rfl

theorem transfer_pushWord (hf : Bus.Faithful f) (c : Cpu β) (reported : Word) (value : Word) :
    (c.transfer f reported).pushWord value = (c.pushWord value).transfer f reported := by
  simp only [pushWord, transfer_push hf]

theorem transfer_pullWord (hf : Bus.Faithful f) (c : Cpu β) (reported : Word) :
    (c.transfer f reported).pullWord = (c.pullWord.1, c.pullWord.2.transfer f reported) := by
  simp only [pullWord, transfer_pull hf]

theorem transfer_putBack (hf : Bus.Faithful f) (c : Cpu β) (reported : Word) (mode : Mode)
    (address : Word) (value : Byte) :
    (c.transfer f reported).putBack mode address value =
      (c.putBack mode address value).transfer f reported := by
  simp only [putBack]
  split
  · simp only [setA, transfer_assign, transfer_setZN]
  · simp only [transfer_store hf, transfer_setZN]

theorem transfer_address? (hf : Bus.Faithful f) (c : Cpu β) (reported : Word) (mode : Mode) :
    (c.transfer f reported).address? mode = c.address? mode := by
  cases mode <;>
    simp [address?, operandByte, operandWord, pointerAt, Bus.readWord, hf.read]

theorem transfer_act (hf : Bus.Faithful f) (c : Cpu β) (reported : Word) (mode : Mode)
    (address : Word) (operand : Byte) (mnemonic : Mnemonic) :
    (c.transfer f reported).act mode address operand mnemonic =
      (c.act mode address operand mnemonic).transfer f reported := by
  cases mnemonic with
  | jmp => rfl
  | jsr =>
    simp only [act, call, transfer_fields, transfer_pushWord hf]
    rfl
  | rts =>
    simp only [act, returnFromCall, transfer_pullWord hf]
    rfl
  | rti =>
    have hjumped : ∀ (d : Cpu β) (target : Word),
        ({ d.transfer f reported with pc := target } : Cpu γ) =
          ({ d with pc := target } : Cpu β).transfer f reported :=
      fun _ _ => rfl
    simp only [act, returnFromInterrupt, transfer_pull hf, transfer_setStatus,
      transfer_pullWord hf, hjumped, transfer_setFlag]
    rfl
  | brk => exact transfer_stop { c with pc := c.pc - 1 } ..
  | pla | plp =>
    simp only [act, transfer_pull hf, resultInA, setA, transfer_assign, transfer_setZN,
      transfer_setStatus]
  | _ =>
    simp only [act, addToA, resultInA, resultInX, resultInY, compare, testBits, putShifted, setA,
      setX, setY, setSp, transfer_fields, transfer_assign, transfer_setFlag, transfer_setZN,
      transfer_branch, transfer_store hf, transfer_push hf, transfer_putBack hf]

theorem transfer_executeNext (hf : Bus.Faithful f) (c : Cpu β) (reported : Word) :
    (c.transfer f reported).executeNext = c.executeNext.transfer f reported := by
  have hexecute : ∀ (d : Cpu β) (op : Opcode),
      (d.transfer f reported).execute op = (d.execute op).transfer f reported := by
    intro d op
    have hskip : (d.transfer f reported).skipOperand op.mode =
        (d.skipOperand op.mode).transfer f reported := rfl
    simp only [execute, hskip, transfer_act hf, address, operand, transfer_address? hf,
      transfer_fields, hf.read]
  simp only [executeNext, transfer_fields, hf.read]
  cases Opcode.decode (Bus.read c.bus c.pc) with
  | none => rfl
  | some op => exact hexecute { c with pc := c.pc + 1, fetched := c.fetched + 1 } op

theorem transfer_enter (hf : Bus.Faithful f) (c : Cpu β) (reported : Word) (kind : Interrupt) :
    (c.transfer f reported).enter kind = (c.enter kind).transfer f reported := by
  have hframe : (c.transfer f reported).pushFrame = c.pushFrame.transfer f reported := by
    simp only [pushFrame, transfer_fields, transfer_pushWord hf, transfer_push hf]
  have hserve : ∀ (d : Cpu β) (vector : Word),
      (d.transfer f reported).serve vector = (d.serve vector).transfer f reported := by
    intro d vector
    simp [serve, transfer, Bus.readWord, hf.read]
  cases kind <;> simp only [enter, hframe, transfer_setFlag, hserve]

theorem executeNext_reportedPc (c : Cpu β) : c.executeNext.reportedPc = c.reportedPc := by
  have h : c.executeNext = c.executeNext.transfer (fun bus => bus) c.reportedPc :=
    transfer_executeNext Bus.Faithful.id c c.reportedPc
  rw [h, transfer]

theorem enter_reportedPc (c : Cpu β) (kind : Interrupt) :
    (c.enter kind).reportedPc = c.reportedPc := by
  have h : c.enter kind = (c.enter kind).transfer (fun bus => bus) c.reportedPc :=
    transfer_enter Bus.Faithful.id c c.reportedPc kind
  rw [h, transfer]

end Cpu
end Nmos6502
