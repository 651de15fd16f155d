import Nmos6502.Cpu.Execute
import Nmos6502.Cpu.Interrupt
import Nmos6502.Proofs.Cpu.Flags

namespace Nmos6502

namespace Cpu

universe u

variable {β : Type u}

@[simp] theorem record_fields (c : Cpu β) (entry : Happening) :
    (c.record entry).a = c.a ∧ (c.record entry).x = c.x ∧ (c.record entry).y = c.y ∧
      (c.record entry).sp = c.sp ∧ (c.record entry).pc = c.pc ∧
      (c.record entry).status = c.status ∧ (c.record entry).bus = c.bus ∧
      (c.record entry).servicing = c.servicing ∧ (c.record entry).halt = c.halt ∧
      (c.record entry).fetched = c.fetched ∧ (c.record entry).undocumented = c.undocumented ∧
      (c.record entry).reportedPc = c.reportedPc ∧ (c.record entry).log = c.log ++ [entry] := by
  simp [record]

@[simp] theorem assign_fields (c : Cpu β) (what : Observable) (value : Word) :
    (c.assign what value).a = (if what = .a then Word.low value else c.a) ∧
      (c.assign what value).x = (if what = .x then Word.low value else c.x) ∧
      (c.assign what value).y = (if what = .y then Word.low value else c.y) ∧
      (c.assign what value).sp = (if what = .sp then Word.low value else c.sp) ∧
      (c.assign what value).pc = (if what = .pc then value else c.pc) ∧
      (c.assign what value).bus = c.bus ∧ (c.assign what value).servicing = c.servicing ∧
      (c.assign what value).halt = c.halt ∧ (c.assign what value).fetched = c.fetched ∧
      (c.assign what value).undocumented = c.undocumented ∧
      (c.assign what value).reportedPc = c.reportedPc := by
  rw [assign]
  split
  case isTrue h =>
    subst h
    cases what <;> simp [Cpu.value]
  case isFalse => cases what <;> simp [put]

@[simp] theorem assign_status (c : Cpu β) (what : Observable) (value : Word)
    (h : ∀ mask, what ≠ .flag mask) : (c.assign what value).status = c.status := by
  rw [assign]
  split
  · rfl
  · cases what with
    | flag mask => exact absurd rfl (h mask)
    | _ => rfl

attribute [simp] setA setX setY setSp

@[simp] theorem setFlag_fields (c : Cpu β) (flag : Flag) (on : Bool) :
    (c.setFlag flag on).a = c.a ∧ (c.setFlag flag on).x = c.x ∧ (c.setFlag flag on).y = c.y ∧
      (c.setFlag flag on).sp = c.sp ∧ (c.setFlag flag on).pc = c.pc ∧
      (c.setFlag flag on).bus = c.bus ∧ (c.setFlag flag on).servicing = c.servicing ∧
      (c.setFlag flag on).halt = c.halt ∧ (c.setFlag flag on).fetched = c.fetched ∧
      (c.setFlag flag on).undocumented = c.undocumented ∧
      (c.setFlag flag on).reportedPc = c.reportedPc := by
  rw [setFlag, setFlags]
  split <;> simp

theorem setFlag_status (c : Cpu β) {flag : Flag} (on : Bool) (h : flag ≠ .unused) :
    (c.setFlag flag on).status = c.status.assign flag.mask on := by
  have hmask : flag.mask ≠ Flag.unused.mask := fun e => h (Flag.mask_injective e)
  rw [setFlag, setFlags, if_neg hmask, assign]
  rcases Decidable.em (c.value (.flag flag.mask) = if on then 1 else 0) with hsame | hdiff
  · have hon : c.status.has flag = on := by
      change (if c.status.has flag then (1 : Word) else 0) = _ at hsame
      revert hsame
      cases c.status.has flag <;> cases on <;> decide
    rw [if_pos hsame, ← hon, Status.assign_has]
  · rw [if_neg hdiff]
    cases on <;> rfl

@[simp] theorem setFlag_has (c : Cpu β) {flag : Flag} (other : Flag) (on : Bool)
    (h : flag ≠ .unused) :
    (c.setFlag flag on).status.has other = if other = flag then on else c.status.has other := by
  rw [setFlag_status c on h, Status.has_assign]

@[simp] theorem setZN_fields (c : Cpu β) (value : Byte) :
    (c.setZN value).a = c.a ∧ (c.setZN value).x = c.x ∧ (c.setZN value).y = c.y ∧
      (c.setZN value).sp = c.sp ∧ (c.setZN value).pc = c.pc ∧ (c.setZN value).bus = c.bus ∧
      (c.setZN value).servicing = c.servicing ∧ (c.setZN value).halt = c.halt ∧
      (c.setZN value).fetched = c.fetched ∧ (c.setZN value).undocumented = c.undocumented := by
  simp [setZN]

@[simp] theorem setStatus_fields (c : Cpu β) (packed : Byte) :
    (c.setStatus packed).a = c.a ∧ (c.setStatus packed).x = c.x ∧ (c.setStatus packed).y = c.y ∧
      (c.setStatus packed).sp = c.sp ∧ (c.setStatus packed).pc = c.pc ∧
      (c.setStatus packed).bus = c.bus ∧ (c.setStatus packed).servicing = c.servicing ∧
      (c.setStatus packed).halt = c.halt ∧ (c.setStatus packed).fetched = c.fetched ∧
      (c.setStatus packed).undocumented = c.undocumented ∧
      (c.setStatus packed).reportedPc = c.reportedPc := by
  simp [setStatus, loadedFlags]

@[simp] theorem stop_fields (c : Cpu β) (why : Halt) :
    (c.stop why).a = c.a ∧ (c.stop why).x = c.x ∧ (c.stop why).y = c.y ∧
      (c.stop why).sp = c.sp ∧ (c.stop why).pc = c.pc ∧ (c.stop why).bus = c.bus ∧
      (c.stop why).servicing = c.servicing ∧ (c.stop why).halt = c.halt.or (some why) ∧
      (c.stop why).fetched = c.fetched ∧ (c.stop why).undocumented = c.undocumented ∧
      (c.stop why).status = c.status.assign Flag.brk.mask true := by
  simp [stop, setFlag_status]

@[simp] theorem reportPc_fields (c : Cpu β) :
    c.reportPc.a = c.a ∧ c.reportPc.x = c.x ∧ c.reportPc.y = c.y ∧ c.reportPc.sp = c.sp ∧
      c.reportPc.pc = c.pc ∧ c.reportPc.status = c.status ∧ c.reportPc.bus = c.bus ∧
      c.reportPc.servicing = c.servicing ∧ c.reportPc.halt = c.halt ∧
      c.reportPc.fetched = c.fetched ∧ c.reportPc.undocumented = c.undocumented ∧
      c.reportPc.reportedPc = c.pc := by
  rw [reportPc]
  split
  case isTrue h => simp [h]
  case isFalse => simp [record]

variable [Bus β]

@[simp] theorem store_fields (c : Cpu β) (address : Word) (value : Byte) :
    (c.store address value).a = c.a ∧ (c.store address value).x = c.x ∧
      (c.store address value).y = c.y ∧ (c.store address value).sp = c.sp ∧
      (c.store address value).pc = c.pc ∧ (c.store address value).status = c.status ∧
      (c.store address value).bus = Bus.write c.bus address value ∧
      (c.store address value).servicing = c.servicing ∧ (c.store address value).halt = c.halt ∧
      (c.store address value).fetched = c.fetched ∧
      (c.store address value).undocumented = c.undocumented := by
  simp [store, Bus.store]

@[simp] theorem push_fields (c : Cpu β) (value : Byte) :
    (c.push value).a = c.a ∧ (c.push value).x = c.x ∧ (c.push value).y = c.y ∧
      (c.push value).pc = c.pc ∧ (c.push value).bus = Bus.write c.bus c.stackSlot value ∧
      (c.push value).servicing = c.servicing ∧ (c.push value).fetched = c.fetched ∧
      (c.push value).undocumented = c.undocumented := by
  unfold push
  dsimp only
  split <;> simp

@[simp] theorem pull_fields (c : Cpu β) :
    c.pull.2.a = c.a ∧ c.pull.2.x = c.x ∧ c.pull.2.y = c.y ∧ c.pull.2.pc = c.pc ∧
      c.pull.2.bus = c.bus ∧ c.pull.2.servicing = c.servicing ∧ c.pull.2.fetched = c.fetched ∧
      c.pull.2.undocumented = c.undocumented := by
  rw [pull]
  split <;> simp

end Cpu

end Nmos6502
