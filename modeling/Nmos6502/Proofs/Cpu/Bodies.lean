import Nmos6502.Proofs.Cpu.Stack

namespace Nmos6502.Cpu

universe u

variable {β : Type u}

@[simp] theorem addToA_fields (c : Cpu β) (value : Byte) :
    (c.addToA value).a = (Alu.add c.a value (c.status.has .carry)).result ∧
      (c.addToA value).x = c.x ∧ (c.addToA value).y = c.y ∧ (c.addToA value).sp = c.sp ∧
      (c.addToA value).pc = c.pc ∧ (c.addToA value).bus = c.bus ∧
      (c.addToA value).servicing = c.servicing ∧ (c.addToA value).halt = c.halt ∧
      (c.addToA value).fetched = c.fetched ∧ (c.addToA value).undocumented = c.undocumented := by
  simp [addToA]

@[simp] theorem resultInA_fields (c : Cpu β) (value : Byte) :
    (c.resultInA value).a = value ∧ (c.resultInA value).x = c.x ∧ (c.resultInA value).y = c.y ∧
      (c.resultInA value).sp = c.sp ∧ (c.resultInA value).pc = c.pc ∧
      (c.resultInA value).bus = c.bus ∧ (c.resultInA value).servicing = c.servicing ∧
      (c.resultInA value).halt = c.halt ∧ (c.resultInA value).fetched = c.fetched ∧
      (c.resultInA value).undocumented = c.undocumented := by
  simp [resultInA]

@[simp] theorem resultInX_fields (c : Cpu β) (value : Byte) :
    (c.resultInX value).a = c.a ∧ (c.resultInX value).x = value ∧ (c.resultInX value).y = c.y ∧
      (c.resultInX value).sp = c.sp ∧ (c.resultInX value).pc = c.pc ∧
      (c.resultInX value).bus = c.bus ∧ (c.resultInX value).servicing = c.servicing ∧
      (c.resultInX value).halt = c.halt ∧ (c.resultInX value).fetched = c.fetched ∧
      (c.resultInX value).undocumented = c.undocumented := by
  simp [resultInX]

@[simp] theorem resultInY_fields (c : Cpu β) (value : Byte) :
    (c.resultInY value).a = c.a ∧ (c.resultInY value).x = c.x ∧ (c.resultInY value).y = value ∧
      (c.resultInY value).sp = c.sp ∧ (c.resultInY value).pc = c.pc ∧
      (c.resultInY value).bus = c.bus ∧ (c.resultInY value).servicing = c.servicing ∧
      (c.resultInY value).halt = c.halt ∧ (c.resultInY value).fetched = c.fetched ∧
      (c.resultInY value).undocumented = c.undocumented := by
  simp [resultInY]

@[simp] theorem compare_fields (c : Cpu β) (register operand : Byte) :
    (c.compare register operand).a = c.a ∧ (c.compare register operand).x = c.x ∧
      (c.compare register operand).y = c.y ∧ (c.compare register operand).sp = c.sp ∧
      (c.compare register operand).pc = c.pc ∧ (c.compare register operand).bus = c.bus ∧
      (c.compare register operand).servicing = c.servicing ∧
      (c.compare register operand).halt = c.halt ∧
      (c.compare register operand).fetched = c.fetched ∧
      (c.compare register operand).undocumented = c.undocumented := by
  simp [compare]

@[simp] theorem testBits_fields (c : Cpu β) (operand : Byte) :
    (c.testBits operand).a = c.a ∧ (c.testBits operand).x = c.x ∧ (c.testBits operand).y = c.y ∧
      (c.testBits operand).sp = c.sp ∧ (c.testBits operand).pc = c.pc ∧
      (c.testBits operand).bus = c.bus ∧ (c.testBits operand).servicing = c.servicing ∧
      (c.testBits operand).halt = c.halt ∧ (c.testBits operand).fetched = c.fetched ∧
      (c.testBits operand).undocumented = c.undocumented := by
  simp [testBits]

@[simp] theorem branch_fields (c : Cpu β) (taken : Bool) (target : Word) :
    (c.branch taken target).a = c.a ∧ (c.branch taken target).x = c.x ∧
      (c.branch taken target).y = c.y ∧ (c.branch taken target).sp = c.sp ∧
      (c.branch taken target).pc = (if taken then target else c.pc) ∧
      (c.branch taken target).status = c.status ∧ (c.branch taken target).bus = c.bus ∧
      (c.branch taken target).servicing = c.servicing ∧ (c.branch taken target).halt = c.halt ∧
      (c.branch taken target).fetched = c.fetched ∧
      (c.branch taken target).undocumented = c.undocumented := by
  cases taken <;> simp [branch]

@[simp] theorem haltHere_fields (c : Cpu β) :
    c.haltHere.a = c.a ∧ c.haltHere.x = c.x ∧ c.haltHere.y = c.y ∧ c.haltHere.sp = c.sp ∧
      c.haltHere.pc = c.pc - 1 ∧ c.haltHere.bus = c.bus ∧ c.haltHere.servicing = c.servicing ∧
      c.haltHere.halt = c.halt.or (some .brk) ∧ c.haltHere.fetched = c.fetched ∧
      c.haltHere.undocumented = c.undocumented ∧
      c.haltHere.status = c.status.assign Flag.brk.mask true := by
  simp [haltHere]

variable [Bus β]

@[simp] theorem putBack_fields (c : Cpu β) (mode : Mode) (address : Word) (value : Byte) :
    (c.putBack mode address value).a = (if mode = .accumulator then value else c.a) ∧
      (c.putBack mode address value).x = c.x ∧ (c.putBack mode address value).y = c.y ∧
      (c.putBack mode address value).sp = c.sp ∧ (c.putBack mode address value).pc = c.pc ∧
      (c.putBack mode address value).bus =
        (if mode = .accumulator then c.bus else Bus.write c.bus address value) ∧
      (c.putBack mode address value).servicing = c.servicing ∧
      (c.putBack mode address value).halt = c.halt ∧
      (c.putBack mode address value).fetched = c.fetched ∧
      (c.putBack mode address value).undocumented = c.undocumented := by
  rw [putBack]
  rcases Decidable.em (mode = .accumulator) with h | h <;> simp [h]

@[simp] theorem putShifted_fields (c : Cpu β) (mode : Mode) (address : Word)
    (shifted : Alu.Shifted) :
    (c.putShifted mode address shifted).a =
        (if mode = .accumulator then shifted.result else c.a) ∧
      (c.putShifted mode address shifted).x = c.x ∧ (c.putShifted mode address shifted).y = c.y ∧
      (c.putShifted mode address shifted).sp = c.sp ∧
      (c.putShifted mode address shifted).pc = c.pc ∧
      (c.putShifted mode address shifted).bus =
        (if mode = .accumulator then c.bus else Bus.write c.bus address shifted.result) ∧
      (c.putShifted mode address shifted).servicing = c.servicing ∧
      (c.putShifted mode address shifted).halt = c.halt ∧
      (c.putShifted mode address shifted).fetched = c.fetched ∧
      (c.putShifted mode address shifted).undocumented = c.undocumented := by
  simp [putShifted]

@[simp] theorem call_fields (c : Cpu β) (target : Word) :
    (c.call target).a = c.a ∧ (c.call target).x = c.x ∧ (c.call target).y = c.y ∧
      (c.call target).pc = target ∧ (c.call target).bus = (c.pushWord (c.pc - 1)).bus ∧
      (c.call target).servicing = c.servicing ∧ (c.call target).fetched = c.fetched ∧
      (c.call target).undocumented = c.undocumented := by
  simp [call]

@[simp] theorem returnFromCall_fields (c : Cpu β) :
    c.returnFromCall.a = c.a ∧ c.returnFromCall.x = c.x ∧ c.returnFromCall.y = c.y ∧
      c.returnFromCall.pc = Word.ofBytes (c.pulled 0) (c.pulled 1) + 1 ∧
      c.returnFromCall.bus = c.bus ∧ c.returnFromCall.servicing = c.servicing ∧
      c.returnFromCall.fetched = c.fetched ∧
      c.returnFromCall.undocumented = c.undocumented := by
  simp [returnFromCall]

@[simp] theorem setStatus_pulled (c : Cpu β) (packed : Byte) (n : Nat) :
    (c.setStatus packed).pulled n = c.pulled n := by
  simp [pulled]

@[simp] theorem returnFromInterrupt_fields (c : Cpu β) :
    c.returnFromInterrupt.a = c.a ∧ c.returnFromInterrupt.x = c.x ∧
      c.returnFromInterrupt.y = c.y ∧
      c.returnFromInterrupt.pc = Word.ofBytes (c.pulled 1) (c.pulled 2) ∧
      c.returnFromInterrupt.bus = c.bus ∧ c.returnFromInterrupt.servicing = false ∧
      c.returnFromInterrupt.fetched = c.fetched ∧
      c.returnFromInterrupt.undocumented = c.undocumented := by
  simp [returnFromInterrupt, pull_pulled]

end Nmos6502.Cpu
