import Nmos6502.Disassembly.Instruction
import Nmos6502.Proofs.Cpu.Stack
import Nmos6502.Proofs.Isa.Families

namespace Nmos6502

universe u

variable {β : Type u}

namespace Cpu

def fetch (c : Cpu β) : Cpu β :=
  { c with pc := c.pc + 1, fetched := c.fetched + 1 }

@[simp] theorem fetch_fields (c : Cpu β) :
    c.fetch.a = c.a ∧ c.fetch.x = c.x ∧ c.fetch.y = c.y ∧ c.fetch.sp = c.sp ∧
      c.fetch.pc = c.pc + 1 ∧ c.fetch.status = c.status ∧ c.fetch.bus = c.bus ∧
      c.fetch.servicing = c.servicing ∧ c.fetch.halt = c.halt ∧
      c.fetch.fetched = c.fetched + 1 ∧ c.fetch.undocumented = c.undocumented := by
  simp [fetch]

@[simp] theorem skipOperand_fields (c : Cpu β) (mode : Mode) :
    (c.skipOperand mode).a = c.a ∧ (c.skipOperand mode).x = c.x ∧ (c.skipOperand mode).y = c.y ∧
      (c.skipOperand mode).sp = c.sp ∧
      (c.skipOperand mode).pc = c.pc + BitVec.ofNat 16 mode.operandSize ∧
      (c.skipOperand mode).status = c.status ∧ (c.skipOperand mode).bus = c.bus ∧
      (c.skipOperand mode).servicing = c.servicing ∧ (c.skipOperand mode).halt = c.halt ∧
      (c.skipOperand mode).fetched = c.fetched ∧
      (c.skipOperand mode).undocumented = c.undocumented := by
  simp [skipOperand]

variable [Bus β]

theorem executeNext_of_decode (c : Cpu β) {op : Opcode}
    (h : Opcode.decode (Bus.read c.bus c.pc) = some op) :
    c.executeNext = c.fetch.execute op := by
  simp only [executeNext, h, fetch]

theorem executeNext_of_undocumented (c : Cpu β)
    (h : Opcode.decode (Bus.read c.bus c.pc) = none) :
    c.executeNext = { c.fetch with undocumented := c.undocumented + 1 } := by
  simp only [executeNext, h, fetch]

end Cpu

namespace Instruction

variable [Bus β] {bus : β} {address : Word}

theorem decode_of_undocumented (h : Opcode.decode (Bus.read bus address) = none) :
    decode bus address = ⟨address, Bus.read bus address, none, .implicit, []⟩ := by
  simp only [decode, h]

variable {op : Opcode}

theorem decode_of_documented (h : Opcode.decode (Bus.read bus address) = some op) :
    decode bus address = ⟨address, Bus.read bus address, some op.mnemonic, op.mode,
      Bus.readAll bus (address + 1) op.mode.operandSize⟩ := by
  simp only [decode, h]

theorem size_decode (h : Opcode.decode (Bus.read bus address) = some op) :
    (decode bus address).size = op.size := by
  simp only [decode_of_documented h, size, Opcode.size, Bus.readAll, List.length_map,
    List.length_range]

theorem operand_decode_byte (h : Opcode.decode (Bus.read bus address) = some op)
    (hsize : op.mode.operandSize = 1) :
    (decode bus address).operand = some (Byte.toWord (Bus.read bus (address + 1))) := by
  simp [decode_of_documented h, operand, hsize, Bus.readAll, List.range_succ]

theorem operand_decode_word (h : Opcode.decode (Bus.read bus address) = some op)
    (hsize : op.mode.operandSize = 2) :
    (decode bus address).operand = some (Bus.readWord bus (address + 1)) := by
  simp [decode_of_documented h, operand, hsize, Bus.readAll, List.range_succ, Bus.readWord]

theorem target_decode (h : Opcode.decode (Bus.read bus address) = some op)
    (hmode : op.mode = .relative) :
    (decode bus address).target =
      some (address + 2 + Byte.displacement (Bus.read bus (address + 1))) := by
  have hsize : Mode.relative.operandSize = 1 := rfl
  simp [decode_of_documented h, target, hmode, hsize, Bus.readAll, List.range_succ]

end Instruction

end Nmos6502
