import Nmos6502.Bus.Flat
import Nmos6502.Machine.Setup
import Nmos6502.Proofs.Cpu.Bodies
import Nmos6502.Proofs.Cpu.Decoding
import Nmos6502.Proofs.Machine.Step

namespace Nmos6502

universe u

variable {β : Type u}

namespace Cpu

theorem fetch_skipOperand_pc (c : Cpu β) (op : Opcode) :
    (c.fetch.skipOperand op.mode).pc = c.pc + BitVec.ofNat 16 op.size := by
  simp only [skipOperand_fields, fetch_fields, Opcode.size, BitVec.ofNat_add, BitVec.add_assoc]
  rfl

variable [Bus β]

/-- Where the action of an instruction leaves the program counter. -/
def landing (c : Cpu β) (address : Word) : Mnemonic → Word
  | .jmp | .jsr => address
  | .rts => Word.ofBytes (c.pulled 0) (c.pulled 1) + 1
  | .rti => Word.ofBytes (c.pulled 1) (c.pulled 2)
  | .brk => c.pc - 1
  | mnemonic =>
    match mnemonic.condition with
    | some (flag, value) => if c.status.has flag = value then address else c.pc
    | none => c.pc

theorem act_pc (c : Cpu β) (mode : Mode) (address : Word) (operand : Byte) (mnemonic : Mnemonic) :
    (c.act mode address operand mnemonic).pc = c.landing address mnemonic := by
  cases mnemonic <;> simp [act, landing, Mnemonic.condition]

/-- Where the program goes on after the instruction decoded at the program counter. -/
def successor (c : Cpu β) (i : Instruction) : Option Word :=
  match i.mnemonic with
  | none => some (c.pc + 1)
  | some .brk => some c.pc
  | some .jmp =>
    if i.mode = .indirect then
      i.operand.map fun pointer =>
        Word.ofBytes (Bus.read c.bus pointer) (Bus.read c.bus (nextInPage pointer))
    else i.operand
  | some .jsr => i.operand
  | some .rts => some (Word.ofBytes (c.pulled 0) (c.pulled 1) + 1)
  | some .rti => some (Word.ofBytes (c.pulled 1) (c.pulled 2))
  | some mnemonic =>
    match mnemonic.condition with
    | some (flag, value) => if c.status.has flag = value then i.target else some (c.pc + 2)
    | none => some (c.pc + BitVec.ofNat 16 i.size)

theorem execute_pc (c : Cpu β) (op : Opcode) :
    (c.execute op).pc = (c.skipOperand op.mode).landing (c.address op.mode) op.mnemonic :=
  act_pc ..

theorem fetch_skipOperand_pulled (c : Cpu β) (mode : Mode) (n : Nat) :
    (c.fetch.skipOperand mode).pulled n = c.pulled n :=
  pulled_congr rfl rfl n

theorem fetch_address_relative (c : Cpu β) :
    c.fetch.address .relative = c.pc + 2 + Byte.displacement (Bus.read c.bus (c.pc + 1)) := by
  simp [address, address?, operandByte, BitVec.add_assoc]

theorem executeNext_pc_of_documented {c : Cpu β} {op : Opcode}
    (h : Opcode.decode (Bus.read c.bus c.pc) = some op) :
    some c.executeNext.pc = c.successor (Instruction.decode c.bus c.pc) := by
  have hadmits := Opcode.admits_of_decode h
  have hpc := c.fetch_skipOperand_pc op
  have hsize := Instruction.size_decode h
  have htarget := Instruction.target_decode h
  have hword := Instruction.operand_decode_word h
  rw [executeNext_of_decode c h, execute_pc]
  obtain ⟨mnemonic, mode⟩ := op
  have hmnemonic : (Instruction.decode c.bus c.pc).mnemonic = some mnemonic := by
    rw [Instruction.decode_of_documented h]
  have hmode : (Instruction.decode c.bus c.pc).mode = mode := by
    rw [Instruction.decode_of_documented h]
  cases mnemonic with
  | jmp =>
    rcases Family.mode_of_jumping hadmits with rfl | rfl
    · simp [landing, successor, hmnemonic, hmode, hword rfl, address, address?, operandWord]
    · simp [landing, successor, hmnemonic, hmode, hword rfl, address, address?, operandWord]
  | jsr =>
    obtain rfl := Opcode.jsr_mode_of_decode h rfl
    simp [landing, successor, hmnemonic, hword rfl, address, address?, operandWord]
  | rts => simp [landing, successor, hmnemonic, fetch_skipOperand_pulled]
  | rti => simp [landing, successor, hmnemonic, fetch_skipOperand_pulled]
  | brk =>
    obtain rfl : mode = .implicit := by simpa [Family.admits, Mnemonic.family] using hadmits
    simp only [landing, successor, hmnemonic, hpc]
    exact congrArg some (BitVec.add_sub_cancel c.pc 1)
  | bcc | bcs | bne | beq | bpl | bmi | bvc | bvs =>
    obtain rfl : mode = .relative := by simpa [Family.admits, Mnemonic.family] using hadmits
    simp only [landing, successor, hmnemonic, Mnemonic.condition, htarget rfl, hpc,
      fetch_address_relative, skipOperand_fields, fetch_fields, apply_ite some]
    rfl
  | _ =>
    simp only [landing, successor, hmnemonic, Mnemonic.condition, hpc, hsize]

theorem executeNext_pc (c : Cpu β) :
    some c.executeNext.pc = c.successor (Instruction.decode c.bus c.pc) := by
  cases h : Opcode.decode (Bus.read c.bus c.pc) with
  | none =>
    rw [executeNext_of_undocumented c h, successor, Instruction.decode_of_undocumented h]
    rfl
  | some op => exact executeNext_pc_of_documented h

/-- Executes an instruction with `fallback` in the place of an address that its mode lacks. -/
def executeWith (c : Cpu β) (fallback : Word) (op : Opcode) : Cpu β :=
  let address := (c.address? op.mode).getD fallback
  let operand := if op.mode = .accumulator then c.a else Bus.read c.bus address
  (c.skipOperand op.mode).act op.mode address operand op.mnemonic

theorem act_of_alone {mnemonic : Mnemonic} (h : mnemonic.family = .alone) (c : Cpu β) (mode : Mode)
    (address address' : Word) (operand operand' : Byte) :
    c.act mode address operand mnemonic = c.act mode address' operand' mnemonic := by
  revert h
  cases mnemonic <;> simp [Mnemonic.family, act]

theorem act_accumulator {mnemonic : Mnemonic}
    (h : mnemonic.family = .reading ∨ mnemonic.family = .modifying) (c : Cpu β)
    (address address' : Word) (operand : Byte) :
    c.act .accumulator address operand mnemonic = c.act .accumulator address' operand mnemonic := by
  revert h
  cases mnemonic <;> simp [Mnemonic.family, act, putShifted, putBack]

/-- An instruction that is in the table never looks at an address that its mode lacks. -/
theorem execute_eq_executeWith {byte : Byte} {op : Opcode} (h : Opcode.decode byte = some op)
    (c : Cpu β) (fallback : Word) : c.execute op = c.executeWith fallback op := by
  have hsize := Opcode.operandSize_pos_of_asksAddress h
  obtain ⟨mnemonic, mode⟩ := op
  cases hasks : Opcode.asksAddress ⟨mnemonic, mode⟩ with
  | true =>
    obtain ⟨address, haddress⟩ :=
      Option.isSome_iff_exists.mp ((c.isSome_address?_iff mode).mpr (hsize hasks))
    simp only [execute, executeWith, operand, Cpu.address, haddress, Option.getD_some]
  | false =>
    rcases Opcode.not_asksAddress hasks with halone | ⟨rfl, hfamily⟩
    · exact act_of_alone halone ..
    · exact act_accumulator hfamily ..

end Cpu

variable [Bus β]

/-- A step without an interrupt leaves the program counter where the decoded instruction leads, and
the instruction finds an address wherever it looks for one. -/
theorem step_pc_eq_successor (m : Machine β) (h : m.accepted = none) :
    some m.step.cpu.pc = m.cpu.successor (Instruction.decode m.cpu.bus m.cpu.pc) ∧
      ∀ op, Opcode.decode (Bus.read m.cpu.bus m.cpu.pc) = some op →
        (op.asksAddress = true → (m.cpu.fetch.address? op.mode).isSome = true) ∧
        ∀ fallback, m.boundary = m.cpu.fetch.executeWith fallback op := by
  have hboundary := Machine.boundary_of_accepted_none h
  constructor
  · rw [Machine.step_cpu, hboundary]
    exact m.cpu.executeNext_pc
  · intro op hop
    constructor
    · intro hasks
      exact (m.cpu.fetch.isSome_address?_iff op.mode).mpr
        (Opcode.operandSize_pos_of_asksAddress hop hasks)
    · intro fallback
      rw [hboundary, Cpu.executeNext_of_decode m.cpu hop, Cpu.execute_eq_executeWith hop]

/-- Memory with `JMP ($12FF)` across the top of the address space. -/
def jumpAcrossTop : FlatMemory :=
  Bus.writeAll (Bus.writeAll (Bus.writeAll .zeroed 0xFFFE [0x6C, 0xFF, 0x12]) 0x12FF [0x34])
    0x1200 [0x56]

/-- The operand wraps past the top and the pointer wraps in its page. -/
theorem step_pc_jumpAcrossTop :
    let m := (Machine.powerOn jumpAcrossTop).setRegister .pc 0xFFFE
    m.accepted = none ∧ m.step.cpu.pc = 0x5634 :=
  ⟨by decide +kernel,
    Option.some.inj ((step_pc_eq_successor _ (by decide +kernel)).1.trans (by decide +kernel))⟩

end Nmos6502
