import Nmos6502.Bus.Flat
import Nmos6502.Machine.Setup
import Nmos6502.Proofs.Bus.Recorded
import Nmos6502.Proofs.Cpu.Bodies
import Nmos6502.Proofs.Cpu.Decoding
import Nmos6502.Proofs.Machine.Step
import Nmos6502.Proofs.Machine.Transfer

namespace Nmos6502

universe u

variable {β : Type u}

/-- What a modifying instruction makes of its operand. -/
def Mnemonic.modified (mnemonic : Mnemonic) (carry : Bool) (value : Byte) : Byte :=
  match mnemonic with
  | .asl => BitVec.ofNat 8 (2 * value.toNat)
  | .rol => BitVec.ofNat 8 (2 * value.toNat + carry.toNat)
  | .lsr => BitVec.ofNat 8 (value.toNat / 2)
  | .ror => BitVec.ofNat 8 (value.toNat / 2 + 128 * carry.toNat)
  | .inc => value + 1
  | .dec => value - 1
  | _ => value

namespace Cpu

/-- The byte that an instruction puts at the address of its operand, if it puts one there. -/
def output (c : Cpu β) (operand : Byte) (mnemonic : Mnemonic) : Option Byte :=
  match mnemonic with
  | .sta => some c.a
  | .stx => some c.x
  | .sty => some c.y
  | .asl | .dec | .inc | .lsr | .rol | .ror =>
    some (mnemonic.modified (c.status.has .carry) operand)
  | _ => none

theorem output_of_not_inMemory (c : Cpu β) {mnemonic : Mnemonic} {mode : Mode}
    (h : mnemonic.family.admits mode = true) (hmode : mode.inMemory = false)
    (hne : mode ≠ .accumulator) (operand : Byte) :
    c.output operand mnemonic = none := by
  revert h
  cases mnemonic <;> simp [output, Mnemonic.family, Family.admits, hmode, hne]

def wordWrites (c : Cpu β) (value : Word) : List (Word × Byte) :=
  [(c.slotAfter 0, Word.high value), (c.slotAfter 1, Word.low value)]

def actWrites (c : Cpu β) (mode : Mode) (address : Word) (operand : Byte) (mnemonic : Mnemonic) :
    List (Word × Byte) :=
  match mnemonic with
  | .pha => [(c.slotAfter 0, c.a)]
  | .php => [(c.slotAfter 0, c.status.packed ||| Flag.brk.mask)]
  | .jsr => c.wordWrites (c.pc - 1)
  | _ =>
    if mode = .accumulator then []
    else (c.output operand mnemonic).toList.map fun value => (address, value)

variable [Bus β]

theorem pushWord_bus (c : Cpu β) (value : Word) :
    (c.pushWord value).bus = Bus.replay c.bus (c.wordWrites value) := by
  have hslot : (c.push (Word.high value)).stackSlot = c.slotAfter 1 := c.push_slotAfter _ 0
  simp only [pushWord, push_fields, hslot]
  rfl

theorem act_bus {mnemonic : Mnemonic} {mode : Mode} (h : mnemonic.family.admits mode = true)
    (c : Cpu β) (address : Word) (operand : Byte) :
    (c.act mode address operand mnemonic).bus =
      Bus.replay c.bus (c.actWrites mode address operand mnemonic) := by
  cases mnemonic with
  | pha | php =>
    simp only [act, push_fields]
    rfl
  | jsr => simp [act, actWrites, pushWord_bus]
  | asl | rol | lsr | ror =>
    rcases Decidable.em (mode = .accumulator) with hmode | hmode <;>
      simp [act, actWrites, output, hmode, Mnemonic.modified, Alu.shiftLeft, Alu.shiftRight]
  | inc | dec =>
    rcases Decidable.em (mode = .accumulator) with hmode | hmode <;>
      simp [act, actWrites, output, hmode, Mnemonic.modified]
  | sta | stx | sty =>
    have hmode : mode ≠ .accumulator := by
      rintro rfl
      exact absurd h (by decide)
    simp [act, actWrites, output, hmode]
  | _ => simp [act, actWrites, output]

/-- The address that an instruction in memory selects, from its decoded operand and the registers
before it runs. -/
def effective? (c : Cpu β) (i : Instruction) : Option Word :=
  i.operand.bind fun o =>
    match i.mode with
    | .zeroPage | .absolute => some o
    | .zeroPageX => some (Byte.toWord (Word.low o + c.x))
    | .zeroPageY => some (Byte.toWord (Word.low o + c.y))
    | .absoluteX => some (o + Byte.toWord c.x)
    | .absoluteY => some (o + Byte.toWord c.y)
    | .indirectX => some (c.pointerAt (Word.low o + c.x))
    | .indirectY => some (c.pointerAt (Word.low o) + Byte.toWord c.y)
    | .implicit | .accumulator | .immediate | .relative | .indirect => none

theorem effective?_decode (c : Cpu β) {op : Opcode}
    (h : Opcode.decode (Bus.read c.bus c.pc) = some op) :
    c.effective? (Instruction.decode c.bus c.pc) =
      if op.mode.inMemory then some (c.fetch.address op.mode) else none := by
  have hbyte := Instruction.operand_decode_byte h
  have hword := Instruction.operand_decode_word h
  obtain ⟨mnemonic, mode⟩ := op
  have hmode : (Instruction.decode c.bus c.pc).mode = mode := by
    rw [Instruction.decode_of_documented h]
  cases mode with
  | implicit | accumulator | immediate | relative | indirect =>
    simp [effective?, hmode, Mode.inMemory]
  | zeroPage | zeroPageX | zeroPageY | indirectX | indirectY =>
    simp [effective?, hmode, Mode.inMemory, hbyte rfl, address, address?, operandByte, pointerAt]
  | absolute | absoluteX | absoluteY =>
    simp [effective?, hmode, Mode.inMemory, hword rfl, address, address?, operandWord]

/-- What the instruction decoded at the program counter writes. -/
def instructionWrites (c : Cpu β) (i : Instruction) : List (Word × Byte) :=
  match i.mnemonic with
  | none => []
  | some .pha => [(c.slotAfter 0, c.a)]
  | some .php => [(c.slotAfter 0, c.status.packed ||| Flag.brk.mask)]
  | some .jsr => c.wordWrites (c.pc + 2)
  | some mnemonic =>
    (c.effective? i).toList.flatMap fun address =>
      (c.output (Bus.read c.bus address) mnemonic).toList.map fun value => (address, value)

theorem output_writes (c : Cpu β) {op : Opcode}
    (h : Opcode.decode (Bus.read c.bus c.pc) = some op) :
    (if op.mode = .accumulator then []
      else ((c.fetch.skipOperand op.mode).output (c.fetch.operand op.mode)
        op.mnemonic).toList.map fun value => (c.fetch.address op.mode, value)) =
      (c.effective? (Instruction.decode c.bus c.pc)).toList.flatMap fun address =>
        (c.output (Bus.read c.bus address) op.mnemonic).toList.map
          fun value => (address, value) := by
  have hadmits := Opcode.admits_of_decode h
  have houtput : (c.fetch.skipOperand op.mode).output = c.output := rfl
  rw [c.effective?_decode h, houtput]
  rcases Decidable.em (op.mode = .accumulator) with haccumulator | haccumulator
  · simp [haccumulator, Mode.inMemory]
  · cases hmemory : op.mode.inMemory with
    | true => simp [haccumulator, operand]
    | false => simp [haccumulator, c.output_of_not_inMemory hadmits hmemory haccumulator]

theorem executeNext_bus (c : Cpu β) :
    c.executeNext.bus =
      Bus.replay c.bus (c.instructionWrites (Instruction.decode c.bus c.pc)) := by
  cases h : Opcode.decode (Bus.read c.bus c.pc) with
  | none =>
    rw [executeNext_of_undocumented c h, instructionWrites, Instruction.decode_of_undocumented h]
    rfl
  | some op =>
    have hadmits := Opcode.admits_of_decode h
    have hwrites := c.output_writes h
    have hmnemonic : (Instruction.decode c.bus c.pc).mnemonic = some op.mnemonic := by
      rw [Instruction.decode_of_documented h]
    have hbus : (c.fetch.skipOperand op.mode).bus = c.bus := rfl
    rw [executeNext_of_decode c h, execute, act_bus hadmits, hbus]
    obtain ⟨mnemonic, mode⟩ := op
    cases mnemonic with
    | pha | php => rw [actWrites, instructionWrites, hmnemonic]; rfl
    | jsr =>
      obtain rfl := Opcode.jsr_mode_of_decode h rfl
      have hpc : (c.fetch.skipOperand .absolute).pc - 1 = c.pc + 2 := by
        simp only [skipOperand_fields, fetch_fields, Mode.operandSize]
        bv_omega
      rw [actWrites, instructionWrites, hmnemonic, hpc]
      rfl
    | _ => simpa only [actWrites, instructionWrites, hmnemonic] using congrArg _ hwrites

/-- What the entry of an interrupt writes: the program counter, high byte first, and the status,
which has the Break flag by then if the word did not fit on the stack. -/
def frameWrites (c : Cpu β) : List (Word × Byte) :=
  let status := if c.sp.toNat < 2 then c.status.assign Flag.brk.mask true else c.status
  [(c.slotAfter 0, Word.high c.pc), (c.slotAfter 1, Word.low c.pc),
    (c.slotAfter 2, status.packed)]

theorem pushFrame_bus (c : Cpu β) : c.pushFrame.bus = Bus.replay c.bus c.frameWrites := by
  have hslot : (c.pushWord c.pc).stackSlot = c.slotAfter 2 := by
    change (c.pushWord c.pc).slotAfter 0 = _
    simp only [pushWord, push_slotAfter]
  simp only [pushFrame, push_fields, hslot, pushWord_bus, pushWord_status]
  rfl

theorem enter_bus (c : Cpu β) (kind : Interrupt) :
    (c.enter kind).bus = Bus.replay c.bus c.frameWrites := by
  cases kind <;> simp [enter, serve, pushFrame_bus]

end Cpu

variable [Bus β]

namespace Machine

/-- The machine on a bus that keeps count of its writes from now on. -/
def recording (m : Machine β) : Machine (Recorded β) :=
  m.transfer fun bus => ⟨bus, []⟩

def stepWrites (m : Machine β) : List (Word × Byte) :=
  match m.accepted with
  | some _ => m.cpu.frameWrites
  | none => m.cpu.instructionWrites (Instruction.decode m.cpu.bus m.cpu.pc)

theorem step_bus (m : Machine β) : m.step.cpu.bus = Bus.replay m.cpu.bus m.stepWrites := by
  rw [step_cpu, stepWrites]
  cases h : m.accepted with
  | none => simp only [boundary_of_accepted_none h, Cpu.executeNext_bus]
  | some kind => simp only [boundary_of_accepted h, Cpu.enter_bus]

theorem recording_step (m : Machine β) : m.recording.step.transfer Recorded.bus = m.step :=
  (transfer_step Recorded.faithful m.recording).symm

theorem recording_stepWrites (m : Machine β) : m.recording.stepWrites = m.stepWrites :=
  rfl

end Machine

/-- The bus takes the writes of the step in order and no others, and an instruction with an operand
in memory finds it at its effective address. -/
theorem step_writes_eq (m : Machine β) :
    m.recording.step.transfer Recorded.bus = m.step ∧
      m.recording.step.cpu.bus.writes = m.stepWrites ∧
      m.step.cpu.bus = Bus.replay m.cpu.bus m.stepWrites ∧
      (m.accepted = none → ∀ op, Opcode.decode (Bus.read m.cpu.bus m.cpu.pc) = some op →
        op.mode.inMemory = true →
          ∃ address, m.cpu.effective? (Instruction.decode m.cpu.bus m.cpu.pc) = some address ∧
            m.boundary = (m.cpu.fetch.skipOperand op.mode).act op.mode address
              (Bus.read m.cpu.bus address) op.mnemonic) := by
  refine ⟨m.recording_step, ?_, m.step_bus, ?_⟩
  · rw [Machine.step_bus, Recorded.writes_replay, Machine.recording_stepWrites]
    rfl
  · intro haccepted op hop hmemory
    refine ⟨m.cpu.fetch.address op.mode, ?_, ?_⟩
    · rw [m.cpu.effective?_decode hop, hmemory]
      rfl
    · have hmode : op.mode ≠ .accumulator := by
        intro h
        rw [h] at hmemory
        exact absurd hmemory (by decide)
      rw [Machine.boundary_of_accepted_none haccepted, Cpu.executeNext_of_decode m.cpu hop,
        Cpu.execute, Cpu.operand, if_neg hmode]
      rfl

/-- Memory with `STA ($80,X)` at $0200 and a pointer that wraps in page zero. -/
def pointerAcrossPage : FlatMemory :=
  Bus.writeAll (Bus.writeAll (Bus.writeAll .zeroed 0x0200 [0x81, 0x80]) 0x00FF [0x34]) 0x0000 [0x12]

/-- The pointer is found at both ends of page zero. -/
theorem step_writes_pointerAcrossPage :
    let m := (((Machine.powerOn pointerAcrossPage).setRegister .pc 0x0200).setRegister .a
      0x56).setRegister .x 0x7F
    m.accepted = none ∧ m.recording.step.cpu.bus.writes = [(0x1234, 0x56)] ∧
      ∃ address, m.cpu.effective? (Instruction.decode m.cpu.bus m.cpu.pc) = some address ∧
        m.boundary = (m.cpu.fetch.skipOperand .indirectX).act .indirectX address
          (Bus.read m.cpu.bus address) .sta := by
  intro m
  have haccepted : m.accepted = none := by decide +kernel
  have hop : Opcode.decode (Bus.read m.cpu.bus m.cpu.pc) = some ⟨.sta, .indirectX⟩ := by
    decide +kernel
  exact ⟨haccepted, (step_writes_eq m).2.1.trans (by decide +kernel),
    (step_writes_eq m).2.2.2 haccepted _ hop rfl⟩

end Nmos6502
