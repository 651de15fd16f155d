import Nmos6502.Proofs.Cpu.Decoding
import Nmos6502.Proofs.Loader.Record

namespace Nmos6502

/-- A line of a program: an instruction that there is, with as many operand bytes as it wants. -/
structure Line where
  op : Opcode
  opcode : Byte
  operands : List Byte
  encode_op : op.encode = some opcode
  length_operands : operands.length = op.mode.operandSize

namespace Line

def bytes (line : Line) : List Byte :=
  line.opcode :: line.operands

/-- The calls of a loader that write the line at the cursor. -/
def calls (line : Line) : List Loader.Call :=
  [.instruction line.op, .writeAll line.operands]

def placed (line : Line) (address : Word) : Instruction :=
  ⟨address, line.opcode, some line.op.mnemonic, line.op.mode, line.operands⟩

def assemble (program : List Line) : List Loader.Call :=
  program.flatMap calls

def machineCode (program : List Line) : List Byte :=
  program.flatMap bytes

theorem length_le_length_machineCode (program : List Line) :
    program.length ≤ (machineCode program).length := by
  induction program with
  | nil => exact Nat.le_refl _
  | cons line program ih =>
    have hmachine : machineCode (line :: program) = line.bytes ++ machineCode program := rfl
    rw [hmachine, List.length_append, bytes, List.length_cons, List.length_cons]
    omega

def listing (address : Nat) : List Line → List Instruction
  | [] => []
  | line :: program =>
    line.placed (BitVec.ofNat 16 address) :: listing (address + line.bytes.length) program

end Line

/-- The calls of a loader that write an instruction where it was read. What is no instruction is
written as the byte that it is. -/
def Instruction.calls (i : Instruction) : List Loader.Call :=
  .moveTo i.address ::
    match i.mnemonic with
    | some mnemonic => [.instruction ⟨mnemonic, i.mode⟩, .writeAll i.operands]
    | none => [.write i.opcode]

universe u

variable {β : Type u} [Bus β]

namespace Loader

theorem writeAll_append (l : Loader β) (bytes later : List Byte) :
    l.writeAll (bytes ++ later) = (l.writeAll bytes).writeAll later :=
  List.foldl_append

theorem after_instruction {op : Opcode} {opcode : Byte} (h : op.encode = some opcode)
    (l : Loader β) (operands : List Byte) :
    l.after [.instruction op, .writeAll operands] = l.writeAll (opcode :: operands) := by
  simp only [after, List.foldl_cons, List.foldl_nil, call, instruction, h]
  rfl

theorem after_assemble (program : List Line) (l : Loader β) :
    l.after (Line.assemble program) = l.writeAll (Line.machineCode program) := by
  induction program generalizing l with
  | nil => rfl
  | cons line program ih =>
    calc
      l.after (line.calls ++ Line.assemble program)
          = (l.after line.calls).after (Line.assemble program) := l.after_append ..
      _ = (l.writeAll line.bytes).writeAll (Line.machineCode program) := by
        rw [Line.calls, after_instruction line.encode_op, ih, Line.bytes]
      _ = l.writeAll (line.bytes ++ Line.machineCode program) := (l.writeAll_append ..).symm

end Loader

namespace Instruction

variable {bus : β} {address : Word}

theorem address_decode (bus : β) (address : Word) : (decode bus address).address = address := by
  rw [decode]
  split <;> rfl

theorem bytes_decode (bus : β) (address : Word) :
    (decode bus address).bytes = Bus.readAll bus address (decode bus address).size := by
  cases h : Opcode.decode (Bus.read bus address) with
  | none =>
    rw [decode_of_undocumented h]
    simp [bytes, size, Bus.readAll]
  | some op =>
    rw [decode_of_documented h]
    simp only [bytes, size, Bus.length_readAll, Bus.readAll_add]
    simp [Bus.readAll]

theorem decode_eq_placed {line : Line}
    (h : Bus.readAll bus address line.bytes.length = line.bytes) :
    decode bus address = line.placed address := by
  have hsplit := Bus.readAll_add bus address 1 line.operands.length
  have hlength : line.bytes.length = 1 + line.operands.length := Nat.add_comm ..
  rw [← hlength, h] at hsplit
  have hone : Bus.readAll bus address 1 = [Bus.read bus address] := by
    simp [Bus.readAll]
  rw [hone, Line.bytes, List.singleton_append, List.cons.injEq] at hsplit
  obtain ⟨hopcode, hoperands⟩ := hsplit
  have hdecode : Opcode.decode (Bus.read bus address) = some line.op := by
    rw [← hopcode]
    exact Opcode.encode_eq_some_iff.mp line.encode_op
  rw [decode_of_documented hdecode, Line.placed, ← hopcode, hoperands, line.length_operands]
  rfl

theorem decodeFrom_eq_listing (program : List Line) (address : Nat)
    (hend : address + (Line.machineCode program).length ≤ 0x10000)
    (hcode : Bus.readAll bus (BitVec.ofNat 16 address) (Line.machineCode program).length =
      Line.machineCode program) :
    decodeFrom bus program.length address = Line.listing address program := by
  induction program generalizing address with
  | nil => rfl
  | cons line program ih =>
    have hmachine : Line.machineCode (line :: program) = line.bytes ++ Line.machineCode program :=
      rfl
    have hpositive : 0 < line.bytes.length := Nat.succ_pos _
    rw [hmachine, List.length_append] at hend
    rw [hmachine, List.length_append, Bus.readAll_add, ← BitVec.ofNat_add] at hcode
    obtain ⟨hline, hrest⟩ := List.append_inj hcode (Bus.length_readAll ..)
    have hsize : (line.placed (BitVec.ofNat 16 address)).size = line.bytes.length :=
      Nat.add_comm ..
    have htail := ih (address + line.bytes.length) (by omega) hrest
    rw [List.length_cons, decodeFrom, if_pos (by omega), decode_eq_placed hline]
    simp only [hsize, htail, Line.listing]

theorem eq_decode_of_mem_decodeFrom {count address : Nat} {i : Instruction}
    (h : i ∈ decodeFrom bus count address) : i = decode bus i.address := by
  induction count generalizing address with
  | zero => cases h
  | succ count ih =>
    rw [decodeFrom] at h
    split at h
    · rcases List.mem_cons.mp h with rfl | h
      · rw [address_decode]
      · exact ih h
    · cases h

end Instruction

namespace Loader

theorem after_calls_decode (l : Loader β) (bus : β) (address : Word) :
    l.after (Instruction.decode bus address).calls =
      (l.moveTo address).writeAll
        (Bus.readAll bus address (Instruction.decode bus address).size) := by
  rw [← Instruction.bytes_decode]
  cases h : Opcode.decode (Bus.read bus address) with
  | none =>
    rw [Instruction.decode_of_undocumented h]
    rfl
  | some op =>
    rw [Instruction.decode_of_documented h]
    exact after_instruction (Opcode.encode_eq_some_iff.mpr h) (l.moveTo address) _

theorem after_calls_listed {listed : List Instruction} {memory : FlatMemory}
    (hlisted : ∀ i ∈ listed, i = Instruction.decode memory i.address) {l : Loader FlatMemory}
    (hbus : l.bus = memory) :
    (l.after (listed.flatMap Instruction.calls)).errors = l.errors ∧
      (l.after (listed.flatMap Instruction.calls)).bus = memory := by
  induction listed generalizing l with
  | nil => exact ⟨rfl, hbus⟩
  | cons i listed ih =>
    rw [List.forall_mem_cons] at hlisted
    obtain ⟨hi, hlisted⟩ := hlisted
    rw [List.flatMap_cons, after_append]
    have hwritten := l.after_calls_decode memory i.address
    rw [← hi] at hwritten
    have herrors : (l.after i.calls).errors = l.errors := by
      rw [hwritten, (writeAll_fields _ _).2.2]
      rfl
    have hsame : (l.after i.calls).bus = memory := by
      rw [hwritten, (writeAll_writes _ _).1]
      subst hbus
      exact FlatMemory.replay_eq_self fun entry hentry => Bus.read_of_mem_block_readAll hentry
    obtain ⟨hkept, hmemory⟩ := ih hlisted hsame
    exact ⟨hkept.trans herrors, hmemory⟩

end Loader

/-- A program that ends below the top of memory is disassembled into the lines it was written from,
and what a disassembly lists, undocumented bytes and wrapped operands included, leaves memory as it
was when it is written in its place. -/
theorem assemble_disassemble (l : Loader FlatMemory) (start : Word) :
    (∀ program : List Line, start.toNat + (Line.machineCode program).length ≤ 0x10000 →
      let now := l.after (.moveTo start :: Line.assemble program)
      now.errors = l.errors ∧
        Instruction.disassemble? now.bus program.length start =
          some (Line.listing start.toNat program)) ∧
    ∀ count,
      (count ≤ Instruction.maxListed →
        ∃ listed, Instruction.disassemble? l.bus count start = some listed) ∧
      ∀ listed, Instruction.disassemble? l.bus count start = some listed →
        let now := l.after (listed.flatMap Instruction.calls)
        now.errors = l.errors ∧ now.bus = l.bus := by
  refine ⟨fun program hend => ?_, fun count => ⟨fun hcount => ?_, fun listed hlisted => ?_⟩⟩
  · have hwritten : l.after (.moveTo start :: Line.assemble program) =
        (l.moveTo start).writeAll (Line.machineCode program) :=
      Loader.after_assemble program (l.moveTo start)
    have hcode : Bus.readAll (l.after (.moveTo start :: Line.assemble program)).bus start
        (Line.machineCode program).length = Line.machineCode program := by
      rw [hwritten, (Loader.writeAll_writes _ _).1]
      exact (FlatMemory.isMemory l.bus).readAll_replay_block start (by omega)
    refine ⟨by rw [hwritten, (Loader.writeAll_fields _ _).2.2]; rfl, ?_⟩
    -- Every line has a byte, so a program that fits into memory is short enough to be listed.
    have hcount : program.length ≤ Instruction.maxListed := by
      have hlength := Line.length_le_length_machineCode program
      rw [Instruction.maxListed]
      omega
    refine Instruction.disassemble?_eq_some_iff.mpr
      ⟨hcount, Instruction.decodeFrom_eq_listing program start.toNat hend ?_⟩
    rwa [BitVec.ofNat_toNat, BitVec.setWidth_eq]
  · exact ⟨_, Instruction.disassemble?_eq_some_iff.mpr ⟨hcount, rfl⟩⟩
  · obtain ⟨-, rfl⟩ := Instruction.disassemble?_eq_some_iff.mp hlisted
    exact Loader.after_calls_listed
      (fun _ hi => Instruction.eq_decode_of_mem_decodeFrom hi) rfl

/-- `LDA #$10` and `JMP ($1234)`, up to the last address. -/
theorem assemble_disassemble_upToTop :
    let program : List Line :=
      [⟨⟨.lda, .immediate⟩, 0xA9, [0x10], by decide +kernel, rfl⟩,
        ⟨⟨.jmp, .indirect⟩, 0x6C, [0x34, 0x12], by decide +kernel, rfl⟩]
    let l := Loader.start FlatMemory.zeroed .empty
    (0xFFFB : Word).toNat + (Line.machineCode program).length ≤ 0x10000 ∧
      Instruction.disassemble? (l.after (.moveTo 0xFFFB :: Line.assemble program)).bus 2 0xFFFB =
        some [⟨0xFFFB, 0xA9, some .lda, .immediate, [0x10]⟩,
          ⟨0xFFFD, 0x6C, some .jmp, .indirect, [0x34, 0x12]⟩] ∧
      ∀ listed, Instruction.disassemble? l.bus 2 0xFFFB = some listed →
        (l.after (listed.flatMap Instruction.calls)).bus = l.bus := by
  intro program l
  have hend : (0xFFFB : Word).toNat + (Line.machineCode program).length ≤ 0x10000 := by decide
  have hinverse := assemble_disassemble l 0xFFFB
  exact ⟨hend, (hinverse.1 program hend).2,
    fun listed hlisted => ((hinverse.2 2).2 listed hlisted).2⟩

end Nmos6502
