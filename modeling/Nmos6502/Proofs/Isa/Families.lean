import Mathlib.Data.List.Nodup
import Nmos6502.Cpu.Status
import Nmos6502.Isa.Opcode

namespace Nmos6502

/-- The modes whose operand is a cell of memory that the registers may select. -/
def Mode.inMemory : Mode → Bool
  | zeroPage | zeroPageX | zeroPageY | absolute | absoluteX | absoluteY | indirectX | indirectY =>
    true
  | implicit | accumulator | immediate | relative | indirect => false

/-- What an instruction wants its operand for. -/
inductive Family where
  | reading | modifying | writing | branching | jumping | alone
  deriving DecidableEq

namespace Family

/-- The modes in which the instructions of the family come. -/
def admits : Family → Mode → Bool
  | reading, mode => mode == .immediate || mode.inMemory
  | modifying, mode => mode == .accumulator || mode.inMemory
  | writing, mode => mode.inMemory
  | branching, mode => mode == .relative
  | jumping, mode => mode == .absolute || mode == .indirect
  | alone, mode => mode == .implicit

theorem mode_of_jumping {mode : Mode} (h : jumping.admits mode = true) :
    mode = .absolute ∨ mode = .indirect := by
  simpa [admits] using h

end Family

namespace Mnemonic

def family : Mnemonic → Family
  | adc | and | bit | cmp | cpx | cpy | eor | lda | ldx | ldy | ora | sbc => .reading
  | asl | dec | inc | lsr | rol | ror => .modifying
  | sta | stx | sty => .writing
  | bcc | bcs | beq | bmi | bne | bpl | bvc | bvs => .branching
  | jmp | jsr => .jumping
  | brk | clc | cld | cli | clv | dex | dey | inx | iny | nop | pha | php | pla | plp | rti | rts
  | sec | sed | sei | tax | tay | tsx | txa | txs | tya => .alone

/-- The flag that a branch looks at and the value with which it branches. -/
def condition : Mnemonic → Option (Flag × Bool)
  | bcc => some (.carry, false)
  | bcs => some (.carry, true)
  | bne => some (.zero, false)
  | beq => some (.zero, true)
  | bpl => some (.negative, false)
  | bmi => some (.negative, true)
  | bvc => some (.overflow, false)
  | bvs => some (.overflow, true)
  | _ => none

end Mnemonic

namespace Opcode

/-- Whether the action of an instruction works out the address of its operand. An accumulator
operand is taken before any address is worked out. -/
def asksAddress (op : Opcode) : Bool :=
  match op.mnemonic.family with
  | .reading | .modifying => op.mode != .accumulator
  | .writing | .branching | .jumping => true
  | .alone => false

theorem mem_documented_of_decode {byte : Byte} {op : Opcode} (h : decode byte = some op) :
    (byte, op) ∈ documented := by
  obtain ⟨before, after, hlist, -⟩ := List.lookup_eq_some_iff.mp h
  rw [hlist]
  simp

theorem mem_documented_of_encode {byte : Byte} {op : Opcode} (h : op.encode = some byte) :
    (byte, op) ∈ documented := by
  obtain ⟨row, hrow, rfl⟩ := Option.map_eq_some_iff.mp h
  have hop : row.2 = op := by simpa using List.find?_some hrow
  rw [← hop]
  exact List.mem_of_find?_eq_some hrow

theorem encode_eq_some_iff {byte : Byte} {op : Opcode} :
    op.encode = some byte ↔ decode byte = some op := by
  obtain ⟨hbytes, hops⟩ := documented_nodup
  constructor
  · intro h
    have hrow := mem_documented_of_encode h
    obtain ⟨other, hother⟩ := Option.isSome_iff_exists.mp
      (List.lookup_isSome_iff.mpr ⟨_, hrow, beq_self_eq_true byte⟩)
    have heq := List.inj_on_of_nodup_map hbytes hrow (mem_documented_of_decode hother) rfl
    exact hother.trans (congrArg some (Prod.mk.inj heq).2.symm)
  · intro h
    have hrow := mem_documented_of_decode h
    obtain ⟨found, hfound⟩ := Option.isSome_iff_exists.mp
      (List.find?_isSome (p := fun row => row.2 == op).mpr ⟨_, hrow, beq_self_eq_true op⟩)
    have hencode : op.encode = some found.1 := by rw [encode, hfound, Option.map_some]
    have heq := List.inj_on_of_nodup_map hops hrow (mem_documented_of_encode hencode) rfl
    rw [hencode, ← (Prod.mk.inj heq).1]

theorem of_decode {P : Opcode → Prop} [DecidablePred P]
    (hrows : documented.all (fun row => decide (P row.2)) = true) {byte : Byte} {op : Opcode}
    (h : decode byte = some op) : P op :=
  of_decide_eq_true (List.all_eq_true.mp hrows _ (mem_documented_of_decode h))

theorem admits_of_decode {byte : Byte} {op : Opcode} (h : decode byte = some op) :
    op.mnemonic.family.admits op.mode = true :=
  of_decode (P := fun op => op.mnemonic.family.admits op.mode = true) (by decide +kernel) h

theorem jsr_mode_of_decode {byte : Byte} {op : Opcode} (h : decode byte = some op)
    (hjsr : op.mnemonic = .jsr) : op.mode = .absolute :=
  of_decode (P := fun op => op.mnemonic = .jsr → op.mode = .absolute) (by decide +kernel) h hjsr

theorem operandSize_pos_of_asksAddress {byte : Byte} {op : Opcode} (h : decode byte = some op) :
    op.asksAddress = true → 0 < op.mode.operandSize :=
  of_decode (P := fun op => op.asksAddress = true → 0 < op.mode.operandSize) (by decide +kernel) h

theorem not_asksAddress {mnemonic : Mnemonic} {mode : Mode}
    (h : asksAddress ⟨mnemonic, mode⟩ = false) :
    mnemonic.family = .alone ∨
      mode = .accumulator ∧ (mnemonic.family = .reading ∨ mnemonic.family = .modifying) := by
  unfold asksAddress at h
  cases hfamily : mnemonic.family <;> simp_all

end Opcode

end Nmos6502
