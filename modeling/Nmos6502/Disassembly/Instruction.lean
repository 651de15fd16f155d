import Nmos6502.Bus.Basic
import Nmos6502.Isa.Opcode

/-!
Instructions read back off a bus. An undocumented opcode is taken as a single byte of data. Operand
bytes past the top of memory come from the bottom, as they do when the processor fetches them, but a
disassembly does not go on past the top.
-/

namespace Nmos6502

universe u

structure Instruction where
  address : Word
  opcode : Byte
  /-- None for a byte of data. -/
  mnemonic : Option Mnemonic
  mode : Mode
  operands : List Byte
  deriving DecidableEq, Repr

namespace Instruction

def size (i : Instruction) : Nat :=
  1 + i.operands.length

def bytes (i : Instruction) : List Byte :=
  i.opcode :: i.operands

/-- The operand as a number: a byte, or a word stored low byte first. -/
def operand (i : Instruction) : Option Word :=
  match i.operands with
  | [lo] => some (Byte.toWord lo)
  | [lo, hi] => some (Word.ofBytes lo hi)
  | _ => none

def target (i : Instruction) : Option Word :=
  match i.mode, i.operands with
  | .relative, [offset] => some (i.address + 2 + Byte.displacement offset)
  | _, _ => none

variable {β : Type u} [Bus β]

def decode (bus : β) (address : Word) : Instruction :=
  let opcode := Bus.read bus address
  match Opcode.decode opcode with
  | some op =>
    ⟨address, opcode, op.mnemonic, op.mode, Bus.readAll bus (address + 1) op.mode.operandSize⟩
  | none => ⟨address, opcode, none, .implicit, []⟩

/-- Reads up to `count` instructions one after the other, as long as they begin below the top of
memory. -/
def decodeFrom (bus : β) : (count : Nat) → (address : Nat) → List Instruction
  | 0, _ => []
  | count + 1, address =>
    if address < 0x10000 then
      let i := decode bus (BitVec.ofNat 16 address)
      i :: decodeFrom bus count (address + i.size)
    else []

/-- A disassembly sets 32 bytes aside for each instruction asked for, in less than 2⁶³ bytes
altogether. -/
def maxListed : Nat := 0x3FFFFFFFFFFFFFF

/-- Reads up to `count` instructions from an address on, unless that is more than there can be room
for. -/
def disassemble? (bus : β) (count : Nat) (address : Word) : Option (List Instruction) :=
  if maxListed < count then none else some (decodeFrom bus count address.toNat)

theorem disassemble?_eq_some_iff {bus : β} {count : Nat} {address : Word}
    {listed : List Instruction} :
    disassemble? bus count address = some listed ↔
      count ≤ maxListed ∧ decodeFrom bus count address.toNat = listed := by
  rw [disassemble?]
  split
  case isTrue h => simp [Nat.not_le.mpr h]
  case isFalse h => simp [Nat.not_lt.mp h]

end Instruction

end Nmos6502
