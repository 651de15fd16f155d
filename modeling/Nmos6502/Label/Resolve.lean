import Nmos6502.Isa.Opcode
import Nmos6502.Label.Reference

namespace Nmos6502

/-- How a resolved reference is stored. -/
inductive Encoding where
  | word
  | byte
  /-- The signed distance from the byte after the operand. -/
  | relative
  deriving DecidableEq, Repr

/-- The bytes that take the place of a placeholder. -/
inductive Patch where
  | byte (value : Byte)
  | word (value : Word)
  deriving DecidableEq, Repr

namespace Patch

/-- The bytes in the order in which they are stored. -/
def bytes : Patch → List Byte
  | byte value => [value]
  | word value => [Word.low value, Word.high value]

end Patch

/-- What can go wrong while a program is loaded, with the address of the operand concerned. -/
inductive FixupError where
  | label (error : LabelError)
  | unresolved (label : String) (slot : Word)
  | branchOutOfRange (label : String) (slot : Word) (distance : Int)
  | byteOutOfRange (label : String) (slot : Word) (value : Int)
  | wordOutOfRange (label : String) (slot : Word) (value : Int)
  /-- A later reference took the place of one that was still waiting. -/
  | overwritten (label : String) (slot : Word)
  | unknownInstruction (op : Opcode) (slot : Word)
  deriving DecidableEq, Repr

namespace FixupError

/-- Names a reference and where it stands. -/
def quote (label : String) (slot : Word) : String :=
  "`" ++ label ++ "` at $" ++ Hex.ofWord slot

def message : FixupError → String
  | label error => error.message
  | unresolved name slot =>
    "unresolved label `" ++ name ++ "` referenced at $" ++ Hex.ofWord slot
  | branchOutOfRange name slot distance =>
    "branch to " ++ quote name slot ++ " out of range (distance " ++ toString distance ++ ")"
  | byteOutOfRange name slot value =>
    "byte reference to " ++ quote name slot ++ " out of range (value " ++ toString value ++ ")"
  | wordOutOfRange name slot value =>
    "word reference to " ++ quote name slot ++ " out of range (value " ++ toString value ++ ")"
  | overwritten name slot =>
    "reference to " ++ quote name slot ++ " was replaced by a later reference"
  | unknownInstruction op slot =>
    "no opcode for " ++ op.mnemonic.name ++ " with " ++ op.mode.name ++ " addressing at $" ++
      Hex.ofWord slot

end FixupError

/-- A reference that waits for its label. -/
structure PendingReference where
  target : Reference
  encoding : Encoding
  deriving DecidableEq, Repr

namespace PendingReference

/-- The largest 32-bit number, which stands for every value out of that range. -/
def outOfRange : Int := 0x7FFFFFFF

def checked (value : Int) : Option Int :=
  if Numeral.InRange value then some value else none

/-- The bytes for the placeholder at `slot`. -/
def resolve (p : PendingReference) (slot : Word) (labels : LabelTable) : Except FixupError Patch :=
  match labels.lookup p.target.name with
  | none => .error (.unresolved p.target.text slot)
  | some address =>
    let select := p.target.select
    let target := checked (address.toNat + p.target.offset)
    let value := (target.map select.apply).getD outOfRange
    match p.encoding with
    | .word =>
      if 0 ≤ value ∧ value < 0x10000 then .ok (.word (BitVec.ofInt 16 value))
      else .error (.wordOutOfRange p.target.text slot value)
    | .byte =>
      if 0 ≤ value ∧ value < 0x100 then .ok (.byte (BitVec.ofInt 8 value))
      else .error (.byteOutOfRange p.target.text slot value)
    | .relative =>
      match (target.bind fun t => checked (t - (slot.toNat + 1))).map select.apply with
      | none => .error (.branchOutOfRange p.target.text slot outOfRange)
      | some distance =>
        if select ≠ .both ∨ -0x80 ≤ distance ∧ distance < 0x80 then
          .ok (.byte (BitVec.ofInt 8 distance))
        else .error (.branchOutOfRange p.target.text slot distance)

end PendingReference

end Nmos6502
