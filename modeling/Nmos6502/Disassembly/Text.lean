import Nmos6502.Disassembly.Instruction
import Nmos6502.Label.Table

namespace Nmos6502

namespace Instruction

def shortText (value : Word) : String :=
  "$" ++ Hex.atLeast 2 value.toNat

def longText (value : Word) : String :=
  "$" ++ Hex.ofWord value

/-- The name of an address in a table, if there are both. -/
def nameIn (labels : Option LabelTable) (address : Word) : Option String :=
  labels.bind fun table => table.nameOf? address

/-- An operand by name, or as `digits` prints it. -/
def addressText (i : Instruction) (labels : Option LabelTable) (digits : Word → String) : String :=
  match i.operand with
  | some value => (nameIn labels value).getD (digits value)
  | none => "$??"

def operandText (i : Instruction) (labels : Option LabelTable) : String :=
  match i.mode with
  | .implicit => ""
  | .accumulator => "A"
  | .immediate => "#" ++ shortText (i.operand.getD 0)
  | .zeroPage => i.addressText labels shortText
  | .zeroPageX => i.addressText labels shortText ++ ",X"
  | .zeroPageY => i.addressText labels shortText ++ ",Y"
  | .absolute => i.addressText labels longText
  | .absoluteX => i.addressText labels longText ++ ",X"
  | .absoluteY => i.addressText labels longText ++ ",Y"
  | .indirect => "(" ++ i.addressText labels longText ++ ")"
  | .indirectX => "(" ++ i.addressText labels shortText ++ ",X)"
  | .indirectY => "(" ++ i.addressText labels shortText ++ "),Y"
  | .relative =>
    match i.target with
    | some target => (nameIn labels target).getD (longText target)
    | none => "$????"

def text (i : Instruction) (labels : Option LabelTable) : String :=
  match i.mnemonic with
  | none => ".byte $" ++ Hex.ofByte i.opcode
  | some mnemonic =>
    let operand := i.operandText labels
    if operand.isEmpty then mnemonic.name else mnemonic.name ++ " " ++ operand

/-- The bytes of an instruction in a column of ten characters. -/
def byteColumn (i : Instruction) : String :=
  let digits := String.intercalate " " (i.bytes.map Hex.ofByte)
  digits ++ String.ofList (List.replicate (10 - digits.length) ' ')

/-- The lines of an instruction: the label of its address, if there is one, and the instruction. -/
def listingText (withBytes : Bool) (labels : Option LabelTable) (i : Instruction) : String :=
  let heading := match nameIn labels i.address with
    | some name => name ++ ":\n"
    | none => ""
  let column := if withBytes then i.byteColumn else ""
  heading ++ Hex.ofWord i.address ++ "  " ++ column ++ i.text labels ++ "\n"

def listing (withBytes : Bool) (labels : Option LabelTable) (is : List Instruction) : String :=
  String.join (is.map (listingText withBytes labels))

end Instruction

end Nmos6502
