import Nmos6502.Label.Table
import Nmos6502.Overflow
import Nmos6502.Text.Blank
import Nmos6502.Text.Numeral

/-!
A reference is a label name, an offset from its address and the part of the sum that is meant. It is
written `name`, `name+N` or `name-N`, with `:LO` or `:HI` behind it for one byte only.
`Reference.read` takes the text apart and `Reference.text` prints it.

Blanks are allowed around the whole text, between name and sign, after the sign and before the
colon. `N` is decimal, or hexadecimal after `$` or `0x`; a sign of its own may stand between that
mark and the digits. No number above `$FFFF` is accepted. After the sign `-` the least 32-bit number
cannot be read at all, because it has no opposite.
-/

namespace Nmos6502

/-- The part of a value that a reference uses. -/
inductive ByteSelect where
  | both
  | lo
  /-- The byte above the low one. -/
  | hi
  deriving DecidableEq, Repr

namespace ByteSelect

/-- The selected part of a value in two's complement. -/
def apply : ByteSelect → Int → Int
  | both, value => value
  | lo, value => value % 256
  | hi, value => value / 256 % 256

def mark : ByteSelect → String
  | both => ""
  | lo => ":LO"
  | hi => ":HI"

/-- The part that the text behind a colon selects, in either case. -/
def ofMark? (mark : List Char) : Option ByteSelect :=
  match mark.map Char.toUpper with
  | ['L', 'O'] => some .lo
  | ['H', 'I'] => some .hi
  | _ => none

end ByteSelect

/-- A label with an offset, and the part of the sum that is meant. -/
structure Reference where
  name : String
  offset : Int
  select : ByteSelect
  deriving DecidableEq, Repr

namespace Reference

def maxOffset : Int := 0xFFFF

/-- A character that may stand in the name of a label that is referred to. -/
def isNameChar (c : Char) : Bool :=
  c.isAlphanum || c == '_' || c == '.'

def isSign (c : Char) : Bool :=
  c == '+' || c == '-'

/-- Splits at the last colon, if there is one. -/
def splitAtColon (cs : List Char) : Option (List Char × List Char) :=
  let (behind, rest) := cs.reverse.span (· != ':')
  match rest with
  | [] => none
  | _ :: before => some (before.reverse, behind.reverse)

/-- Splits off the part that is selected. -/
def splitSelect? (cs : List Char) : Option (List Char × ByteSelect) :=
  match splitAtColon cs with
  | none => some (cs, .both)
  | some (body, mark) => (ByteSelect.ofMark? mark).map fun select => (body, select)

def readNumber? : List Char → Option Int
  | '$' :: digits => Numeral.read? 16 digits
  | '0' :: 'x' :: digits => Numeral.read? 16 digits
  | '0' :: 'X' :: digits => Numeral.read? 16 digits
  | digits => if digits.head?.any isSign then none else Numeral.read? 10 digits

/-- The offset that a sign and the text behind it make. -/
def readOffset? (sign : Char) (behind : List Char) : Except Overflow (Option Int) :=
  match readNumber? (Blank.trim behind) with
  | none => .ok none
  | some number =>
    if maxOffset < number then .ok none
    else if sign == '-' then (negateChecked number).map some
    else .ok (some number)

def readName? (cs : List Char) : Option String :=
  let name := Blank.trim cs
  if name.isEmpty || !name.all isNameChar then none else some (String.ofList name)

/-- Splits a body into name and offset. The offset is read first, so that it overflows even behind
what is no name. -/
def readBody? (body : List Char) : Except Overflow (Option (String × Int)) := do
  let (before, rest) := body.span fun c => !isSign c
  let offset ← match rest with
    | [] => .ok (some 0)
    | sign :: behind => readOffset? sign behind
  return (readName? before).bind fun name => offset.map fun offset => (name, offset)

def read? (cs : List Char) : Except Overflow (Option Reference) :=
  match splitSelect? (Blank.trim cs) with
  | none => .ok none
  | some (body, select) => do
    let parts ← readBody? body
    return parts.map fun (name, offset) => ⟨name, offset, select⟩

def read (text : String) : Except Overflow (Except LabelError Reference) := do
  match ← read? text.toList with
  | some r => return .ok r
  | none => return .error (.malformed text)

def offsetText (offset : Int) : String :=
  if offset = 0 then ""
  else if 0 < offset then "+" ++ toString offset
  else toString offset

def text (r : Reference) : String :=
  r.name ++ offsetText r.offset ++ r.select.mark

end Reference

end Nmos6502
