import Nmos6502.Image
import Nmos6502.Label.Resolve

/-!
Puts a program on a bus through a cursor. An operand may refer to a label that is defined later: a
placeholder is stored in its place and patched when the loader is told to fix up.

Nothing stops a load. What goes wrong is kept and reported by the next fixup, together with every
reference that does not resolve; if there is anything to report, no placeholder is patched. Only a
reference that overflows is refused on the spot, and then the load goes on as if it had never come.
-/

namespace Nmos6502

universe u

structure LoadFailure where
  errors : List FixupError
  deriving DecidableEq, Repr

namespace LoadFailure

def message (failure : LoadFailure) : String :=
  "load failed with " ++ toString failure.errors.length ++ " error(s): " ++
    String.intercalate "; " (failure.errors.map FixupError.message)

end LoadFailure

structure Loader (β : Type u) where
  bus : β
  labels : LabelTable
  cursor : Word
  /-- The references that wait, by the address of their placeholders. -/
  pending : List (Word × PendingReference)
  /-- What went wrong since the last fixup, oldest first. -/
  errors : List FixupError
  /-- Every write so far, oldest first. -/
  stores : Array Store

namespace Loader

variable {β : Type u}

def wordPlaceholder : Word := 0xFFFF

def bytePlaceholder : Byte := 0xFF

/-- A loader with its cursor at the bottom of memory. -/
def start (bus : β) (labels : LabelTable) : Loader β where
  bus := bus
  labels := labels
  cursor := 0
  pending := []
  errors := []
  stores := #[]

def moveTo (l : Loader β) (address : Word) : Loader β :=
  { l with cursor := address }

def report (l : Loader β) (error : FixupError) : Loader β :=
  { l with errors := l.errors ++ [error] }

def label (l : Loader β) (name : String) : Loader β :=
  match l.labels.define name l.cursor with
  | .ok labels => { l with labels := labels }
  | .error error => l.report (.label error)

/-- Lets a reference wait at the cursor. One that waits there already gives way to it. -/
def await (l : Loader β) (target : Reference) (encoding : Encoding) : Loader β :=
  let waiting := { l with pending := Sorted.insert l.cursor ⟨target, encoding⟩ l.pending }
  match l.pending.lookup l.cursor with
  | some previous => waiting.report (.overwritten previous.target.text l.cursor)
  | none => waiting

/-- Refers to a label at the cursor. A text that is no reference is reported. -/
def refer (l : Loader β) (text : String) (encoding : Encoding) : Except Overflow (Loader β) :=
  match Reference.read text with
  | .ok (.ok target) => .ok (l.await target encoding)
  | .ok (.error error) => .ok (l.report (.label error))
  | .error fault => .error fault

def pushScope (l : Loader β) : Loader β :=
  { l with labels := l.labels.pushScope }

variable [Bus β]

def patch (l : Loader β) (address : Word) (value : Byte) : Loader β :=
  let (bus, entry) := Bus.store l.bus address value
  { l with bus := bus, stores := l.stores.push entry }

def write (l : Loader β) (value : Byte) : Loader β :=
  { l.patch l.cursor value with cursor := l.cursor + 1 }

def writeAll (l : Loader β) (bytes : List Byte) : Loader β :=
  bytes.foldl write l

def writeWord (l : Loader β) (value : Word) : Loader β :=
  l.writeAll [Word.low value, Word.high value]

/-- Writes the opcode of an instruction. Its operand is written by other means. -/
def instruction (l : Loader β) (op : Opcode) : Loader β :=
  match op.encode with
  | some byte => l.write byte
  | none => l.report (.unknownInstruction op l.cursor)

def wordReference (l : Loader β) (text : String) : Except Overflow (Loader β) :=
  (l.refer text .word).map fun l => l.writeWord wordPlaceholder

def byteReference (l : Loader β) (text : String) : Except Overflow (Loader β) :=
  (l.refer text .byte).map fun l => l.write bytePlaceholder

def relativeReference (l : Loader β) (text : String) : Except Overflow (Loader β) :=
  (l.refer text .relative).map fun l => l.write bytePlaceholder

/-- Writes an encoded image at its own address or at another one, and tells where. -/
def loadImage (l : Loader β) (encoded : List Byte) (address : Option Word) :
    Loader β × Except ImageError Word :=
  match Image.decodeAt encoded address with
  | .ok image => ((l.moveTo image.address).writeAll image.bytes, .ok image.address)
  | .error error => (l, .error error)

/-- The patches of the references that resolve and the errors of those that do not, by address. -/
def resolveAll (labels : LabelTable) :
    List (Word × PendingReference) → List (Word × Patch) × List FixupError
  | [] => ([], [])
  | (address, reference) :: rest =>
    let (patches, errors) := resolveAll labels rest
    match reference.resolve address labels with
    | .ok patch => ((address, patch) :: patches, errors)
    | .error error => (patches, error :: errors)

def applyPatch (l : Loader β) (address : Word) : Patch → Loader β
  | .byte value => l.patch address value
  | .word value => (l.patch address (Word.low value)).patch (address + 1) (Word.high value)

/-- Patches every reference that waits, or reports all that is wrong and patches none. Nothing waits
and nothing is kept afterwards. -/
def fixup (l : Loader β) : Loader β × Except LoadFailure Unit :=
  let (patches, unresolved) := resolveAll l.labels l.pending
  let errors := l.errors ++ unresolved
  let cleared := { l with pending := [], errors := [] }
  if errors.isEmpty then
    (patches.foldl (fun l entry => l.applyPatch entry.1 entry.2) cleared, .ok ())
  else (cleared, .error ⟨errors⟩)

/-- Fixes up and discards the innermost label scope, even if the fixup fails. -/
def endScope (l : Loader β) : Loader β × Except LoadFailure Unit :=
  let (fixed, result) := l.fixup
  ({ fixed with labels := fixed.labels.popScope }, result)

/-- Ends the load. Whatever still waits is fixed up, and nobody hears of errors. -/
def finish (l : Loader β) : Loader β :=
  l.fixup.1

end Loader

end Nmos6502
