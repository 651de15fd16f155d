import Nmos6502.Bus.Basic
import Nmos6502.Text.Hex

namespace Nmos6502

inductive ImageError where
  | missingHeader (length : Nat)
  | lengthMismatch (declared actual : Nat)
  | outOfBounds (address : Word) (length : Nat)
  deriving DecidableEq, Repr

namespace ImageError

def message : ImageError → String
  | missingHeader length =>
    "image is " ++ toString length ++ " bytes, shorter than the 4-byte header"
  | lengthMismatch declared actual =>
    "header declares " ++ toString declared ++ " payload bytes but " ++ toString actual ++ " follow"
  | outOfBounds address length =>
    toString length ++ " bytes at $" ++ Hex.ofWord address ++
      " run past the end of the address space"

end ImageError

/-- Whether `length` bytes at `address` end before the end of the address space and their number
fits the header. -/
def FitsImage (address : Word) (length : Nat) : Prop :=
  length < 0x10000 ∧ address.toNat + length ≤ 0x10000

instance (address : Word) (length : Nat) : Decidable (FitsImage address length) :=
  inferInstanceAs (Decidable (_ ∧ _))

/-- A block of bytes that fits where it belongs. -/
structure Image where
  address : Word
  bytes : List Byte
  fits : FitsImage address bytes.length
  deriving DecidableEq

universe u

namespace Image

def of (address : Word) (bytes : List Byte) : Except ImageError Image :=
  if h : FitsImage address bytes.length then .ok ⟨address, bytes, h⟩
  else .error (.outOfBounds address bytes.length)

def relocate (image : Image) (address : Word) : Except ImageError Image :=
  of address image.bytes

def encode (image : Image) : List Byte :=
  let length := BitVec.ofNat 16 image.bytes.length
  Word.low image.address :: Word.high image.address :: Word.low length :: Word.high length ::
    image.bytes

/-- The encoded form of bytes that belong at an address, if they fit there. -/
def encodeBytes (address : Word) (bytes : List Byte) : Except ImageError (List Byte) :=
  (of address bytes).map encode

def decode : List Byte → Except ImageError Image
  | addressLow :: addressHigh :: lengthLow :: lengthHigh :: bytes =>
    let declared := (Word.ofBytes lengthLow lengthHigh).toNat
    if bytes.length = declared then of (Word.ofBytes addressLow addressHigh) bytes
    else .error (.lengthMismatch declared bytes.length)
  | short => .error (.missingHeader short.length)

/-- Reads header and bytes and moves the image to another address, if there is one. -/
def decodeAt (encoded : List Byte) (address : Option Word) : Except ImageError Image := do
  let image ← decode encoded
  match address with
  | some address => image.relocate address
  | none => .ok image

def range (image : Image) : Option (Word × Word) :=
  match image.bytes.length with
  | 0 => none
  | n + 1 => some (image.address, image.address + BitVec.ofNat 16 n)

/-- The bytes of a bus from `first` to `last`, none if `last` is below. -/
def capture {β : Type u} [Bus β] (bus : β) (first last : Word) : Except ImageError Image :=
  of first (Bus.readAll bus first (last.toNat + 1 - first.toNat))

end Image

end Nmos6502
