import Nmos6502.Bus.Basic
import Nmos6502.Overflow
import Nmos6502.Table
import Nmos6502.Text.Hex

/-!
What can be installed on a mapped bus: plain memory, memory that is read-only until it is being
burned, a simple port, and devices with a behavior of their own. A device knows its first address
and how many addresses it wants; it is read and written at offsets from its first address. Reading
leaves a device as it is.
-/

namespace Nmos6502

def addressSpace : Nat := 0x10000

inductive DeviceError where
  | ramTooLarge
  | romTooLarge
  /-- The end of a device is not even a 32-bit number. -/
  | overflow (fault : Overflow)
  /-- The addresses of a device would run past the last one. -/
  | pastEnd (base : Word) (size : Nat)
  | tooMany
  | loadPastEnd
  | noSuchCell
  deriving DecidableEq, Repr

namespace DeviceError

def message : DeviceError → String
  | ramTooLarge => "RAM larger than the address space"
  | romTooLarge => "ROM larger than the address space"
  | overflow fault => fault.message
  | pastEnd base size =>
    "device at 0x" ++ Hex.ofWord base ++ " with size 0x" ++ Hex.shortest size ++
      " extends past the end of the address space"
  | tooMany => "too many devices installed"
  | loadPastEnd => "load past end of RAM"
  | noSuchCell => "index out of bounds"

end DeviceError

/-- A row of byte cells, no more than there are addresses. -/
structure Bank where
  size : Nat
  cells : Table Byte 16
  size_le : size ≤ addressSpace

namespace Bank

def fillFrom (cells : Table Byte 16) (start : Nat) : List Byte → Table Byte 16
  | [] => cells
  | b :: rest => fillFrom (cells.set start b) (start + 1) rest

def ofBytes? (bytes : List Byte) : Option Bank :=
  if h : bytes.length ≤ addressSpace then
    some ⟨bytes.length, fillFrom (Table.replicate 16 0) 0 bytes, h⟩
  else none

def zeroed? (size : Nat) : Option Bank :=
  if h : size ≤ addressSpace then some ⟨size, Table.replicate 16 0, h⟩ else none

def get (bank : Bank) (offset : Nat) : Byte :=
  bank.cells.get offset

def set (bank : Bank) (offset : Nat) (value : Byte) : Bank :=
  { bank with cells := bank.cells.set offset value }

/-- Puts bytes into consecutive cells, if they fit. -/
def load? (bank : Bank) (offset : Nat) (bytes : List Byte) : Option Bank :=
  if offset + bytes.length ≤ bank.size then
    some { bank with cells := fillFrom bank.cells offset bytes }
  else none

def toList (bank : Bank) : List Byte :=
  (List.range bank.size).map bank.get

end Bank

/-- A device that answers every read with the same byte and keeps every write. An active one acts on
certain bytes. -/
structure Peripheral where
  base : Word
  /-- Number of addresses, which a peripheral may ask for without being able to get them. -/
  size : BitVec 32
  value : Byte
  readable : Bool
  writable : Bool
  active : Bool
  /-- The writes that reached the peripheral, with their offsets, oldest first. -/
  writes : Array (Word × Byte)
  deriving DecidableEq, Repr

namespace Peripheral

def action (value : Byte) : Option Signal :=
  match value.toNat with
  | 1 => some .nmi
  | 2 => some .irq
  | 3 => some .go
  | 4 => some .stop
  | 5 => some .step
  | 6 => some .cancel
  | _ => none

end Peripheral

/-- A device given by what it does. What it keeps between two writes is coded as a list of numbers.
-/
structure CustomDevice where
  base : Word
  size : BitVec 32
  kept : List Nat
  readable : List Nat → Bool
  writable : List Nat → Bool
  read : List Nat → Word → Byte
  write : List Nat → Word → Byte → List Nat
  signal : List Nat → Word → Byte → Option Signal

inductive Device where
  | ram (base : Word) (bank : Bank)
  /-- Memory that ignores writes unless it is being burned. -/
  | rom (base : Word) (bank : Bank) (burning : Bool)
  | peripheral (device : Peripheral)
  | custom (device : CustomDevice)

namespace Device

def ofRam (base : Word) (size : Nat) : Except DeviceError Device :=
  match Bank.zeroed? size with
  | some bank => .ok (.ram base bank)
  | none => .error .ramTooLarge

def ofRom (base : Word) (bytes : List Byte) : Except DeviceError Device :=
  match Bank.ofBytes? bytes with
  | some bank => .ok (.rom base bank false)
  | none => .error .romTooLarge

def ofBlankRom (base : Word) (size : Nat) : Except DeviceError Device :=
  match Bank.zeroed? size with
  | some bank => .ok (.rom base bank false)
  | none => .error .romTooLarge

def base : Device → Word
  | ram base _ => base
  | rom base _ _ => base
  | peripheral p => p.base
  | custom c => c.base

def size : Device → Nat
  | ram _ bank => bank.size
  | rom _ bank _ => bank.size
  | peripheral p => p.size.toNat
  | custom c => c.size.toNat

def readable : Device → Bool
  | ram .. => true
  | rom .. => true
  | peripheral p => p.readable
  | custom c => c.readable c.kept

def writable : Device → Bool
  | ram .. => true
  | rom _ _ burning => burning
  | peripheral p => p.writable
  | custom c => c.writable c.kept

def read (offset : Word) : Device → Byte
  | ram _ bank => bank.get offset.toNat
  | rom _ bank _ => bank.get offset.toNat
  | peripheral p => p.value
  | custom c => c.read c.kept offset

def write (offset : Word) (value : Byte) : Device → Device
  | ram base bank => .ram base (bank.set offset.toNat value)
  | rom base bank burning =>
    .rom base (if burning then bank.set offset.toNat value else bank) burning
  | peripheral p => .peripheral { p with writes := p.writes.push (offset, value) }
  | custom c => .custom { c with kept := c.write c.kept offset value }

/-- What a device asks for when it is written. -/
def signal (offset : Word) (value : Byte) : Device → Option Signal
  | ram .. => none
  | rom .. => none
  | peripheral p => if p.active then Peripheral.action value else none
  | custom c => c.signal c.kept offset value

def hasCell (offset : Word) : Device → Bool
  | ram _ bank => decide (offset.toNat < bank.size)
  | rom _ bank _ => decide (offset.toNat < bank.size)
  | peripheral _ | custom _ => true

def readCell (offset : Word) (d : Device) : Except DeviceError Byte :=
  if d.hasCell offset then .ok (d.read offset) else .error .noSuchCell

/-- Writes a cell that the device may not have. Memory that ignores the write does not look. -/
def writeCell (offset : Word) (value : Byte) (d : Device) : Except DeviceError Device :=
  match d with
  | rom _ _ false => .ok d
  | _ => if d.hasCell offset then .ok (d.write offset value) else .error .noSuchCell

def setBurning (on : Bool) : Device → Device
  | rom base bank _ => .rom base bank on
  | other => other

def burning : Device → Bool
  | rom _ _ burning => burning
  | ram .. | peripheral _ | custom _ => false

/-- Puts bytes into consecutive cells of memory. Other devices take none. -/
def loadBytes (offset : Word) (bytes : List Byte) : Device → Except DeviceError Device
  | ram base bank =>
    match bank.load? offset.toNat bytes with
    | some loaded => .ok (.ram base loaded)
    | none => .error .loadPastEnd
  | other => .ok other

def contents : Device → List Byte
  | ram _ bank => bank.toList
  | rom _ bank _ => bank.toList
  | peripheral _ | custom _ => []

def writes : Device → Array (Word × Byte)
  | peripheral p => p.writes
  | ram .. | rom .. | custom _ => #[]

def forgetWrites : Device → Device
  | peripheral p => .peripheral { p with writes := #[] }
  | other => other

end Device

end Nmos6502
