import Nmos6502.Bus.Device

/-!
A bus that sends every address to the device that owns it. Installing a device over addresses that
have an owner takes them over. An address without an owner reads as zero and drops writes; every
write, wherever it goes, moves the watermark.
-/

namespace Nmos6502

/-- Devices, and for every address the number of the device that owns it. -/
structure MappedMemory where
  devices : Array Device
  owners : Table (Option Nat) 16
  watermark : Option (Word × Word)

namespace MappedMemory

def empty : MappedMemory where
  devices := #[]
  owners := Table.replicate 16 none
  watermark := none

/-- The most devices that can be installed. -/
def capacity : Nat := 0xFFFF

/-- Gives a device the addresses that it wants and tells its number. -/
def install (m : MappedMemory) (d : Device) : Except DeviceError (MappedMemory × Nat) := do
  let stop ← (addChecked d.base.toNat d.size).mapError .overflow
  if addressSpace < stop then .error (.pastEnd d.base d.size)
  else if capacity ≤ m.devices.size then .error .tooMany
  else
    let number := m.devices.size
    .ok ({ m with
      devices := m.devices.push d
      owners := m.owners.fill d.base.toNat stop (some number) }, number)

/-- Installs so many devices like the given one. Tells the number of the last one installed so far,
which is `last` before the first. What was installed before a failure stays. -/
def installCopies (m : MappedMemory) (d : Device) (last : Option Nat) :
    (count : Nat) → MappedMemory × Except DeviceError (Option Nat)
  | 0 => (m, .ok last)
  | count + 1 =>
    match m.install d with
    | .ok (m, number) => m.installCopies d (some number) count
    | .error error => (m, .error error)

def ownerOf (m : MappedMemory) (address : Word) : Option Nat :=
  m.owners.get address.toNat

def deviceAt (m : MappedMemory) (address : Word) : Option Device := do
  m.devices[← m.ownerOf address]?

def widen (range : Option (Word × Word)) (address : Word) : Word × Word :=
  match range with
  | some (lowest, highest) =>
    (if address < lowest then address else lowest, if highest < address then address else highest)
  | none => (address, address)

def resetWatermark (m : MappedMemory) : MappedMemory :=
  { m with watermark := none }

def modifyDevice (m : MappedMemory) (number : Nat) (change : Device → Device) : MappedMemory :=
  { m with devices := m.devices.modify number change }

instance : Bus MappedMemory where
  read m address :=
    match m.deviceAt address with
    | some d => if d.readable then d.read (address - d.base) else 0
    | none => 0
  write m address value :=
    let marked := { m with watermark := some (widen m.watermark address) }
    match m.ownerOf address with
    | some number =>
      marked.modifyDevice number fun d =>
        if d.writable then d.write (address - d.base) value else d
    | none => marked
  signal m address value :=
    match m.deviceAt address with
    | some d => if d.writable then d.signal (address - d.base) value else none
    | none => none

end MappedMemory

end Nmos6502
