import Nmos6502.Monitor.Basic

namespace Nmos6502.Monitor

def mapped (m : Monitor) : Except Refusal MappedMemory :=
  match m.board with
  | .mapped memory => .ok memory
  | .flat _ => .error .noDevices

def setBoard (m : Monitor) (board : Board) : Monitor :=
  m.operate fun machine => { machine with cpu := { machine.cpu with bus := board } }

def resetWatermark (m : Monitor) : Except Refusal Monitor := do
  let memory ← m.mapped
  return m.setBoard (.mapped memory.resetWatermark)

/-- Installs so many devices like the given one and tells the number of the last one, if there is
any. -/
def install (m : Monitor) (device : Device) (count : Nat) :
    Monitor × Except Refusal (Option Nat) :=
  match m.mapped with
  | .error refusal => (m, .error refusal)
  | .ok memory =>
    let (memory, result) := memory.installCopies device none count
    (m.setBoard (.mapped memory), result.mapError .device)

def deviceOf (m : Monitor) (number : Nat) : Except Refusal Device := do
  let memory ← m.mapped
  (memory.devices[number]?).elim (.error .noSuchNumber) .ok

def setDevice (m : Monitor) (number : Nat) (device : Device) : Except Refusal Monitor := do
  let memory ← m.mapped
  return m.setBoard (.mapped (memory.modifyDevice number fun _ => device))

def readDevice (m : Monitor) (number : Nat) (offset : Word) : Except Refusal Byte := do
  let device ← m.deviceOf number
  (device.readCell offset).mapError .device

def writeDevice (m : Monitor) (number : Nat) (offset : Word) (value : Byte) :
    Except Refusal Monitor := do
  let device ← m.deviceOf number
  let written ← (device.writeCell offset value).mapError .device
  let stored ← m.setDevice number written
  return stored.operate fun machine => machine.signals (device.signal offset value).toList

/-- Switches the burning of a device on or off and tells whether it is on then. -/
def burn (m : Monitor) (number : Nat) (on : Bool) : Except Refusal (Monitor × Bool) := do
  let device := (← m.deviceOf number).setBurning on
  return (← m.setDevice number device, device.burning)

def loadBytes (m : Monitor) (number : Nat) (offset : Word) (bytes : List Byte) :
    Except Refusal Monitor := do
  let device ← m.deviceOf number
  m.setDevice number (← (device.loadBytes offset bytes).mapError .device)

def contents (m : Monitor) (number : Nat) : Except Refusal (List Byte) :=
  return (← m.deviceOf number).contents

def takeWrites (m : Monitor) (number : Nat) : Except Refusal (Monitor × List (Word × Byte)) := do
  let device ← m.deviceOf number
  return (← m.setDevice number device.forgetWrites, device.writes.toList)

end Nmos6502.Monitor
