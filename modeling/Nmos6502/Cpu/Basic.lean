import Nmos6502.Bus.Basic
import Nmos6502.Cpu.Status

/-!
Registers, the bus and the bookkeeping of the processor, with the primitive operations out of which
instructions are made.

Every register and flag is assigned through `Cpu.assign`, which compares, stores and records a
change; every write to memory goes through `Cpu.store`, which records what the bus saw. The record
of an operation is the `log`, oldest entry first: `log_assign` says when an assignment is recorded
and `log_store` that a write always is. The processor never reads its log.
-/

namespace Nmos6502

universe u

inductive Halt where
  /-- A `BRK` was executed, or the Break flag was set without a fault. -/
  | brk
  /-- A byte was pushed with the stack pointer at its lowest value. -/
  | stackOverflow
  /-- A byte was pulled with the stack pointer at its highest value. -/
  | stackUnderflow
  deriving DecidableEq, Repr

/-- A register, or the flags under a mask, whose changes are recorded. -/
inductive Observable where
  | a | x | y | pc | sp
  | flag (mask : Byte)
  deriving DecidableEq, Repr

namespace Observable

def name : Observable → String
  | a => "A"
  | x => "X"
  | y => "Y"
  | pc => "PC"
  | sp => "SP"
  | flag mask => Flag.nameOf mask

end Observable

/-- A register or flag and its new value; flags are 0 or 1. -/
structure Change where
  what : Observable
  value : Word
  deriving DecidableEq, Repr

/-- What an operation of the processor leaves in its log. -/
inductive Happening where
  | changed (change : Change)
  | stored (entry : Store)
  deriving DecidableEq, Repr

structure Cpu (β : Type u) where
  a : Byte
  x : Byte
  y : Byte
  sp : Byte
  pc : Word
  status : Status
  bus : β
  /-- Whether an interrupt handler runs: from the entry of an interrupt to the next `RTI`. -/
  servicing : Bool
  /-- The first reason to halt, until a run or a reset takes it back. -/
  halt : Option Halt
  /-- Opcodes fetched since the last reset. -/
  fetched : Nat
  /-- Undocumented opcodes fetched since the last reset. -/
  undocumented : Nat
  /-- The program counter as last recorded. -/
  reportedPc : Word
  log : List Happening

namespace Cpu

def stackPage : Word := 0x0100

def nmiVector : Word := 0xFFFA

def resetVector : Word := 0xFFFC

def irqVector : Word := 0xFFFE

variable {β : Type u}

/-- The state after power comes up: registers clear, an empty stack, interrupts disabled and the
program counter loaded from the reset vector. -/
def powerOn [Bus β] (bus : β) : Cpu β where
  a := 0
  x := 0
  y := 0
  sp := 0xFF
  pc := Bus.readWord bus resetVector
  status := .reset
  bus := bus
  servicing := false
  halt := none
  fetched := 0
  undocumented := 0
  reportedPc := Bus.readWord bus resetVector
  log := []

def record (c : Cpu β) (entry : Happening) : Cpu β :=
  { c with log := c.log ++ [entry] }

def value (c : Cpu β) : Observable → Word
  | .a => Byte.toWord c.a
  | .x => Byte.toWord c.x
  | .y => Byte.toWord c.y
  | .pc => c.pc
  | .sp => Byte.toWord c.sp
  | .flag mask => if c.status.contains mask then 1 else 0

/-- The processor with a register or the flags under a mask replaced, unrecorded. -/
def put (c : Cpu β) : Observable → Word → Cpu β
  | .a, value => { c with a := Word.low value }
  | .x, value => { c with x := Word.low value }
  | .y, value => { c with y := Word.low value }
  | .pc, value => { c with pc := value }
  | .sp, value => { c with sp := Word.low value }
  | .flag mask, value => { c with status := c.status.assign mask (value != 0) }

/-- Assigns a register or flag and records the change, if there is one. -/
def assign (c : Cpu β) (what : Observable) (value : Word) : Cpu β :=
  if c.value what = value then c else (c.put what value).record (.changed ⟨what, value⟩)

def setA (c : Cpu β) (value : Byte) : Cpu β :=
  c.assign .a (Byte.toWord value)

def setX (c : Cpu β) (value : Byte) : Cpu β :=
  c.assign .x (Byte.toWord value)

def setY (c : Cpu β) (value : Byte) : Cpu β :=
  c.assign .y (Byte.toWord value)

def setSp (c : Cpu β) (value : Byte) : Cpu β :=
  c.assign .sp (Byte.toWord value)

/-- Sets or clears the flags under a mask together. Bit 5 on its own cannot be changed. -/
def setFlags (c : Cpu β) (mask : Byte) (on : Bool) : Cpu β :=
  if mask = Flag.unused.mask then c else c.assign (.flag mask) (if on then 1 else 0)

def setFlag (c : Cpu β) (flag : Flag) (on : Bool) : Cpu β :=
  c.setFlags flag.mask on

/-- Whether all flags under a mask are set, bit 5 counting as set. -/
def flags (c : Cpu β) (mask : Byte) : Bool :=
  (Status.mk c.status.packed).contains mask

/-- The flags that a packed byte carries into the register, in the order of their assignment. Break
and bit 5 are not among them. -/
def loadedFlags : List Flag :=
  [.carry, .zero, .interruptDisable, .decimal, .overflow, .negative]

def setStatus (c : Cpu β) (packed : Byte) : Cpu β :=
  loadedFlags.foldl (fun c flag => c.setFlag flag ((Status.mk packed).has flag)) c

def setZN (c : Cpu β) (value : Byte) : Cpu β :=
  (c.setFlag .zero (value == 0)).setFlag .negative value.msb

/-- Records the program counter if it has moved since it was last recorded. -/
def reportPc (c : Cpu β) : Cpu β :=
  if c.pc = c.reportedPc then c
  else { c with reportedPc := c.pc }.record (.changed ⟨.pc, c.pc⟩)

def setPc (c : Cpu β) (value : Word) : Cpu β :=
  { c with pc := value }.reportPc

/-- Sets the Break flag, keeping the first reason given. -/
def stop (c : Cpu β) (why : Halt) : Cpu β :=
  { c with halt := c.halt.or (some why) }.setFlag .brk true

def store [Bus β] (c : Cpu β) (address : Word) (value : Byte) : Cpu β :=
  let (bus, entry) := Bus.store c.bus address value
  { c with bus := bus }.record (.stored entry)

def stackSlot (c : Cpu β) : Word :=
  stackPage + Byte.toWord c.sp

/-- Writes to the selected slot and moves the stack pointer down. With the stack pointer at zero it
stays there and the program halts. -/
def push [Bus β] (c : Cpu β) (value : Byte) : Cpu β :=
  let c := c.store c.stackSlot value
  if c.sp = 0x00 then c.stop .stackOverflow else c.setSp (c.sp - 1)

/-- Moves the stack pointer up and reads the slot it then selects. With the stack pointer at its
highest value it stays there, the program halts and zero is read. -/
def pull [Bus β] (c : Cpu β) : Byte × Cpu β :=
  if c.sp = 0xFF then (0, c.stop .stackUnderflow)
  else
    let c := c.setSp (c.sp + 1)
    (Bus.read c.bus c.stackSlot, c)

def pushWord [Bus β] (c : Cpu β) (value : Word) : Cpu β :=
  (c.push (Word.high value)).push (Word.low value)

def pullWord [Bus β] (c : Cpu β) : Word × Cpu β :=
  let (lo, c) := c.pull
  let (hi, c) := c.pull
  (Word.ofBytes lo hi, c)

theorem log_assign (c : Cpu β) (what : Observable) (value : Word) :
    (c.assign what value).log =
      if c.value what = value then c.log else c.log ++ [.changed ⟨what, value⟩] := by
  unfold assign
  split
  · rfl
  · cases what <;> rfl

theorem log_store [Bus β] (c : Cpu β) (address : Word) (value : Byte) :
    (c.store address value).log =
      c.log ++ [.stored ⟨address, value, Bus.signal c.bus address value⟩] :=
  rfl

end Cpu

end Nmos6502
