import Nmos6502.Control.Signal
import Nmos6502.Text.Hex

/-!
Before an instruction runs, an evaluator looks at a snapshot of the machine and decides whether to
pause there. Two kinds are provided: a set of addresses, and a watch that compares one quantity with
a value.
-/

namespace Nmos6502

/-- Why execution paused: a description, the address of the instruction and the value that matched.
-/
structure Hit where
  description : String
  address : Word
  value : Word
  deriving DecidableEq, Repr

namespace Hit

def text (hit : Hit) : String :=
  hit.description ++ " at $" ++ Hex.ofWord hit.address ++ " (value $" ++ Hex.ofWord hit.value ++ ")"

end Hit

/-- What an evaluator sees. The opcode is the byte about to execute and the status shows bit 5. -/
structure Snapshot where
  pc : Word
  opcode : Byte
  a : Byte
  x : Byte
  y : Byte
  sp : Byte
  status : Byte
  read : Word → Byte

namespace Snapshot

def readWord (s : Snapshot) (address : Word) : Word :=
  Word.ofBytes (s.read address) (s.read (address + 1))

end Snapshot

/-- What an evaluator answers: whether to pause, and what it does on its own account. -/
structure Verdict where
  hit : Option Hit
  signal : Option Signal

namespace Verdict

def pass : Verdict := ⟨none, none⟩

end Verdict

/-- Decides whether to pause before an instruction, by what it sees and by what it has kept from the
times that it was asked before, coded as a list of numbers. -/
structure Evaluator where
  kept : List Nat
  evaluate : List Nat → Snapshot → Verdict × List Nat

namespace Evaluator

/-- Asks an evaluator. It answers and keeps what it wants to know the next time. -/
def ask (e : Evaluator) (s : Snapshot) : Verdict × Evaluator :=
  let (verdict, kept) := e.evaluate e.kept s
  (verdict, { e with kept := kept })

/-- The evaluator after it was asked about several snapshots, in their order. -/
def after (e : Evaluator) (seen : List Snapshot) : Evaluator :=
  seen.foldl (fun e s => (e.ask s).2) e

/-- An evaluator that keeps nothing. -/
def ofVerdict (verdict : Snapshot → Verdict) : Evaluator where
  kept := []
  evaluate kept s := (verdict s, kept)

variable {verdict : Snapshot → Verdict}

@[simp] theorem ask_ofVerdict (s : Snapshot) :
    (ofVerdict verdict).ask s = (verdict s, ofVerdict verdict) := rfl

theorem ask_eq_ofVerdict_iff {e : Evaluator} {s : Snapshot} :
    (e.ask s).2 = ofVerdict verdict ↔ e = ofVerdict verdict := by
  constructor
  · intro h
    obtain ⟨kept, evaluate⟩ := e
    obtain ⟨hkept, rfl⟩ := Evaluator.mk.inj h
    obtain rfl : kept = [] := hkept
    rfl
  · rintro rfl
    rfl

end Evaluator

structure Breakpoints where
  addresses : List Word
  deriving DecidableEq, Repr

namespace Breakpoints

def empty : Breakpoints := ⟨[]⟩

def contains (b : Breakpoints) (address : Word) : Bool :=
  b.addresses.contains address

def add (b : Breakpoints) (address : Word) : Breakpoints :=
  if b.contains address then b else ⟨address :: b.addresses⟩

def remove (b : Breakpoints) (address : Word) : Breakpoints :=
  ⟨b.addresses.filter (· != address)⟩

/-- The hit at the snapshot, if its address is in the set. The value is the opcode. -/
def hit? (b : Breakpoints) (s : Snapshot) : Option Hit :=
  if b.contains s.pc then
    some ⟨"PC == $" ++ Hex.ofWord s.pc, s.pc, Byte.toWord s.opcode⟩
  else none

def evaluator (b : Breakpoints) : Evaluator :=
  .ofVerdict fun s => ⟨b.hit? s, none⟩

@[simp] theorem contains_add (b : Breakpoints) (address other : Word) :
    (b.add address).contains other = (other == address || b.contains other) := by
  unfold add
  split
  case isTrue h =>
    by_cases ho : other = address
    · simp [ho, h]
    · simp [ho]
  case isFalse => rfl

@[simp] theorem contains_remove (b : Breakpoints) (address other : Word) :
    (b.remove address).contains other = (other != address && b.contains other) := by
  simp only [contains, remove]
  rw [Bool.eq_iff_iff]
  simp [and_comm]

end Breakpoints

inductive Quantity where
  | a | x | y | sp | status | opcode | pc
  | byteAt (address : Word)
  | wordAt (address : Word)
  deriving DecidableEq, Repr

namespace Quantity

def value (s : Snapshot) : Quantity → Word
  | a => Byte.toWord s.a
  | x => Byte.toWord s.x
  | y => Byte.toWord s.y
  | sp => Byte.toWord s.sp
  | status => Byte.toWord s.status
  | opcode => Byte.toWord s.opcode
  | pc => s.pc
  | byteAt address => Byte.toWord (s.read address)
  | wordAt address => s.readWord address

end Quantity

/-- What a watch does when its quantity has the value. -/
inductive WatchResponse where
  | pause (description : String)
  /-- Acts, if there is something to do, and lets the program go on. -/
  | act (signal : Option Signal)

structure Watch where
  quantity : Quantity
  value : Word
  response : WatchResponse

namespace Watch

/-- Responds whenever the quantity has the value. The value of a hit is the value seen. -/
def evaluator (w : Watch) : Evaluator := .ofVerdict fun s =>
  let seen := w.quantity.value s
  if seen = w.value then
    match w.response with
    | .pause description => ⟨some ⟨description, s.pc, seen⟩, none⟩
    | .act signal => ⟨none, signal⟩
  else .pass

end Watch

end Nmos6502
