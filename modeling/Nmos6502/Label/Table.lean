import Nmos6502.Sorted
import Nmos6502.Text.Hex

namespace Nmos6502

inductive LabelError where
  | duplicate (name : String) (existing : Word)
  | malformed (text : String)
  deriving DecidableEq, Repr

namespace LabelError

def message : LabelError → String
  | duplicate name existing =>
    "label `" ++ name ++ "` already defined at $" ++ Hex.ofWord existing ++ " in this scope"
  | malformed text => "malformed label reference `" ++ text ++ "`"

end LabelError

/-- Names and their addresses, in alphabetical order. -/
abbrev Scope := List (String × Word)

/-- A stack of scopes, the innermost apart. -/
structure LabelTable where
  inner : Scope
  /-- The enclosing scopes, from the inside out. -/
  outer : List Scope
  deriving DecidableEq, Repr

namespace LabelTable

def empty : LabelTable := ⟨[], []⟩

def scopes (t : LabelTable) : List Scope :=
  t.inner :: t.outer

def depth (t : LabelTable) : Nat :=
  t.scopes.length

/-- The address of a name in the innermost scope that defines it. -/
def lookup (t : LabelTable) (name : String) : Option Word :=
  t.scopes.findSome? fun scope => scope.lookup name

/-- Gives a name to an address in the innermost scope. -/
def define (t : LabelTable) (name : String) (address : Word) : Except LabelError LabelTable :=
  match t.inner.lookup name with
  | some existing => .error (.duplicate name existing)
  | none => .ok { t with inner := Sorted.insert name address t.inner }

/-- A table with the given labels in one scope, if no name comes twice. -/
def ofList (labels : List (String × Word)) : Except LabelError LabelTable :=
  labels.foldlM (fun t entry => t.define entry.1 entry.2) empty

/-- A name by which an address can be called: from the innermost scope that offers one that is not
hidden, the first in alphabetical order. -/
def nameOf? (t : LabelTable) (address : Word) : Option String :=
  t.scopes.findSome? fun scope =>
    (scope.find? fun entry => entry.2 == address && t.lookup entry.1 == some address).map Prod.fst

def pushScope (t : LabelTable) : LabelTable :=
  ⟨[], t.scopes⟩

/-- Discards the innermost scope, unless it is the last one. -/
def popScope (t : LabelTable) : LabelTable :=
  match t.outer with
  | [] => t
  | scope :: rest => ⟨scope, rest⟩

/-- The labels that are not hidden, in alphabetical order. -/
def visible (t : LabelTable) : Scope :=
  t.scopes.foldr overlay []
where
  /-- Puts the labels of a scope over others. -/
  overlay (scope others : Scope) : Scope :=
    scope.foldl (fun labels entry => Sorted.insert entry.1 entry.2 labels) others

theorem one_le_depth (t : LabelTable) : 1 ≤ t.depth := by
  simp [depth, scopes]

end LabelTable

end Nmos6502
