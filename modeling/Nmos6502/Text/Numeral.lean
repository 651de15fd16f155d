
namespace Nmos6502.Numeral

def InRange (n : Int) : Prop :=
  -0x80000000 ≤ n ∧ n < 0x80000000

instance (n : Int) : Decidable (InRange n) :=
  inferInstanceAs (Decidable (_ ∧ _))

def digit? (radix : Nat) (c : Char) : Option Nat :=
  let value :=
    if '0' ≤ c ∧ c ≤ '9' then c.toNat - 48
    else if 'a' ≤ c ∧ c ≤ 'z' then c.toNat - 87
    else if 'A' ≤ c ∧ c ≤ 'Z' then c.toNat - 55
    else radix
  if value < radix then some value else none

/-- The value of digits that follow a number already read. -/
def digits? (radix : Nat) : (soFar : Nat) → List Char → Option Nat
  | soFar, [] => some soFar
  | soFar, c :: cs => do
    let value ← digit? radix c
    digits? radix (soFar * radix + value) cs

/-- The value of an unsigned text of at least one digit. -/
def magnitude? (radix : Nat) (cs : List Char) : Option Nat :=
  if cs.isEmpty then none else digits? radix 0 cs

def read? (radix : Nat) (cs : List Char) : Option Int :=
  let value := match cs with
    | '+' :: rest => (magnitude? radix rest).map Int.ofNat
    | '-' :: rest => (magnitude? radix rest).map fun n => -Int.ofNat n
    | _ => (magnitude? radix cs).map Int.ofNat
  value.filter fun n => decide (InRange n)

theorem read?_inRange {radix : Nat} {cs : List Char} {n : Int} (h : read? radix cs = some n) :
    InRange n := by
  simp only [read?, Option.filter_eq_some_iff] at h
  exact of_decide_eq_true h.2

end Nmos6502.Numeral
