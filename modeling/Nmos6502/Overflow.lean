
namespace Nmos6502

inductive Overflow where
  | addition
  | negation
  deriving DecidableEq, Repr

namespace Overflow

def message : Overflow → String
  | addition => "attempt to add with overflow"
  | negation => "attempt to negate with overflow"

end Overflow

/-- The sum of two unsigned 32-bit numbers. -/
def addChecked (m n : Nat) : Except Overflow Nat :=
  if m + n < 0x100000000 then .ok (m + n) else .error .addition

/-- The opposite of a signed 32-bit number. Only the least number has none. -/
def negateChecked (n : Int) : Except Overflow Int :=
  if n = -0x80000000 then .error .negation else .ok (-n)

end Nmos6502
