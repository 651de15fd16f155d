import Nmos6502.Word

namespace Nmos6502.Hex

def digit (n : Nat) : Char :=
  if n < 10 then Char.ofNat (48 + n) else Char.ofNat (55 + n)

def fixed : (width : Nat) → (n : Nat) → List Char
  | 0, _ => []
  | width + 1, n => fixed width (n / 16) ++ [digit (n % 16)]

def ofByte (b : Byte) : String :=
  String.ofList (fixed 2 b.toNat)

def ofWord (w : Word) : String :=
  String.ofList (fixed 4 w.toNat)

/-- As many digits as the number needs, at least one. -/
def shortest (n : Nat) : String :=
  String.ofList ((Nat.toDigits 16 n).map Char.toUpper)

def atLeast (width n : Nat) : String :=
  if (Nat.toDigits 16 n).length ≤ width then String.ofList (fixed width n) else shortest n

@[simp] theorem length_fixed (width n : Nat) : (fixed width n).length = width := by
  induction width generalizing n with
  | zero => rfl
  | succ width ih => simp [fixed, ih]

end Nmos6502.Hex
