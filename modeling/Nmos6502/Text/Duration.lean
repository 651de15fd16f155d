
namespace Nmos6502.Duration

/-- The decimals of `rest` thousandths, millionths and so on, given how many places there are,
without the zeros at the end. -/
def decimals (places rest : Nat) : List Char :=
  let digits := Nat.toDigits 10 rest
  let padded := List.replicate (places - digits.length) '0' ++ digits
  (padded.reverse.dropWhile (· == '0')).reverse

/-- A unit of time: how many nanoseconds it lasts and how many decimals that leaves to a number of
it. -/
structure Scale where
  nanos : Nat
  places : Nat
  name : String

/-- The units above the nanosecond, the largest first. -/
def scales : List Scale :=
  [⟨1000000000, 9, "s"⟩, ⟨1000000, 6, "ms"⟩, ⟨1000, 3, "µs"⟩]

/-- A span of `nanos` nanoseconds in a given unit. -/
def inScale (scale : Scale) (nanos : Nat) : String :=
  let fraction := decimals scale.places (nanos % scale.nanos)
  let whole := toString (nanos / scale.nanos)
  if fraction.isEmpty then whole ++ scale.name
  else whole ++ "." ++ String.ofList fraction ++ scale.name

def text (nanos : Nat) : String :=
  match scales.find? fun scale => decide (scale.nanos ≤ nanos) with
  | some scale => inScale scale nanos
  | none => toString nanos ++ "ns"

end Nmos6502.Duration
