import Nmos6502.Bus.Basic

namespace Nmos6502.Bus

universe u

/-- Puts a byte before the runs of the addresses above it. -/
def extendRuns (address : Word) (value : Byte) (runs : List (Word × List Byte)) :
    List (Word × List Byte) :=
  if value = 0 then runs
  else match runs with
    | (start, bytes) :: others =>
      if start = address + 1 then (address, value :: bytes) :: others
      else (address, [value]) :: runs
    | [] => [(address, [value])]

/-- The maximal runs of non-zero bytes from `first` to `last`, in ascending order. -/
def nonzeroRuns {β : Type u} [Bus β] (bus : β) (first last : Word) : List (Word × List Byte) :=
  (List.range (last.toNat + 1 - first.toNat)).foldr
    (fun i runs =>
      let address := first + BitVec.ofNat 16 i
      extendRuns address (read bus address) runs) []

end Nmos6502.Bus
