import Nmos6502.Bus.Flat
import Nmos6502.Proofs.Gate.Record

namespace Nmos6502

universe u

variable {β : Type u}

/-- Two steps that no grant separates are worth one instruction. -/
example : (Engine.start (Machine.powerOn FlatMemory.zeroed) ⟨none, 0⟩).gateRecord
      ([.act .step, .act .step] ++ List.replicate 5 .move) =
    [.moved .step, .moved .step, .answered true, .executed] := by
  decide +kernel

end Nmos6502
