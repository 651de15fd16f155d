import Nmos6502.Bus.Flat
import Nmos6502.Bus.Mapped

namespace Nmos6502

inductive Board where
  | flat (memory : FlatMemory)
  | mapped (memory : MappedMemory)

namespace Board

instance : Bus Board where
  read
    | .flat memory, address => Bus.read memory address
    | .mapped memory, address => Bus.read memory address
  write
    | .flat memory, address, value => .flat (Bus.write memory address value)
    | .mapped memory, address, value => .mapped (Bus.write memory address value)
  signal
    | .flat memory, address, value => Bus.signal memory address value
    | .mapped memory, address, value => Bus.signal memory address value

end Board

end Nmos6502
