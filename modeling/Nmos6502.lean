import Nmos6502.Bus.Basic
import Nmos6502.Bus.Board
import Nmos6502.Bus.Device
import Nmos6502.Bus.Flat
import Nmos6502.Bus.Mapped
import Nmos6502.Bus.Runs
import Nmos6502.Control.Audience
import Nmos6502.Control.Breakpoint
import Nmos6502.Control.Gate
import Nmos6502.Control.Lines
import Nmos6502.Control.Observer
import Nmos6502.Control.Signal
import Nmos6502.Cpu.Alu
import Nmos6502.Cpu.Basic
import Nmos6502.Cpu.Execute
import Nmos6502.Cpu.Interrupt
import Nmos6502.Cpu.Operand
import Nmos6502.Cpu.Status
import Nmos6502.Disassembly.Instruction
import Nmos6502.Disassembly.Text
import Nmos6502.Image
import Nmos6502.Isa.Mnemonic
import Nmos6502.Isa.Mode
import Nmos6502.Isa.Opcode
import Nmos6502.Label.Reference
import Nmos6502.Label.Resolve
import Nmos6502.Label.Table
import Nmos6502.Loader
import Nmos6502.Machine.Basic
import Nmos6502.Machine.Controller
import Nmos6502.Machine.Engine
import Nmos6502.Machine.Setup
import Nmos6502.Monitor.Basic
import Nmos6502.Monitor.Devices
import Nmos6502.Monitor.Program
import Nmos6502.Monitor.Wiring
import Nmos6502.Overflow
import Nmos6502.Proofs.Arithmetic.Number
import Nmos6502.Proofs.Arithmetic.Shift
import Nmos6502.Proofs.Arithmetic.Sum
import Nmos6502.Proofs.Assembly
import Nmos6502.Proofs.Bus.Ownership
import Nmos6502.Proofs.Bus.Plain
import Nmos6502.Proofs.Bus.Protection
import Nmos6502.Proofs.Bus.Recorded
import Nmos6502.Proofs.Bus.Watermark
import Nmos6502.Proofs.ControlFlow
import Nmos6502.Proofs.Cpu.Bodies
import Nmos6502.Proofs.Cpu.Decoding
import Nmos6502.Proofs.Cpu.Faults
import Nmos6502.Proofs.Cpu.Fields
import Nmos6502.Proofs.Cpu.Flags
import Nmos6502.Proofs.Cpu.Frame
import Nmos6502.Proofs.Cpu.Panel
import Nmos6502.Proofs.Cpu.Stable
import Nmos6502.Proofs.Cpu.Stack
import Nmos6502.Proofs.Cpu.Task
import Nmos6502.Proofs.Cpu.Transfer
import Nmos6502.Proofs.DecimalMode
import Nmos6502.Proofs.Disassembly.Text
import Nmos6502.Proofs.Disassembly.Tiling
import Nmos6502.Proofs.Effects
import Nmos6502.Proofs.Gate.Grants
import Nmos6502.Proofs.Gate.GrantState
import Nmos6502.Proofs.Gate.Record
import Nmos6502.Proofs.Gate.Resume
import Nmos6502.Proofs.Gate.Subscribers
import Nmos6502.Proofs.Image.Format
import Nmos6502.Proofs.Image.Reload
import Nmos6502.Proofs.Interchange
import Nmos6502.Proofs.Interrupt.Arbiter
import Nmos6502.Proofs.Interrupt.Arbitration
import Nmos6502.Proofs.Interrupt.History
import Nmos6502.Proofs.Interrupt.Mirror
import Nmos6502.Proofs.Interrupt.Record
import Nmos6502.Proofs.Interrupt.Return
import Nmos6502.Proofs.Isa.Families
import Nmos6502.Proofs.Label.Display
import Nmos6502.Proofs.Label.Grammar
import Nmos6502.Proofs.Label.Language
import Nmos6502.Proofs.Label.Scopes
import Nmos6502.Proofs.Loader.Branches
import Nmos6502.Proofs.Loader.Calls
import Nmos6502.Proofs.Loader.Chunks
import Nmos6502.Proofs.Loader.Fixup
import Nmos6502.Proofs.Loader.Halves
import Nmos6502.Proofs.Loader.Placeholders
import Nmos6502.Proofs.Loader.Quotes
import Nmos6502.Proofs.Loader.Record
import Nmos6502.Proofs.Loader.Relocation
import Nmos6502.Proofs.Loader.Resolution
import Nmos6502.Proofs.Loader.Scopes
import Nmos6502.Proofs.Loader.Transfer
import Nmos6502.Proofs.Machine.Perform
import Nmos6502.Proofs.Machine.Step
import Nmos6502.Proofs.Machine.Transfer
import Nmos6502.Proofs.Reset
import Nmos6502.Proofs.Run.Arrivals
import Nmos6502.Proofs.Run.Bisimulation
import Nmos6502.Proofs.Run.Breakpoints
import Nmos6502.Proofs.Run.Halts
import Nmos6502.Proofs.Run.Marks
import Nmos6502.Proofs.Run.Observation
import Nmos6502.Proofs.Run.Resumption
import Nmos6502.Proofs.Run.Schedule
import Nmos6502.Proofs.Run.Settled
import Nmos6502.Proofs.Run.Tracking
import Nmos6502.Proofs.Run.Transfer
import Nmos6502.Proofs.Run.Transparency
import Nmos6502.Proofs.Run.Unheard
import Nmos6502.Proofs.Run.Written
import Nmos6502.Proofs.Stack.Calls
import Nmos6502.Proofs.Stack.History
import Nmos6502.Proofs.Stack.Model
import Nmos6502.Proofs.Stack.Use
import Nmos6502.Proofs.Text.Hex
import Nmos6502.Proofs.Text.Numeral
import Nmos6502.Proofs.Writes
import Nmos6502.Sorted
import Nmos6502.Table
import Nmos6502.Text.Blank
import Nmos6502.Text.Duration
import Nmos6502.Text.Hex
import Nmos6502.Text.Numeral
import Nmos6502.Word
