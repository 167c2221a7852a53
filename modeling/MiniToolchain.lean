import MiniToolchain.Assembler.Agreement
import MiniToolchain.Assembler.Alignment
import MiniToolchain.Assembler.Assembler
import MiniToolchain.Assembler.Bindings
import MiniToolchain.Assembler.Definitions
import MiniToolchain.Assembler.Emit
import MiniToolchain.Assembler.Encoding
import MiniToolchain.Assembler.Layout
import MiniToolchain.Assembler.Linked
import MiniToolchain.Assembler.Links
import MiniToolchain.Assembler.Loaded
import MiniToolchain.Assembler.Mapping
import MiniToolchain.Assembler.Objects
import MiniToolchain.Assembler.Passes
import MiniToolchain.Assembler.Pipeline
import MiniToolchain.Assembler.Places
import MiniToolchain.Assembler.Reordered
import MiniToolchain.Assembler.RoundTrip
import MiniToolchain.Assembler.Sema
import MiniToolchain.Assembler.Spec
import MiniToolchain.Assembler.Standalone
import MiniToolchain.Assembler.Success
import MiniToolchain.Assembler.SymbolTable
import MiniToolchain.Assembler.Throws
import MiniToolchain.Ast.Ast
import MiniToolchain.Common.Align
import MiniToolchain.Common.Binary
import MiniToolchain.Common.ByteOrder
import MiniToolchain.Common.Checksum
import MiniToolchain.Common.Container
import MiniToolchain.Common.Corruption
import MiniToolchain.Common.Interning
import MiniToolchain.Common.Ranged
import MiniToolchain.Common.Reseal
import MiniToolchain.Common.Types
import MiniToolchain.Debugger.Breakpoints
import MiniToolchain.Debugger.Calls
import MiniToolchain.Debugger.Console
import MiniToolchain.Debugger.Debugger
import MiniToolchain.Debugger.Frames
import MiniToolchain.Debugger.Watchpoints
import MiniToolchain.Diagnostics.Diagnostic
import MiniToolchain.Diagnostics.Rendering
import MiniToolchain.Disassembler.Disassembler
import MiniToolchain.Disassembler.Listing
import MiniToolchain.Disassembler.RoundTrip
import MiniToolchain.Executable.Corruption
import MiniToolchain.Executable.Executable
import MiniToolchain.Executable.ExecutableIo
import MiniToolchain.Executable.Ranged
import MiniToolchain.Executable.Reserved
import MiniToolchain.Ir.Bss
import MiniToolchain.Ir.Instructions
import MiniToolchain.Ir.Ir
import MiniToolchain.Ir.Layout
import MiniToolchain.Ir.Lower
import MiniToolchain.Isa.Arithmetic
import MiniToolchain.Isa.Encoding
import MiniToolchain.Isa.Opcode
import MiniToolchain.Isa.Printing
import MiniToolchain.Isa.Registers
import MiniToolchain.Isa.Semantics
import MiniToolchain.Lexer.Integers
import MiniToolchain.Lexer.Lexer
import MiniToolchain.Lexer.Lines
import MiniToolchain.Lexer.Scanning
import MiniToolchain.Lexer.Token
import MiniToolchain.Lib.Bounds
import MiniToolchain.Lib.CallStack
import MiniToolchain.Lib.Checked
import MiniToolchain.Lib.Chunks
import MiniToolchain.Lib.Crc
import MiniToolchain.Lib.Emission
import MiniToolchain.Lib.Frame
import MiniToolchain.Lib.Iteration
import MiniToolchain.Lib.Json
import MiniToolchain.Lib.JsonString
import MiniToolchain.Lib.LittleEndian
import MiniToolchain.Lib.Liveness
import MiniToolchain.Lib.RecordTable
import MiniToolchain.Lib.Simulation
import MiniToolchain.Lib.UrlEncoded
import MiniToolchain.Lib.Utf8
import MiniToolchain.Lib.Window
import MiniToolchain.Linker.Conflicts
import MiniToolchain.Linker.Entry
import MiniToolchain.Linker.Fields
import MiniToolchain.Linker.Fits
import MiniToolchain.Linker.Image
import MiniToolchain.Linker.Lines
import MiniToolchain.Linker.Linker
import MiniToolchain.Linker.Load
import MiniToolchain.Linker.Merge
import MiniToolchain.Linker.Order
import MiniToolchain.Linker.Owner
import MiniToolchain.Linker.Patch
import MiniToolchain.Linker.Relocated
import MiniToolchain.Linker.Resolution
import MiniToolchain.Linker.Resolve
import MiniToolchain.Linker.Safety
import MiniToolchain.Linker.Single
import MiniToolchain.Object.Accepted
import MiniToolchain.Object.Corruption
import MiniToolchain.Object.InPlace
import MiniToolchain.Object.Object
import MiniToolchain.Object.ObjectIo
import MiniToolchain.Object.Ranged
import MiniToolchain.Object.Relocation
import MiniToolchain.Object.Reserved
import MiniToolchain.Optimizer.Accounting
import MiniToolchain.Optimizer.Anchors
import MiniToolchain.Optimizer.Branches
import MiniToolchain.Optimizer.ControlFlow
import MiniToolchain.Optimizer.Correctness
import MiniToolchain.Optimizer.DeadStores
import MiniToolchain.Optimizer.Edits
import MiniToolchain.Optimizer.EndToEnd
import MiniToolchain.Optimizer.Equivalence
import MiniToolchain.Optimizer.FixedPoint
import MiniToolchain.Optimizer.FlagLiveness
import MiniToolchain.Optimizer.FlagNeeds
import MiniToolchain.Optimizer.Folding
import MiniToolchain.Optimizer.Graph
import MiniToolchain.Optimizer.Images
import MiniToolchain.Optimizer.Instructions
import MiniToolchain.Optimizer.Jumps
import MiniToolchain.Optimizer.LocalPasses
import MiniToolchain.Optimizer.Machine
import MiniToolchain.Optimizer.Matching
import MiniToolchain.Optimizer.Meaning
import MiniToolchain.Optimizer.PassSpec
import MiniToolchain.Optimizer.Passes
import MiniToolchain.Optimizer.Reassembled
import MiniToolchain.Optimizer.Relinked
import MiniToolchain.Optimizer.Runs
import MiniToolchain.Optimizer.StackPairs
import MiniToolchain.Optimizer.Survivors
import MiniToolchain.Optimizer.Weight
import MiniToolchain.Parser.Derivation
import MiniToolchain.Parser.Grammar
import MiniToolchain.Parser.Parser
import MiniToolchain.Parser.Places
import MiniToolchain.Parser.Recovery
import MiniToolchain.Playground.Api
import MiniToolchain.Playground.Http
import MiniToolchain.Playground.Json
import MiniToolchain.Playground.Report
import MiniToolchain.Playground.Response
import MiniToolchain.Playground.Run
import MiniToolchain.Playground.Session
import MiniToolchain.Vm.Agree
import MiniToolchain.Vm.Differ
import MiniToolchain.Vm.Embedded
import MiniToolchain.Vm.Faults
import MiniToolchain.Vm.Heap
import MiniToolchain.Vm.InPlace
import MiniToolchain.Vm.Invariants
import MiniToolchain.Vm.Loading
import MiniToolchain.Vm.Memory
import MiniToolchain.Vm.Monitored
import MiniToolchain.Vm.ReadWrite
import MiniToolchain.Vm.Step
import MiniToolchain.Vm.Syscall
import MiniToolchain.Vm.Twins
import MiniToolchain.Vm.Vm
