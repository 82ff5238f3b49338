import MethodJit.Cbor.Item
import MethodJit.Cbor.Writer
import MethodJit.Code.Assembler
import MethodJit.Code.Cursor
import MethodJit.Code.Fault
import MethodJit.Code.Immediate
import MethodJit.Code.Instruction
import MethodJit.Code.Layout
import MethodJit.Code.Opcode
import MethodJit.CommandLine
import MethodJit.Compiler.BlockMap
import MethodJit.Compiler.Emitter
import MethodJit.Compiler.Entry
import MethodJit.Compiler.Generate
import MethodJit.Compiler.Instruction
import MethodJit.Double.Basic
import MethodJit.Double.Narrow
import MethodJit.Double.Printer
import MethodJit.Double.Reader
import MethodJit.Double.Shortest
import MethodJit.Engine
import MethodJit.Fault
import MethodJit.Frame
import MethodJit.Heap.Basic
import MethodJit.Heap.Call
import MethodJit.Heap.Comparison
import MethodJit.Heap.Conversion
import MethodJit.Heap.Literal
import MethodJit.Heap.Property
import MethodJit.Heap.Snapshot
import MethodJit.IR.Basic
import MethodJit.IR.Lower
import MethodJit.IR.Printer
import MethodJit.IR.Run
import MethodJit.IR.Verify
import MethodJit.Interpreter
import MethodJit.Log
import MethodJit.Main
import MethodJit.Method.Basic
import MethodJit.Method.Descriptor
import MethodJit.Proofs.Acceptance
import MethodJit.Proofs.Accounting
import MethodJit.Proofs.Activation
import MethodJit.Proofs.ArrayElements
import MethodJit.Proofs.Assembly
import MethodJit.Proofs.Binding
import MethodJit.Proofs.BlockMaps
import MethodJit.Proofs.BlockNumbers
import MethodJit.Proofs.Blocks
import MethodJit.Proofs.Bond
import MethodJit.Proofs.Boundaries
import MethodJit.Proofs.CallAccounts
import MethodJit.Proofs.Calls
import MethodJit.Proofs.Cascade
import MethodJit.Proofs.CircularArrays
import MethodJit.Proofs.Comparison
import MethodJit.Proofs.CompiledRuns
import MethodJit.Proofs.Continuation
import MethodJit.Proofs.Decoding
import MethodJit.Proofs.Defects
import MethodJit.Proofs.Deferral
import MethodJit.Proofs.Descriptors
import MethodJit.Proofs.Emission
import MethodJit.Proofs.Engines
import MethodJit.Proofs.Enumeration
import MethodJit.Proofs.Execution
import MethodJit.Proofs.FailedConstructions
import MethodJit.Proofs.Flow
import MethodJit.Proofs.ForeignFunctions
import MethodJit.Proofs.Frames
import MethodJit.Proofs.Functions
import MethodJit.Proofs.Immediate
import MethodJit.Proofs.Interpretation
import MethodJit.Proofs.Invocations
import MethodJit.Proofs.Items
import MethodJit.Proofs.Keeping
import MethodJit.Proofs.Lanes
import MethodJit.Proofs.Lockstep
import MethodJit.Proofs.Moves
import MethodJit.Proofs.Naming
import MethodJit.Proofs.Numbers
import MethodJit.Proofs.Outcome
import MethodJit.Proofs.Pending
import MethodJit.Proofs.Properties
import MethodJit.Proofs.PropertyLookup
import MethodJit.Proofs.PropertyOrder
import MethodJit.Proofs.PropertyWalk
import MethodJit.Proofs.Reading
import MethodJit.Proofs.ReadingHeaps
import MethodJit.Proofs.Renaming
import MethodJit.Proofs.Routines
import MethodJit.Proofs.Scan
import MethodJit.Proofs.Scoping
import MethodJit.Proofs.SelfComparison
import MethodJit.Proofs.Sides
import MethodJit.Proofs.Simulation
import MethodJit.Proofs.Sparing
import MethodJit.Proofs.Staging
import MethodJit.Proofs.Stations
import MethodJit.Proofs.Steps
import MethodJit.Proofs.Tallies
import MethodJit.Proofs.TaskCode
import MethodJit.Proofs.Tasks
import MethodJit.Proofs.TextRoutines
import MethodJit.Proofs.Texts
import MethodJit.Proofs.Totality
import MethodJit.Proofs.Translation
import MethodJit.Proofs.TypeSafety
import MethodJit.Proofs.Unwritten
import MethodJit.Proofs.WrittenItems
import MethodJit.Recovery
import MethodJit.Registry
import MethodJit.Routine.Context
import MethodJit.Routine.Helper
import MethodJit.Routine.Invoke
import MethodJit.Routine.Signature
import MethodJit.Routine.Value
import MethodJit.Settings
import MethodJit.Text.Blank
import MethodJit.Text.Hex
import MethodJit.Text.Printable
import MethodJit.Text.Quoted
import MethodJit.Toml.Basic
import MethodJit.Toml.Document
import MethodJit.Toml.Moment
import MethodJit.Toml.Number
import MethodJit.Toml.Reader
import MethodJit.Value
