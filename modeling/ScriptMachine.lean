import ScriptMachine.Assembler.Basic
import ScriptMachine.Assembler.Pool
import ScriptMachine.Code.Block
import ScriptMachine.Code.Instruction
import ScriptMachine.Code.Listing
import ScriptMachine.Code.Opcode
import ScriptMachine.Config.Basic
import ScriptMachine.Config.Document
import ScriptMachine.Dict
import ScriptMachine.Fault
import ScriptMachine.Heap.Basic
import ScriptMachine.Heap.Copy
import ScriptMachine.Heap.Equal
import ScriptMachine.Heap.Inspect
import ScriptMachine.Interpreter
import ScriptMachine.Json.Basic
import ScriptMachine.Json.Parse
import ScriptMachine.Json.Print
import ScriptMachine.Limits
import ScriptMachine.Log.Event
import ScriptMachine.Log.Level
import ScriptMachine.Machine.Action
import ScriptMachine.Machine.Basic
import ScriptMachine.Machine.Execute
import ScriptMachine.Machine.Frame
import ScriptMachine.Number.Decimal
import ScriptMachine.Number.Double
import ScriptMachine.Operator.Apply
import ScriptMachine.Operator.Basic
import ScriptMachine.Prelude
import ScriptMachine.Proofs.Assembler.Accounting
import ScriptMachine.Proofs.Assembler.Build
import ScriptMachine.Proofs.Assembler.Calls
import ScriptMachine.Proofs.Assembler.Discipline
import ScriptMachine.Proofs.Assembler.Draft
import ScriptMachine.Proofs.Assembler.Filing
import ScriptMachine.Proofs.Assembler.Growth
import ScriptMachine.Proofs.Assembler.Heights
import ScriptMachine.Proofs.Assembler.Tables
import ScriptMachine.Proofs.Code.Coherent
import ScriptMachine.Proofs.Code.Decode
import ScriptMachine.Proofs.Code.Layout
import ScriptMachine.Proofs.Code.Legible
import ScriptMachine.Proofs.Code.Listing
import ScriptMachine.Proofs.Code.Operands
import ScriptMachine.Proofs.Code.Tiling
import ScriptMachine.Proofs.Config.RoundTrip
import ScriptMachine.Proofs.Dict
import ScriptMachine.Proofs.Expression.Basic
import ScriptMachine.Proofs.Expression.Code
import ScriptMachine.Proofs.Expression.Correctness
import ScriptMachine.Proofs.Expression.Operands
import ScriptMachine.Proofs.Heap.Access
import ScriptMachine.Proofs.Heap.Concatenation
import ScriptMachine.Proofs.Heap.Copy
import ScriptMachine.Proofs.Heap.Cycles
import ScriptMachine.Proofs.Heap.Growth
import ScriptMachine.Proofs.Heap.Independence
import ScriptMachine.Proofs.Heap.Likeness
import ScriptMachine.Proofs.Heap.Nesting
import ScriptMachine.Proofs.Interpreter.Captured
import ScriptMachine.Proofs.Json.Grammar
import ScriptMachine.Proofs.Json.Writing
import ScriptMachine.Proofs.Machine.Access
import ScriptMachine.Proofs.Machine.Activation
import ScriptMachine.Proofs.Machine.Alignment
import ScriptMachine.Proofs.Machine.Attempt
import ScriptMachine.Proofs.Machine.Backtrace
import ScriptMachine.Proofs.Machine.Bounds
import ScriptMachine.Proofs.Machine.Bracket
import ScriptMachine.Proofs.Machine.Calling
import ScriptMachine.Proofs.Machine.CodeTable
import ScriptMachine.Proofs.Machine.Constants
import ScriptMachine.Proofs.Machine.Control
import ScriptMachine.Proofs.Machine.Delivery
import ScriptMachine.Proofs.Machine.Depth
import ScriptMachine.Proofs.Machine.Effect
import ScriptMachine.Proofs.Machine.Exchange
import ScriptMachine.Proofs.Machine.Grounded
import ScriptMachine.Proofs.Machine.History
import ScriptMachine.Proofs.Machine.Invariant
import ScriptMachine.Proofs.Machine.Lexical
import ScriptMachine.Proofs.Machine.Listed
import ScriptMachine.Proofs.Machine.Placement
import ScriptMachine.Proofs.Machine.Printing
import ScriptMachine.Proofs.Machine.Raised
import ScriptMachine.Proofs.Machine.Resizing
import ScriptMachine.Proofs.Machine.Restore
import ScriptMachine.Proofs.Machine.Run
import ScriptMachine.Proofs.Machine.ScopeHeap
import ScriptMachine.Proofs.Machine.StoreEffect
import ScriptMachine.Proofs.Machine.StraightLine
import ScriptMachine.Proofs.Machine.Transparency
import ScriptMachine.Proofs.Machine.Unread
import ScriptMachine.Proofs.Machine.Within
import ScriptMachine.Proofs.Operator.Faultless
import ScriptMachine.Proofs.Operator.Integers
import ScriptMachine.Proofs.Operator.Kinds
import ScriptMachine.Proofs.Rendering
import ScriptMachine.Proofs.Scope.Growth
import ScriptMachine.Proofs.Scope.Mutation
import ScriptMachine.Proofs.Scope.Rendering
import ScriptMachine.Proofs.Scope.Resolution
import ScriptMachine.Proofs.Sequence
import ScriptMachine.Report
import ScriptMachine.Scope.Basic
import ScriptMachine.Scope.Dump
import ScriptMachine.Stack
import ScriptMachine.Store
import ScriptMachine.Template
import ScriptMachine.Text.Column
import ScriptMachine.Text.Glyph
import ScriptMachine.Text.Quoted
import ScriptMachine.Value
import ScriptMachine.Proofs.Machine.Host
