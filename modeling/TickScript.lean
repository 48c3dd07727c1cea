import TickScript.CodeBuffer
import TickScript.Codegen.Basic
import TickScript.Codegen.Expr
import TickScript.Codegen.Stmt
import TickScript.Command.Compile
import TickScript.Command.Flag
import TickScript.Command.Outcome
import TickScript.Command.Run
import TickScript.Diagnostic
import TickScript.Disassembly
import TickScript.Editor.Analysis
import TickScript.Editor.Introduction
import TickScript.Editor.Ipv6
import TickScript.Editor.Json
import TickScript.Editor.Message
import TickScript.Editor.References
import TickScript.Editor.Server
import TickScript.Editor.Shape
import TickScript.Editor.Uri
import TickScript.Expr.Basic
import TickScript.Expr.Literal
import TickScript.Expr.Parser
import TickScript.FileStore
import TickScript.FileTree
import TickScript.Instr
import TickScript.Listing.Assembler
import TickScript.Listing.Basic
import TickScript.Listing.Lexer
import TickScript.Listing.Parser
import TickScript.Listing.Printer
import TickScript.Machine.Arith
import TickScript.Machine.Basic
import TickScript.Machine.Host
import TickScript.Machine.KillCode
import TickScript.Machine.LoadFile
import TickScript.Machine.OperandStack
import TickScript.Machine.Program
import TickScript.Machine.Run
import TickScript.Machine.Step
import TickScript.Macro
import TickScript.Main
import TickScript.Name
import TickScript.Number.Binary
import TickScript.Number.Decimal
import TickScript.Number.Integer
import TickScript.Opcode
import TickScript.Path
import TickScript.Project.Dependency
import TickScript.Project.Error
import TickScript.Project.Lock
import TickScript.Project.Manifest
import TickScript.Project.SearchPath
import TickScript.Proofs.Codegen.Expr
import TickScript.Proofs.Codegen.Layout
import TickScript.Proofs.Codegen.Stmt
import TickScript.Proofs.Codegen.WellFormed
import TickScript.Proofs.Faithful
import TickScript.Proofs.Instr
import TickScript.Proofs.Machine.Act
import TickScript.Proofs.Machine.Exec
import TickScript.Proofs.Machine.Totality
import TickScript.Proofs.Name
import TickScript.Proofs.OperandStack
import TickScript.Proofs.Reporting
import TickScript.Proofs.Syntax
import TickScript.Proofs.Table
import TickScript.Proofs.Token
import TickScript.Proofs.Unit
import TickScript.Proofs.Value
import TickScript.Proofs.Word
import TickScript.Script.Basic
import TickScript.Script.Binary
import TickScript.Script.Cbor
import TickScript.Script.Exports
import TickScript.Stmt.Basic
import TickScript.Stmt.Parser
import TickScript.Symbol
import TickScript.Table
import TickScript.Text.Basic
import TickScript.Text.Printable
import TickScript.Text.Quoted
import TickScript.Text.Utf8
import TickScript.Token.Basic
import TickScript.Token.Scanner
import TickScript.Toml.Basic
import TickScript.Toml.Draft
import TickScript.Toml.Fields
import TickScript.Toml.Moment
import TickScript.Toml.Parser
import TickScript.Unit
import TickScript.Value
import TickScript.Proofs.Codegen.Follows
import TickScript.Proofs.Codegen.Simulation
import TickScript.Proofs.Session
import TickScript.Proofs.Codegen.Calls
import TickScript.Proofs.Refinement
import TickScript.Proofs.Script.Cbor
import TickScript.Proofs.Script.Exports
import TickScript.Proofs.Script.Binary
import TickScript.Proofs.Expr.Grammar
import TickScript.Proofs.Expr.Parser
import TickScript.Proofs.Stmt.Grammar
import TickScript.Proofs.Stmt.Reading
import TickScript.Proofs.Stmt.Rendering
import TickScript.Proofs.Stmt.Parser
import TickScript.Proofs.Strictness
import TickScript.Proofs.Machine.Slicing
import TickScript.Proofs.Path
import TickScript.Proofs.Inclusion
import TickScript.Proofs.Codegen.Names
import TickScript.Proofs.Codegen.Operands
import TickScript.Proofs.Consistency
import TickScript.Proofs.Machine.Outcome
import TickScript.Proofs.Machine.Agreement
import TickScript.Proofs.Machine.Lifetime
import TickScript.Proofs.Machine.Globals
import TickScript.Proofs.Machine.Killed
import TickScript.Proofs.Project.Resolution
import TickScript.Proofs.Project.LoadOrder
import TickScript.Proofs.Project.Lock
import TickScript.Proofs.Disassembly
import TickScript.Proofs.Editor.Delivery
import TickScript.Proofs.Expr.Termination
import TickScript.Proofs.Stmt.Termination
import TickScript.Proofs.Termination
import TickScript.Proofs.Listing.Number
import TickScript.Proofs.Listing.Lexer
import TickScript.Proofs.Listing.Parser
import TickScript.Proofs.Listing.Printer
import TickScript.Proofs.Listing.Assembler
import TickScript.Proofs.Listing.RoundTrip
import TickScript.Proofs.Listing.Labels
import TickScript.Proofs.Listing.Numeral
import TickScript.Proofs.Listing.Parsed
import TickScript.Proofs.Listing.Operands
import TickScript.Proofs.Script.Bounds
import TickScript.Proofs.Script.Truncation
import TickScript.Proofs.Literal
import TickScript.Proofs.Locals
import TickScript.Proofs.Machine.Straight
import TickScript.Proofs.Codegen.Literal
import TickScript.Proofs.Codegen.Lifetimes
import TickScript.Proofs.Codegen.Scopes
import TickScript.Proofs.Machine.Frames
import TickScript.Proofs.Machine.Arith
import TickScript.Proofs.Machine.Stacking
import TickScript.Proofs.CodeBuffer
import TickScript.Proofs.Machine.Callers
import TickScript.Proofs.Machine.Objects
import TickScript.Proofs.Token.Places
import TickScript.Proofs.Token.Comments
import TickScript.Proofs.Token.Signs
import TickScript.Proofs.Token.Writing
import TickScript.Proofs.Shadowing
import TickScript.Proofs.Conversion
import TickScript.Proofs.Token.Lines
import TickScript.Proofs.Token.Runs
import TickScript.Proofs.Editor.References
import TickScript.Proofs.Area
import TickScript.Proofs.Expr.Area
import TickScript.Proofs.Stmt.Area
import TickScript.Proofs.Codegen.Area
import TickScript.Proofs.Positions
import TickScript.Proofs.Text.Digits
import TickScript.Proofs.Text.Runes
import TickScript.Proofs.Text.Quoted
import TickScript.Proofs.Number.Rounding
import TickScript.Proofs.Number.Single
import TickScript.Proofs.Number.Integer
import TickScript.Proofs.Number.DecimalText
import TickScript.Proofs.Number.Rendered
import TickScript.Proofs.Listing.Literals
import TickScript.Proofs.InitialValue
import TickScript.Proofs.Listing.Globals
import TickScript.Proofs.Listing.Compiled
