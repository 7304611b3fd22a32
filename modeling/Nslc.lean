import Nslc.Common.Run
import Nslc.Common.Lines
import Nslc.Common.Comments
import Nslc.Common.Regions
import Nslc.Common.Variants
import Nslc.Common.Placeholders
import Nslc.Common.Nesting
import Nslc.Common.Bits
import Nslc.Common.Settle
import Nslc.Common.Interleave
import Nslc.Common.Descent
import Nslc.Common.Ending
import Nslc.Common.Answers
import Nslc.Common.Ensures
import Nslc.Common.Interning
import Nslc.Common.Separators
import Nslc.Common.Aligned
import Nslc.Common.Search
import Nslc.Common.Scales
import Nslc.Common.Subsequence
import Nslc.Common.Selection
import Nslc.Common.Brackets
import Nslc.Common.StableSort
import Nslc.Common.Sexp
import Nslc.Basic.Source
import Nslc.Basic.VirtualLocation
import Nslc.Basic.LineColumn
import Nslc.Basic.Diagnostic
import Nslc.Preprocess.Macro
import Nslc.Preprocess.Splice
import Nslc.Preprocess.Directive
import Nslc.Preprocess.Machine
import Nslc.Preprocess.Step
import Nslc.Preprocess.Reports
import Nslc.Preprocess.Conditional
import Nslc.Preprocess.Inert
import Nslc.Preprocess.Includes
import Nslc.Preprocess.LineMap
import Nslc.Preprocess.Cycles
import Nslc.Preprocess.Floats
import Nslc.Preprocess.Verbatim
import Nslc.Preprocess.LineCount
import Nslc.Preprocess.Kept
import Nslc.Preprocess.References
import Nslc.Preprocess.CommentPairs
import Nslc.Preprocess.Opacity
import Nslc.Preprocess.Names
import Nslc.Preprocess.Expander
import Nslc.Preprocess.Value
import Nslc.Preprocess.Evaluator
import Nslc.Preprocess.Arithmetic
import Nslc.Preprocess.Reading
import Nslc.Preprocess.Calculation
import Nslc.Preprocess.Chains
import Nslc.Preprocess.Unresolved
import Nslc.Preprocess.Rendering
import Nslc.Driver.Replay
import Nslc.Driver.Location
import Nslc.AST.Syntax
import Nslc.Sema.Walk
import Nslc.Sema.SymbolTable
import Nslc.Sema.Declared
import Nslc.Sema.Resolution
import Nslc.Sema.Scoping
import Nslc.Sema.Lexical
import Nslc.Sema.Types
import Nslc.Sema.TypeSystem
import Nslc.Sema.Checkers
import Nslc.Sema.Verdicts
import Nslc.Lex.Token
import Nslc.Lex.Lexer
import Nslc.Lex.Tiling
import Nslc.Lex.Numbers
import Nslc.Lex.Directives
import Nslc.Lex.Pieces
import Nslc.Driver.Markers
import Nslc.Preprocess.IncludeSites
import Nslc.Preprocess.FirstIncludes
import Nslc.Driver.FileNames
import Nslc.Driver.EmitTokens
import Nslc.Driver.IncludeNotes
import Nslc.Preprocess.Tails
import Nslc.Parse.Tokens
import Nslc.Parse.Expr
import Nslc.Parse.Ending
import Nslc.Parse.Precedence
import Nslc.Parse.Written
import Nslc.Parse.ReadBack
import Nslc.Parse.Print
import Nslc.AST.Printer
import Nslc.AST.Heads
import Nslc.AST.Roles
import Nslc.AST.Recast
import Nslc.AST.Dump
import Nslc.Parse.Decl
import Nslc.Parse.Stmt
import Nslc.Parse.Module
import Nslc.Parse.Recovery
import Nslc.Parse.Declared
import Nslc.Sema.Literals
import Nslc.Sema.Inference
import Nslc.Sema.Visited
import Nslc.Sema.Gotos
import Nslc.Sema.Slices
import Nslc.Sema.Targets
import Nslc.Sema.Returns
import Nslc.Dialect.Ops
import Nslc.Dialect.Circt
import Nslc.Dialect.Typing
import Nslc.Dialect.Structs
import Nslc.Lower.Module
import Nslc.Lower.ExprOps
import Nslc.Lower.Reference
import Nslc.Lower.Simulation
import Nslc.Lower.Guards
import Nslc.Lower.GuardedWrites
import Nslc.Lower.Acts
import Nslc.Lower.Progress
import Nslc.Lower.Order
import Nslc.Lower.Reorder
import Nslc.Lower.Visitor
import Nslc.Lower.Hints
import Nslc.Lower.Isolation
import Nslc.Lower.PerModule
import Nslc.Lower.Widths
import Nslc.Sema.Structs
import Nslc.Lower.ExpandGenerate
import Nslc.Lower.Splices
import Nslc.Lower.Literals
import Nslc.Lower.Unroll
import Nslc.Lower.Replicas
import Nslc.Lower.Loops
import Nslc.Lower.FSM
import Nslc.Lower.Machines
import Nslc.Lower.Hoisting
import Nslc.Lower.Variables
import Nslc.Lower.Visible
import Nslc.Lower.FreshNames
import Nslc.Lower.Sequence
import Nslc.Lower.Flow
import Nslc.Lower.Emission
import Nslc.Lower.Lockstep
import Nslc.Lower.Clean
import Nslc.Lower.InStep
import Nslc.Lower.Delivery
import Nslc.Lower.TypeSafety
import Nslc.Lower.Activity
import Nslc.Lower.Firing
import Nslc.LSP.Documents
import Nslc.LSP.Workers
import Nslc.LSP.Versions
import Nslc.LSP.Newest
import Nslc.LSP.Closing
import Nslc.LSP.Envelope
import Nslc.LSP.Folding
import Nslc.LSP.Folds
import Nslc.LSP.Server
import Nslc.LSP.Folders
import Nslc.LSP.Returning
import Nslc.LSP.Answers
import Nslc.LSP.PositionEncoding
import Nslc.LSP.JSONTransport
import Nslc.LSP.DocumentPosition
import Nslc.LSP.DiagnosticMapper
import Nslc.LSP.NslTU
import Nslc.Fmt.Diff
import Nslc.Fmt.Hunks
import Nslc.Fmt.Doc
import Nslc.Fmt.LayoutRenderer
import Nslc.Fmt.CSTBuilder
import Nslc.Fmt.DirectiveSplitter
import Nslc.Fmt.Format
