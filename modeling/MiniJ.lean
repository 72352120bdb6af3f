import MiniJ.Arena
import MiniJ.Arena.Flatten
import MiniJ.Arena.Outline
import MiniJ.Assembly.File
import MiniJ.Assembly.Instruction
import MiniJ.Assembly.Register
import MiniJ.Compilation
import MiniJ.Diagnostic
import MiniJ.Fault
import MiniJ.Host.CommandLine
import MiniJ.Host.FileTree
import MiniJ.Host.Path
import MiniJ.Host.Session
import MiniJ.Layout
import MiniJ.Lowering.Error
import MiniJ.Lowering.Expression
import MiniJ.Lowering.Frame
import MiniJ.Lowering.Gen
import MiniJ.Lowering.Program
import MiniJ.Lowering.Statement
import MiniJ.Main
import MiniJ.Operator
import MiniJ.ParseError
import MiniJ.Proofs.Accepted
import MiniJ.Proofs.Arena.Coverage
import MiniJ.Proofs.Arena.Numbering
import MiniJ.Proofs.Arena.Tree
import MiniJ.Proofs.Binding.Acceptance
import MiniJ.Proofs.Binding.Body
import MiniJ.Proofs.Binding.Members
import MiniJ.Proofs.Binding.Run
import MiniJ.Proofs.Binding.Scoping
import MiniJ.Proofs.Binding.Sound
import MiniJ.Proofs.Binding.Table
import MiniJ.Proofs.Binding.Verdict
import MiniJ.Proofs.Outcome
import MiniJ.Proofs.Semantic.Info
import MiniJ.Proofs.Symbol.Meaning
import MiniJ.Proofs.Symbol.Table
import MiniJ.Proofs.Tree.Inversion
import MiniJ.Proofs.Tree.Parsing
import MiniJ.Proofs.Tree.Printing
import MiniJ.Proofs.Tree.Roundtrip
import MiniJ.Proofs.Tree.Shape
import MiniJ.Proofs.Typing.Judgement
import MiniJ.Proofs.Typing.Resolution
import MiniJ.Proofs.Typing.Run
import MiniJ.Proofs.Typing.Sound
import MiniJ.Semantic.Binding
import MiniJ.Semantic.Error
import MiniJ.Semantic.Info
import MiniJ.Semantic.Typing
import MiniJ.Source.File
import MiniJ.Source.Span
import MiniJ.Symbol.Builtin
import MiniJ.Symbol.Table
import MiniJ.Text.Decode
import MiniJ.Text.Quoted
import MiniJ.Text.Split
import MiniJ.Text.Unprintable
import MiniJ.Token
import MiniJ.Token.Lexer
import MiniJ.Tree
import MiniJ.Tree.Parser
import MiniJ.Ty
import MiniJ.Proofs.Arena.Depth
import MiniJ.Proofs.Assembly.Register
import MiniJ.Proofs.Layout.Size
import MiniJ.Proofs.Layout.Storage
import MiniJ.Proofs.Lowering.Body
import MiniJ.Proofs.Lowering.Call
import MiniJ.Proofs.Lowering.Drift
import MiniJ.Proofs.Lowering.Generation
import MiniJ.Proofs.Lowering.RegisterDiscipline
import MiniJ.Proofs.Lowering.Slots
import MiniJ.Proofs.Lowering.Alignment
import MiniJ.Proofs.Typing.Annotations
import MiniJ.Proofs.Layout.Path
import MiniJ.Proofs.Layout.Founded
import MiniJ.Proofs.Layout.Cells
import MiniJ.Proofs.Semantics.Execution
import MiniJ.Proofs.Token.Scanning
import MiniJ.Proofs.Lowering.Symbols
import MiniJ.Proofs.Host.Outputs
import MiniJ.Proofs.Host.FailFast
import MiniJ.Proofs.Binding.Registry
import MiniJ.Proofs.Typing.Standing
import MiniJ.Proofs.Typing.Overload
import MiniJ.Proofs.Lowering.Evaluation
import MiniJ.Proofs.Lowering.Transfers
import MiniJ.Proofs.Lowering.Records
import MiniJ.Proofs.Lowering.Simulation
import MiniJ.Proofs.Arena.Addition
import MiniJ.Proofs.Arena.Nesting
import MiniJ.Proofs.Layout.Limit
import MiniJ.Proofs.Lowering.Limits
import MiniJ.Proofs.Lowering.Bodies
import MiniJ.Proofs.Lowering.Prologue
import MiniJ.Proofs.Lowering.RecordArguments
import MiniJ.Proofs.Assembly.Texts
import MiniJ.Proofs.Binding.Invariant
import MiniJ.Proofs.Binding.Stubs
import MiniJ.Proofs.Lowering.Exhaustion
import MiniJ.Proofs.Lowering.Tandem
import MiniJ.Proofs.Source.Packing
import MiniJ.Proofs.Source.Position
import MiniJ.Proofs.Symbol.Scoping
import MiniJ.Proofs.Lowering.DeadBranches
import MiniJ.Proofs.Lowering.Reorder
