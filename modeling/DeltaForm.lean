import DeltaForm.Binding
import DeltaForm.Command
import DeltaForm.Command.Arguments
import DeltaForm.Command.Paint
import DeltaForm.Diagnostic
import DeltaForm.Entries
import DeltaForm.Eval
import DeltaForm.Expr
import DeltaForm.Expr.Delta
import DeltaForm.Expr.Free
import DeltaForm.Expr.Parser
import DeltaForm.Expr.Printer
import DeltaForm.Json
import DeltaForm.Lifting
import DeltaForm.Lines
import DeltaForm.Main
import DeltaForm.Number.Base
import DeltaForm.Number.Decimal
import DeltaForm.Number.Layout
import DeltaForm.Number.Parts
import DeltaForm.Number.Word
import DeltaForm.Operator
import DeltaForm.Program
import DeltaForm.Proofs.Confinement.Confined
import DeltaForm.Proofs.Confinement.Grades
import DeltaForm.Proofs.Confinement.Programs
import DeltaForm.Proofs.Confinement.Soundness
import DeltaForm.Proofs.Eval
import DeltaForm.Proofs.Lexer.Literals
import DeltaForm.Proofs.Lexer.Reading
import DeltaForm.Proofs.Lifting.DeltaFree
import DeltaForm.Proofs.Lifting.Direct
import DeltaForm.Proofs.Lifting.Rules
import DeltaForm.Proofs.Lifting.Shape
import DeltaForm.Proofs.Lifting.Simulation
import DeltaForm.Proofs.Lifting.Waiting
import DeltaForm.Proofs.Lifting.Delivery
import DeltaForm.Proofs.Operators
import DeltaForm.Proofs.Parser.Grammar
import DeltaForm.Proofs.Parser.Places
import DeltaForm.Proofs.Parser.Precedence
import DeltaForm.Proofs.Parser.Progress
import DeltaForm.Proofs.Printer.RoundTrip
import DeltaForm.Proofs.Printer.Spelling
import DeltaForm.Proofs.Renaming.Runs
import DeltaForm.Proofs.Renaming.Values
import DeltaForm.Proofs.Run
import DeltaForm.Proofs.Scope.Closed
import DeltaForm.Proofs.Scope.Names
import DeltaForm.Proofs.Scope.Safety
import DeltaForm.Proofs.Scope.Strict
import DeltaForm.Proofs.Scope.Variables
import DeltaForm.Proofs.Tree
import DeltaForm.Run
import DeltaForm.Span
import DeltaForm.Symbols
import DeltaForm.Text.Blank
import DeltaForm.Text.Letter
import DeltaForm.Text.Quoted
import DeltaForm.Text.Ranges
import DeltaForm.Text.Units
import DeltaForm.Text.Visible
import DeltaForm.Token
import DeltaForm.Token.Lexer
import DeltaForm.Ty
import DeltaForm.Value
import DeltaForm.Value.Convert
import DeltaForm.Value.Display
import DeltaForm.Value.Equality
import DeltaForm.Value.Fault
import DeltaForm.Value.Operate
import DeltaForm.Value.Property
import DeltaForm.Proofs.Parser.Paths
import DeltaForm.Proofs.Parser.Brackets
import DeltaForm.Proofs.Parser.Backtracking
import DeltaForm.Proofs.Parser.Termination
import DeltaForm.Proofs.Lifting.Linear
import DeltaForm.Proofs.Lexer.Tiling
import DeltaForm.Proofs.Lexer.Spacing
import DeltaForm.Proofs.Parser.Reductions
import DeltaForm.Proofs.Parser.Numbering
import DeltaForm.Proofs.Parser.Spans
import DeltaForm.Proofs.Number.Parts
import DeltaForm.Proofs.Number.Nearest
import DeltaForm.Proofs.Number.Rounding
import DeltaForm.Proofs.Number.Decimal
import DeltaForm.Proofs.Lexer.Numbers
import DeltaForm.Proofs.Value.Keys
import DeltaForm.Proofs.Value.Equality
import DeltaForm.Proofs.Lines
import DeltaForm.Proofs.Number.Integers
import DeltaForm.Proofs.Number.Remainder
import DeltaForm.Proofs.Value.Bitwise
