import TreeScript.Command.Arguments
import TreeScript.Command.Excerpt
import TreeScript.Command.FileTree
import TreeScript.Command.Run
import TreeScript.Config.Basic
import TreeScript.Config.Setting
import TreeScript.Domain
import TreeScript.Error
import TreeScript.Expr.Basic
import TreeScript.Expr.Eval
import TreeScript.Expr.Reader
import TreeScript.Expr.Value
import TreeScript.Inspect
import TreeScript.Json.Basic
import TreeScript.Json.Printer
import TreeScript.KeyedList
import TreeScript.Main
import TreeScript.Node.Basic
import TreeScript.Node.Equality
import TreeScript.Node.Printer
import TreeScript.Node.Reader
import TreeScript.Number.Layout
import TreeScript.Number.Nearest
import TreeScript.Number.Numeral
import TreeScript.Number.Parts
import TreeScript.Number.Shortest
import TreeScript.Procedure.Basic
import TreeScript.Procedure.Engine
import TreeScript.Procedure.Keyword
import TreeScript.Procedure.Reader
import TreeScript.Procedure.Registry
import TreeScript.Procedure.Run
import TreeScript.Proofs.Acceptance
import TreeScript.Proofs.Appending
import TreeScript.Proofs.Assignments
import TreeScript.Proofs.Association
import TreeScript.Proofs.Blocks
import TreeScript.Proofs.Brackets
import TreeScript.Proofs.Callers
import TreeScript.Proofs.Calls
import TreeScript.Proofs.Capacity
import TreeScript.Proofs.Clauses
import TreeScript.Proofs.Content
import TreeScript.Proofs.Cursors
import TreeScript.Proofs.Delimiters
import TreeScript.Proofs.Derivations
import TreeScript.Proofs.Displacement
import TreeScript.Proofs.Documents
import TreeScript.Proofs.Domains
import TreeScript.Proofs.Effects
import TreeScript.Proofs.Embedding
import TreeScript.Proofs.Encoding
import TreeScript.Proofs.Equality
import TreeScript.Proofs.Evaluation
import TreeScript.Proofs.Excerpts
import TreeScript.Proofs.Expressions
import TreeScript.Proofs.Failures
import TreeScript.Proofs.Floats
import TreeScript.Proofs.Grammar
import TreeScript.Proofs.Inference
import TreeScript.Proofs.Integers
import TreeScript.Proofs.Items
import TreeScript.Proofs.KeyedList
import TreeScript.Proofs.Layout
import TreeScript.Proofs.Loops
import TreeScript.Proofs.Maps
import TreeScript.Proofs.Modes
import TreeScript.Proofs.Multimap
import TreeScript.Proofs.Natives
import TreeScript.Proofs.Negation
import TreeScript.Proofs.Nesting
import TreeScript.Proofs.Numerals
import TreeScript.Proofs.Operands
import TreeScript.Proofs.Parentheses
import TreeScript.Proofs.Places
import TreeScript.Proofs.Positions
import TreeScript.Proofs.Procedures
import TreeScript.Proofs.Progress
import TreeScript.Proofs.Questions
import TreeScript.Proofs.Readers
import TreeScript.Proofs.Recognition
import TreeScript.Proofs.Reset
import TreeScript.Proofs.RoundTrip
import TreeScript.Proofs.Rounding
import TreeScript.Proofs.Scanner
import TreeScript.Proofs.Search
import TreeScript.Proofs.Sections
import TreeScript.Proofs.Shadowing
import TreeScript.Proofs.Sources
import TreeScript.Proofs.Strays
import TreeScript.Proofs.Text
import TreeScript.Proofs.Trees
import TreeScript.Proofs.Values
import TreeScript.Proofs.Variables
import TreeScript.Scalar
import TreeScript.Scanner.Basic
import TreeScript.Scanner.Cursor
import TreeScript.Scanner.Search
import TreeScript.Scanner.Section
import TreeScript.Scanner.Value
import TreeScript.Text.Blank
import TreeScript.Text.Encoded
import TreeScript.Text.Hidden
import TreeScript.Text.LineEnds
import TreeScript.Text.Lines
import TreeScript.Text.Position
import TreeScript.Text.Truth
