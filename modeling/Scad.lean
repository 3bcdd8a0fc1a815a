import Scad.Check.Strict
import Scad.Diagnostic
import Scad.Proofs.Grammar.Cover
import Scad.Proofs.Grammar.Faults
import Scad.Proofs.Number.ReadBack
import Scad.Proofs.Text.Quoted
import Scad.Proofs.Program.Words
import Scad.Proofs.Program.Legible
import Scad.Proofs.Program.Neat
import Scad.Proofs.Program.Forms
import Scad.Proofs.Program.Forms.Expr
import Scad.Proofs.Grammar.Bars
import Scad.Proofs.Program.Forms.Stmt
import Scad.Proofs.Program.Phrases
import Scad.Proofs.Program.Operands
import Scad.Proofs.Program.Statements
import Scad.Proofs.Program.Verdict
import Scad.Proofs.Program.Tokens
import Scad.Proofs.Program.Alike
import Scad.Proofs.Program.Alike.Nodes
import Scad.Proofs.Program.Replay
import Scad.Proofs.Program.Replay.Expressions
import Scad.Proofs.Program.Replay.Statements
import Scad.Proofs.Program.RoundTrip
import Scad.Proofs.Program.Spacing
import Scad.Proofs.Grammar.Matching
import Scad.Proofs.Grammar.Followed
import Scad.Proofs.Program.Concat
import Scad.Proofs.Grammar.Nested
import Scad.Proofs.Scope.Outline
import Scad.Proofs.Scope.Sites
import Scad.Proofs.Scope.Drawing
import Scad.Proofs.Scope.Twin
import Scad.Proofs.Scope.Homes
import Scad.Proofs.Check.Structure
import Scad.Proofs.Check.Matrix
import Scad.Proofs.Token.Lossless
import Scad.Proofs.Grammar.Turns
import Scad.Proofs.Grammar.Placed
import Scad.Proofs.Grammar.Solid
import Scad.Proofs.Program.Element
import Scad.Proofs.Program.Faithful
import Scad.Proofs.Scope.Edits
import Scad.Proofs.Program.Origin
import Scad.Proofs.Program.Constructs
import Scad.Proofs.Program.Spans
import Scad.Proofs.Scope.Determined
import Scad.Proofs.Scope.Registry
import Scad.Proofs.Program.Parts
import Scad.Proofs.Check.Exhaustive
import Scad.Proofs.Grammar.Late
import Scad.Proofs.Grammar.FaultOrder
import Scad.Proofs.Grammar.Housed
import Scad.Proofs.Scope.Innermost
import Scad.Proofs.Scope.Environment
import Scad.Proofs.Scope.Order
import Scad.Proofs.Program.Visits
import Scad.Proofs.Program.Readings
import Scad.Proofs.Program.Grouped
import Scad.Proofs.Program.Grouping
import Scad.Proofs.Grammar.Braces
import Scad.Proofs.Grammar.Ended
import Scad.Proofs.Program.FirstFault
import Scad.Proofs.Program.Ranges
import Scad.Proofs.Scope.Openings
import Scad.Proofs.Program.Generators
import Scad.Proofs.Program.Values
import Scad.Proofs.Program.Comprehensions
import Scad.Proofs.Token.Lines
import Scad.Proofs.Program.Strings
import Scad.Proofs.Program.Erasure
import Scad.Proofs.Grammar.Broken
import Scad.Proofs.Grammar.Foresight
import Scad.Proofs.Scope.Counted
import Scad.Proofs.Token.Numbers
