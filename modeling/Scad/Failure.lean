import Scad.Source.Span
import Scad.Tree.Form

/-!
# Failures

Why there is no program, or why a program is refused. Each failure has a place, and one function
puts each into words.
-/

namespace Scad

/-- What is wrong with the form of a tree. -/
inductive Malformed where
  | missing (label : String)
  | unexpectedEnd
  | unexpected (line : String)
  | noField (label : String) (role : Role)
  | invalidNumber (text : String)
  | invalidBoolean (text : String)
  | unknownBinary (symbol : String)
  | unknownUnary (symbol : String)
  | unknownModifier (symbol : String)
  | malformedPath (text : String)
deriving DecidableEq, Repr

def Malformed.message : Malformed → String
  | missing label => "missing '" ++ label ++ "'"
  | unexpectedEnd => "unexpected end of input"
  | unexpected line => "unexpected '" ++ line ++ "'"
  | noField label role => "`" ++ label ++ "` has no " ++ role.text
  | invalidNumber text => "invalid number '" ++ text ++ "'"
  | invalidBoolean text => "invalid boolean '" ++ text ++ "'"
  | unknownBinary symbol => "unknown binary operator '" ++ symbol ++ "'"
  | unknownUnary symbol => "unknown unary operator '" ++ symbol ++ "'"
  | unknownModifier symbol => "unknown modifier '" ++ symbol ++ "'"
  | malformedPath text => "malformed include path '" ++ text ++ "'"

/-- The rules that a strict program keeps. -/
inductive StrictRule where
  | emptyBinding | matrixShape | duplicateArgument | duplicateParameter | zeroStep
deriving DecidableEq, Repr

def StrictRule.text : StrictRule → String
  | emptyBinding => "empty binding list"
  | matrixShape => "invalid matrix shape"
  | duplicateArgument => "duplicate named argument"
  | duplicateParameter => "duplicate parameter"
  | zeroStep => "zero range step"

/-- What is wrong with a matrix. -/
inductive MatrixDefect where
  | notList
  | rows (count : Nat)
  | rowNotList (index : Nat)
  | columns (index count : Nat)
deriving DecidableEq, Repr

/-- How a strict rule is broken. -/
inductive Violation where
  | emptyBinding (keyword : String)
  | matrix (defect : MatrixDefect)
  | repeatedArgument (name : String)
  | repeatedAssert (name : String)
  | repeatedParameter (name : String)
  | zeroStep
deriving DecidableEq, Repr

/-- The number of columns of a transformation matrix. -/
def matrixColumns : Nat := 4

/-- The least number of its rows. -/
def matrixMinRows : Nat := 3

/-- The greatest number of its rows. -/
def matrixMaxRows : Nat := 4

def MatrixDefect.message : MatrixDefect → String
  | notList => "matrix is not a list"
  | rows count =>
    "matrix has " ++ toString count ++ " rows, expected " ++ toString matrixMinRows ++ " or " ++
      toString matrixMaxRows
  | rowNotList index => "row " ++ toString index ++ " is not a list"
  | columns index count =>
    "row " ++ toString index ++ " has " ++ toString count ++ " columns, expected " ++
      toString matrixColumns

namespace Violation

def rule : Violation → StrictRule
  | emptyBinding _ => .emptyBinding
  | matrix _ => .matrixShape
  | repeatedArgument _ | repeatedAssert _ => .duplicateArgument
  | repeatedParameter _ => .duplicateParameter
  | zeroStep => .zeroStep

def details : Violation → String
  | emptyBinding keyword => "`" ++ keyword ++ "` has no bindings"
  | matrix defect => defect.message
  | repeatedArgument name => "argument `" ++ name ++ "` is given more than once"
  | repeatedAssert name => "assert `" ++ name ++ "` is given more than once"
  | repeatedParameter name => "parameter `" ++ name ++ "` is declared more than once"
  | zeroStep => "range step is zero"

end Violation

/-- Why a source gives no program, or none that is strict. -/
inductive Failure where
  | malformed (cause : Malformed) (span : Span)
  | violation (cause : Violation) (span : Span)
  /-- A node that no construct of the language is made from. -/
  | unsupported (label : String) (span : Span)
deriving DecidableEq, Repr

namespace Failure

def span : Failure → Span
  | malformed _ span | violation _ span | unsupported _ span => span

/-- The particulars, without the place. -/
def detail : Failure → String
  | malformed cause _ => cause.message
  | violation cause _ => cause.details
  | unsupported label _ => label

def message : Failure → String
  | malformed cause span => "syntax error at " ++ span.display ++ ": " ++ cause.message
  | violation cause span => cause.rule.text ++ " at " ++ span.display ++ ": " ++ cause.details
  | unsupported label span => "unsupported syntax node `" ++ label ++ "` at " ++ span.display

end Failure
end Scad
