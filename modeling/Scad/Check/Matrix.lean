import Scad.Failure
import Scad.Scope.Context

/-!
# Matrices written in the source

The shape of the matrix of a `multmatrix` call is checked where it can be told from the source:
where the matrix is a list, or a name that stands for one. Whatever is computed is left alone.
-/

namespace Scad.Matrix

/-- The module whose argument is checked. -/
def moduleName : String := "multmatrix"

/-- The name of its argument. -/
def argumentName : String := "m"

/-- How many parentheses and names are seen through. -/
def resolveDepth : Nat := 16

/-- The argument that holds the matrix: the first one that is given by position or by its name. -/
def argument? : List Arg → Option Expr
  | [] => none
  | .positional v :: _ => some v
  | .named name v _ :: args => if name.text = argumentName then some v else argument? args

/-- What an expression stands for, seen through parentheses and names, if this can be told in `n`
steps. -/
def resolve (c : Context) : Nat → Expr → Option Expr
  | 0, _ => none
  | n + 1, e =>
    match e with
    | .paren inner _ => resolve c n inner
    | .ident name =>
      ((c.lookup (c.scopeAt name.span) name.text).bind Binding.value).bind (resolve c n)
    | e => some e

/-- Elements of a list that may give any number of values. -/
def isGenerated : Expr → Bool
  | .each _ _ | .comprehension _ _ _ _ | .choice _ _ _ _ | .letIn _ _ _ => true
  | _ => false

/-- What is wrong with the row at this place of a matrix. -/
def rowDefect (c : Context) (index : Nat) (row : Expr) : Option MatrixDefect :=
  match resolve c resolveDepth row with
  | some (.list elements _) =>
    if elements.any isGenerated ∨ elements.length = matrixColumns then none
    else some (.columns index elements.length)
  | some (.literal _ _) | some (.range _ _ _ _) => some (.rowNotList index)
  | _ => none

/-- The first row with a defect; rows are counted from one. -/
def rowsDefect (c : Context) : Nat → List Expr → Option MatrixDefect
  | _, [] => none
  | index, row :: rows =>
    match rowDefect c index row with
    | some d => some d
    | none => rowsDefect c (index + 1) rows

/-- What is wrong with a matrix, if this can be told. -/
def defect (c : Context) (matrix : Expr) : Option MatrixDefect :=
  match resolve c resolveDepth matrix with
  | some (.list rows _) =>
    if rows.any isGenerated then none
    else if rows.length < matrixMinRows ∨ matrixMaxRows < rows.length then
      some (.rows rows.length)
    else rowsDefect c 1 rows
  | some (.literal _ _) | some (.range _ _ _ _) => some .notList
  | _ => none

end Scad.Matrix
