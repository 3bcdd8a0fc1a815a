import Scad.Number.Double
import Scad.Program.Operator
import Scad.Source.Span

/-!
# Expressions

Expressions with their arguments, bindings, parameters and loops. Every part knows its span.
-/

namespace Scad

/-- A name as written in the source. -/
structure Name where
  text : String
  span : Span
deriving DecidableEq, Repr

/-- The first character of the names that are looked up at run time. -/
def specialSigil : Char := '$'

def Name.isSpecial (n : Name) : Bool := n.text.toList.head? == some specialSigil

inductive Literal where
  | number (x : Double)
  | string (s : String)
  | bool (b : Bool)
  | undef
deriving Repr

mutual

inductive Expr where
  | literal (value : Literal) (span : Span)
  | ident (name : Name)
  | special (name : Name)
  | call (callee : Expr) (args : List Arg) (span : Span)
  | index (base position : Expr) (span : Span)
  | member (base : Expr) (field : Name) (span : Span)
  | unary (op : UnaryOp) (operand : Expr) (span : Span)
  | binary (op : BinaryOp) (left right : Expr) (span : Span)
  | ternary (cond yes no : Expr) (span : Span)
  | paren (inner : Expr) (span : Span)
  | letIn (bindings : List Assignment) (body : Expr) (span : Span)
  | guarded (guard : Guard) (args : List Arg) (body : Option Expr) (span : Span)
  | list (elements : List Expr) (span : Span)
  | range (start : Expr) (step : Option Expr) (stop : Expr) (span : Span)
  | function (params : List Param) (body : Expr) (span : Span)
  | each (inner : Expr) (span : Span)
  | comprehension (head : LoopHead) (clauses : List Clause) (body : Expr) (span : Span)
  | choice (cond yes : Expr) (no : Option Expr) (span : Span)

/-- An argument of a call, by position or by name. -/
inductive Arg where
  | positional (value : Expr)
  | named (name : Name) (value : Expr) (span : Span)

/-- A name bound to a value. -/
inductive Assignment where
  | mk (name : Name) (value : Expr) (span : Span)

/-- A parameter, with the value it has when no argument is given. -/
inductive Param where
  | mk (name : Name) (default : Option Expr) (span : Span)

/-- What a loop in a list runs over: bindings, or a start, a condition and a step. -/
inductive LoopHead where
  | iterating (bindings : List Assignment)
  | counting (init : List Assignment) (cond : Expr) (update : List Assignment)

/-- What stands between the first loop of a comprehension and its body. -/
inductive Clause where
  | loop (head : LoopHead) (span : Span)
  | filter (cond : Expr) (span : Span)
  | letIn (bindings : List Assignment) (span : Span)

end

namespace Assignment

def name : Assignment → Name
  | mk name _ _ => name

def value : Assignment → Expr
  | mk _ value _ => value

def span : Assignment → Span
  | mk _ _ span => span

end Assignment

namespace Param

def name : Param → Name
  | mk name _ _ => name

def default : Param → Option Expr
  | mk _ default _ => default

def span : Param → Span
  | mk _ _ span => span

end Param

namespace Expr

def span : Expr → Span
  | ident name | special name => name.span
  | literal _ span | call _ _ span | index _ _ span | member _ _ span | unary _ _ span
  | binary _ _ _ span | ternary _ _ _ span | paren _ span | letIn _ _ span
  | guarded _ _ _ span | list _ span | range _ _ _ span | function _ _ span | each _ span
  | comprehension _ _ _ span | choice _ _ _ span => span

/-- The number of a literal. -/
def number? : Expr → Option Double
  | literal (.number x) _ => some x
  | _ => none

end Expr

namespace Arg

def value : Arg → Expr
  | positional value | named _ value _ => value

def name? : Arg → Option Name
  | positional _ => none
  | named name _ _ => some name

def span : Arg → Span
  | positional value => value.span
  | named _ _ span => span

end Arg

/-- All bindings of a loop. -/
def LoopHead.assignments : LoopHead → List Assignment
  | iterating bindings => bindings
  | counting init _ update => init ++ update

def Clause.span : Clause → Span
  | loop _ span | filter _ span | letIn _ span => span

end Scad
