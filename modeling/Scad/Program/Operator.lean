/-!
# Operators and marks

The operators of expressions, the marks in front of statements, and the keywords that open a
statement with bindings. Each has one spelling.
-/

namespace Scad

/-- Operators between two operands. -/
inductive BinaryOp where
  | or | and | eq | ne | lt | gt | le | ge | add | sub | mul | div | mod | pow
deriving DecidableEq, Repr

namespace BinaryOp

def text : BinaryOp → String
  | or => "||"
  | and => "&&"
  | eq => "=="
  | ne => "!="
  | lt => "<"
  | gt => ">"
  | le => "<="
  | ge => ">="
  | add => "+"
  | sub => "-"
  | mul => "*"
  | div => "/"
  | mod => "%"
  | pow => "^"

def all : List BinaryOp := [or, and, eq, ne, lt, gt, le, ge, add, sub, mul, div, mod, pow]

/-- The operator with this spelling. -/
def ofText? (s : String) : Option BinaryOp := all.find? fun o => o.text == s

end BinaryOp

/-- Operators in front of an operand. -/
inductive UnaryOp where
  | not | neg | pos
deriving DecidableEq, Repr

namespace UnaryOp

def text : UnaryOp → String
  | not => "!"
  | neg => "-"
  | pos => "+"

def all : List UnaryOp := [not, neg, pos]

/-- The operator with this spelling. -/
def ofText? (s : String) : Option UnaryOp := all.find? fun o => o.text == s

end UnaryOp

/-- Marks that change how a statement is shown. -/
inductive Modifier where
  | disable | root | highlight | background
deriving DecidableEq, Repr

namespace Modifier

def text : Modifier → String
  | disable => "*"
  | root => "!"
  | highlight => "#"
  | background => "%"

def all : List Modifier := [disable, root, highlight, background]

/-- The mark with this spelling. -/
def ofText? (s : String) : Option Modifier := all.find? fun m => m.text == s

end Modifier

/-- The statements that bind names for the statement under them. -/
inductive Binder where
  | loop | intersectionLoop | letIn | assign
deriving DecidableEq, Repr

def Binder.text : Binder → String
  | loop => "for"
  | intersectionLoop => "intersection_for"
  | letIn => "let"
  | assign => "assign"

/-- The two ways to bring in another file. -/
inductive Link where
  | include | use
deriving DecidableEq, Repr

def Link.text : Link → String
  | .include => "include"
  | .use => "use"

/-- The two calls that may stand in front of an expression. -/
inductive Guard where
  | assert | echo
deriving DecidableEq, Repr

def Guard.text : Guard → String
  | assert => "assert"
  | echo => "echo"

end Scad
