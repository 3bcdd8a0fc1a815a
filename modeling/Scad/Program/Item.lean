import Scad.Program.Expr

/-!
# Statements and items

Statements make geometry; items are what a file or a block is made of, statements and declarations.
-/

namespace Scad

mutual

inductive Stmt where
  /-- A call, applied to the statement behind it; a call closed by a semicolon is applied to the
  empty statement. -/
  | call (name : Name) (args : List Arg) (tail : Stmt) (span : Span)
  | block (items : List Item) (span : Span)
  | bound (binder : Binder) (bindings : List Assignment) (body : Stmt) (span : Span)
  | choice (cond : Expr) (yes : Stmt) (no : Option Stmt) (span : Span)
  | file (link : Link) (path : String) (span : Span)
  | assert (args : List Arg) (body : Stmt) (span : Span)
  | modified (modifier : Modifier) (stmt : Stmt) (span : Span)
  | empty (span : Span)

inductive Item where
  | moduleDef (name : Name) (params : List Param) (body : List Item) (span : Span)
  | functionDef (name : Name) (params : List Param) (body : Expr) (span : Span)
  | variableDef (name : Name) (value : Expr) (span : Span)
  | stmt (s : Stmt)

end

def Stmt.span : Stmt → Span
  | call _ _ _ span | block _ span | bound _ _ _ span | choice _ _ _ span | file _ _ span
  | assert _ _ span | modified _ _ span | empty span => span

def Stmt.isEmpty : Stmt → Bool
  | empty _ => true
  | _ => false

def Item.span : Item → Span
  | moduleDef _ _ _ span | functionDef _ _ _ span | variableDef _ _ span => span
  | stmt s => s.span

end Scad
