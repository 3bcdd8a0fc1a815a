import Scad.Program.Item

/-!
# Visiting the parts of a program

A visitor has a hook for items, one for statements and one for expressions. A visit calls the hook of
each part it comes to and gives it the walk through what the part is made of, in source order. So the
hook decides what is done before the walk and whether there is one; a hook that is left out only
walks on.
-/

namespace Scad

/-- A part of a program that is visited. -/
inductive Part where
  | item (i : Item)
  | stmt (s : Stmt)
  | expr (e : Expr)

/-- What is done at the parts of a program. A hook takes a part and the walk through what it is made
of. -/
structure Visitor (m : Type → Type) where
  item : Item → m Unit → m Unit := fun _ walk => walk
  stmt : Stmt → m Unit → m Unit := fun _ walk => walk
  expr : Expr → m Unit → m Unit := fun _ walk => walk

namespace Visitor

variable {m : Type → Type}

/-- The hook for the sort of a part. -/
def hook (v : Visitor m) : Part → m Unit → m Unit
  | .item i => v.item i
  | .stmt s => v.stmt s
  | .expr e => v.expr e

/-- Does something at each part before it walks on. -/
def entering [Monad m] (enter : Part → m Unit) : Visitor m where
  item i walk := do
    enter (.item i)
    walk
  stmt s walk := do
    enter (.stmt s)
    walk
  expr e walk := do
    enter (.expr e)
    walk

@[simp]
theorem hook_entering [Monad m] (enter : Part → m Unit) (part : Part) (walk : m Unit) :
    (entering enter).hook part walk = (do enter part; walk) := by
  cases part <;> rfl

end Visitor

section

variable {m : Type → Type} [Monad m] (v : Visitor m)

mutual

def Expr.visit : Expr → m Unit
  | .literal x s => v.expr (.literal x s) (pure ())
  | .ident n => v.expr (.ident n) (pure ())
  | .special n => v.expr (.special n) (pure ())
  | .call f as s => v.expr (.call f as s) do
    f.visit
    Arg.visitAll as
  | .index b i s => v.expr (.index b i s) do
    b.visit
    i.visit
  | .member b n s => v.expr (.member b n s) b.visit
  | .unary o a s => v.expr (.unary o a s) a.visit
  | .binary o a b s => v.expr (.binary o a b s) do
    a.visit
    b.visit
  | .ternary c a b s => v.expr (.ternary c a b s) do
    c.visit
    a.visit
    b.visit
  | .paren a s => v.expr (.paren a s) a.visit
  | .letIn bs a s => v.expr (.letIn bs a s) do
    Assignment.visitAll bs
    a.visit
  | .guarded g as a s => v.expr (.guarded g as a s) do
    Arg.visitAll as
    Expr.visitOption a
  | .list es s => v.expr (.list es s) (Expr.visitAll es)
  | .range a b c s => v.expr (.range a b c s) do
    a.visit
    Expr.visitOption b
    c.visit
  | .function ps a s => v.expr (.function ps a s) do
    Param.visitAll ps
    a.visit
  | .each a s => v.expr (.each a s) a.visit
  | .comprehension h cs a s => v.expr (.comprehension h cs a s) do
    h.visit
    Clause.visitAll cs
    a.visit
  | .choice c a b s => v.expr (.choice c a b s) do
    c.visit
    a.visit
    Expr.visitOption b

def Expr.visitOption : Option Expr → m Unit
  | none => pure ()
  | some e => e.visit

def Expr.visitAll : List Expr → m Unit
  | [] => pure ()
  | e :: es => do
    e.visit
    Expr.visitAll es

def Arg.visit : Arg → m Unit
  | .positional a => a.visit
  | .named _ a _ => a.visit

def Arg.visitAll : List Arg → m Unit
  | [] => pure ()
  | a :: as => do
    a.visit
    Arg.visitAll as

def Assignment.visit : Assignment → m Unit
  | .mk _ a _ => a.visit

def Assignment.visitAll : List Assignment → m Unit
  | [] => pure ()
  | a :: as => do
    a.visit
    Assignment.visitAll as

def Param.visit : Param → m Unit
  | .mk _ a _ => Expr.visitOption a

def Param.visitAll : List Param → m Unit
  | [] => pure ()
  | a :: as => do
    a.visit
    Param.visitAll as

def LoopHead.visit : LoopHead → m Unit
  | .iterating bs => Assignment.visitAll bs
  | .counting is c us => do
    Assignment.visitAll is
    c.visit
    Assignment.visitAll us

def Clause.visit : Clause → m Unit
  | .loop h _ => h.visit
  | .filter c _ => c.visit
  | .letIn bs _ => Assignment.visitAll bs

def Clause.visitAll : List Clause → m Unit
  | [] => pure ()
  | c :: cs => do
    c.visit
    Clause.visitAll cs

end

mutual

def Stmt.visit : Stmt → m Unit
  | .call n as t s => v.stmt (.call n as t s) do
    Arg.visitAll v as
    t.visit
  | .block is s => v.stmt (.block is s) (Item.visitAll is)
  | .bound k bs t s => v.stmt (.bound k bs t s) do
    Assignment.visitAll v bs
    t.visit
  | .choice c a b s => v.stmt (.choice c a b s) do
    c.visit v
    a.visit
    Stmt.visitOption b
  | .file k p s => v.stmt (.file k p s) (pure ())
  | .assert as t s => v.stmt (.assert as t s) do
    Arg.visitAll v as
    t.visit
  | .modified k t s => v.stmt (.modified k t s) t.visit
  | .empty s => v.stmt (.empty s) (pure ())

def Stmt.visitOption : Option Stmt → m Unit
  | none => pure ()
  | some s => s.visit

def Item.visit : Item → m Unit
  | .moduleDef n ps is s => v.item (.moduleDef n ps is s) do
    Param.visitAll v ps
    Item.visitAll is
  | .functionDef n ps a s => v.item (.functionDef n ps a s) do
    Param.visitAll v ps
    a.visit v
  | .variableDef n a s => v.item (.variableDef n a s) (a.visit v)
  | .stmt t => v.item (.stmt t) t.visit

def Item.visitAll : List Item → m Unit
  | [] => pure ()
  | i :: is => do
    i.visit
    Item.visitAll is

end

end

end Scad
