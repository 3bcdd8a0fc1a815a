import Scad.Check.Assertion
import Scad.Check.Matrix
import Scad.Program

/-!
# Strict programs

Some programs can be read and still mean nothing: a loop over no bindings, a parameter declared
twice, a matrix of the wrong shape. The rules say for each part of a program on its own what it
breaks; a program is strict if no part breaks a rule. A visitor with a flag looks for the first part
that breaks one.
-/

namespace Scad
namespace Strict

/-- A broken rule and where. -/
abbrev Finding := Violation × Span

/-- The first of several names that has occurred before, with its place. -/
def repeated (entries : List (String × Span)) : Option (String × Span) :=
  AssertParam.firstRepeat [] entries

def ofBindings (keyword : String) (bindings : List Assignment) (span : Span) : List Finding :=
  if bindings.isEmpty then [(.emptyBinding keyword, span)] else []

/-- A loop that counts needs no bindings. -/
def ofLoop (head : LoopHead) (span : Span) : List Finding :=
  match head with
  | .iterating bindings => ofBindings Binder.loop.text bindings span
  | .counting _ _ _ => []

def ofParams (params : List Param) : List Finding :=
  match repeated (params.map fun p => (p.name.text, p.span)) with
  | some (name, span) => [(.repeatedParameter name, span)]
  | none => []

def ofArgs (args : List Arg) : List Finding :=
  match repeated (args.filterMap fun a => a.name?.map fun n => (n.text, a.span)) with
  | some (name, span) => [(.repeatedArgument name, span)]
  | none => []

def ofAssertArgs (args : List Arg) : List Finding :=
  ofArgs args ++
    match AssertParam.firstRebinding args with
    | some (p, a) => [(.repeatedAssert p.text, a.span)]
    | none => []

def ofMatrix (c : Context) (args : List Arg) : List Finding :=
  match Matrix.argument? args with
  | none => []
  | some matrix =>
    match Matrix.defect c matrix with
    | some d => [(.matrix d, matrix.span)]
    | none => []

def ofClause : Clause → List Finding
  | .loop head span => ofLoop head span
  | .letIn bindings span => ofBindings Binder.letIn.text bindings span
  | .filter _ _ => []

/-- Zero as written, with signs and parentheses around it. -/
def isLiteralZero : Expr → Bool
  | .unary .neg a _ | .unary .pos a _ | .paren a _ => isLiteralZero a
  | .literal (.number x) _ => x.equal .zero
  | _ => false

def ofItem : Item → List Finding
  | .moduleDef _ params _ _ | .functionDef _ params _ _ => ofParams params
  | .variableDef _ _ _ | .stmt _ => []

def ofStmt (c : Context) : Stmt → List Finding
  | .call name args _ _ =>
    ofArgs args ++ if name.text = Matrix.moduleName then ofMatrix c args else []
  | .bound binder bindings _ span => ofBindings binder.text bindings span
  | .assert args _ _ => ofAssertArgs args
  | .block _ _ | .choice _ _ _ _ | .file _ _ _ | .modified _ _ _ | .empty _ => []

def ofExpr : Expr → List Finding
  | .call _ args _ => ofArgs args
  | .guarded .echo args _ _ => ofArgs args
  | .guarded .assert args _ _ => ofAssertArgs args
  | .letIn bindings _ span => ofBindings Binder.letIn.text bindings span
  | .function params _ _ => ofParams params
  | .range _ (some step) _ _ => if isLiteralZero step then [(.zeroStep, step.span)] else []
  | .comprehension head clauses _ span => ofLoop head span ++ clauses.flatMap ofClause
  | _ => []

/-- All that a part of a program breaks, apart from what its own parts break. -/
def findings (c : Context) : Part → List Finding
  | .item i => ofItem i
  | .stmt s => ofStmt c s
  | .expr e => ofExpr e

/-- Notes a finding, unless one was noted before. -/
def note (f : Finding) : StateM (Option Failure) Unit :=
  modify fun noted => noted <|> some (.violation f.1 f.2)

/-- What is done at a part with these findings. Once something has been noted, nothing more is done
and the parts of the part are left out. -/
def hook (fs : List Finding) (walk : StateM (Option Failure) Unit) :
    StateM (Option Failure) Unit := do
  if (← get).isNone then
    fs.forM note
    walk

/-- Checks each part before the parts in it. -/
def visitor (c : Context) : Visitor (StateM (Option Failure)) where
  item i := hook (ofItem i)
  stmt s := hook (ofStmt c s)
  expr e := hook (ofExpr e)

end Strict

namespace Program

/-- Checks a program part by part. It is refused for the first rule that is broken. -/
def validate (p : Program) : Except Failure Unit :=
  match ((p.accept (Strict.visitor p.context)).run none).2 with
  | none => .ok ()
  | some f => .error f

/-- The program of a source text, if it is strict. -/
def parseStrict (source : List Char) : Except Failure Program :=
  match parse source with
  | .error f => .error f
  | .ok p =>
    match p.validate with
    | .ok _ => .ok p
    | .error f => .error f

end Program
end Scad
