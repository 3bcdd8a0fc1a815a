import Scad.Failure
import Scad.Number.Decimal
import Scad.Scope.Context
import Scad.Text.Quoted
import Scad.Tree.Labelled

/-!
# Reading programs from trees

What a tree means depends on where it stands: the same node may be read as an item, as a statement
or as an expression. So the trees are gone through from the leaves up, and each node gets one
reading for each place it can stand in, made from the readings of its children. A reading is a step
that may fail; it declares names in the context as it goes, and what it declared stays when it
fails.
-/

namespace Scad

/-- A step of reading. -/
abbrev Read := ExceptT Failure (StateM Context)

namespace Read

/-- Changes the context. -/
def update (f : Context → Context) : Read Unit := modify f

/-- Takes a step in a new scope, which is closed again however the step ends. -/
def inScope {α : Type} (kind : ScopeKind) (span : Span) (step : Read α) : Read α :=
  ExceptT.mk fun c =>
    let (result, c) := step.run (c.push kind span)
    (result, c.pop)

/-- One step for each element of a list. -/
def each {α β : Type} (f : α → Read β) : List α → Read (List β)
  | [] => pure []
  | a :: as => do
    let b ← f a
    let bs ← each f as
    pure (b :: bs)

end Read

open Read

/-- All that a node can be read as. -/
structure Reading where
  label : Label
  region : Region
  role : Option Role
  item : Read Item
  /-- The children as items. -/
  items : Read (List Item)
  stmt : Read Stmt
  expr : Read Expr
  /-- The clauses of a comprehension from this node on, and its body. -/
  tail : Read (List Clause × Expr)
  argument : Read Arg
  arguments : Read (List Arg)
  assignment : Read Assignment
  assignments : Read (List Assignment)
  parameter : Read Param
  parameters : Read (List Param)

/-- A node whose children have been read. -/
structure Shape where
  source : List Char
  label : Label
  region : Region
  children : List Reading

/-- The text of a region, empty if the region is not one of the source. -/
def textIn (source : List Char) (r : Region) : List Char :=
  (Text.slice? source r.start.byte r.stop.byte).getD []

/-- A node as a name. -/
def readName (source : List Char) (label : Label) (region : Region) : Read Name :=
  match label with
  | .form .identifier | .form .specialVariable =>
    pure ⟨String.ofList (textIn source region), (Span.ofRegion region).withText source⟩
  | l => throw (.unsupported l.name (.ofRegion region))

namespace Shape

variable (n : Shape)

def span : Span := .ofRegion n.region

/-- The text of the node itself. -/
def text : List Char := textIn n.source n.region

/-- No construct is made from this node. -/
def unsupported {α : Type} : Read α := throw (.unsupported n.label.name n.span)

/-- The first child in a role. -/
def child? (r : Role) : Option Reading := n.children.find? fun c => c.role == some r

/-- The first child in a role that must be there. -/
def need (r : Role) : Read Reading :=
  match n.child? r with
  | some c => pure c
  | none => throw (.malformed (.noField n.label.name r) n.span)

/-- A child that may be left out. -/
def optional {α : Type} (r : Role) (f : Reading → Read α) : Read (Option α) :=
  match n.child? r with
  | some c => do
    let a ← f c
    pure (some a)
  | none => pure none

/-- A child as a name. -/
def nameIn (r : Role) : Read Name := do
  let c ← n.need r
  readName n.source c.label c.region

/-- A child as an expression. -/
def exprIn (r : Role) : Read Expr := do
  let c ← n.need r
  c.expr

/-- A child as a statement. -/
def stmtIn (r : Role) : Read Stmt := do
  let c ← n.need r
  c.stmt

/-! ## Arguments, bindings and parameters -/

def asArgument (self : Read Expr) : Read Arg :=
  match n.label with
  | .form .namedArgument => do
    let name ← n.nameIn .name
    let value ← n.exprIn .value
    pure (.named name value n.span)
  | _ => do
    let value ← self
    pure (.positional value)

def asArguments : Read (List Arg) :=
  match n.label with
  | .form .arguments => Read.each Reading.argument n.children
  | _ => n.unsupported

/-- The arguments of a call; a call without an argument list has none. -/
def args : Read (List Arg) :=
  match n.child? .arguments with
  | some c => c.arguments
  | none => pure []

/-- A binding is entered into the context as soon as its value has been read. -/
def asAssignment : Read Assignment :=
  match n.label with
  | .form .assignment => do
    let name ← n.nameIn .name
    let value ← n.exprIn .value
    update fun c => c.assign name value n.span
    pure (.mk name value n.span)
  | _ => n.unsupported

def asAssignments : Read (List Assignment) :=
  match n.label with
  | .form .assignments => Read.each Reading.assignment n.children
  | _ => n.unsupported

def assignmentsIn (r : Role) : Read (List Assignment) := do
  let c ← n.need r
  c.assignments

def asParameter : Read Param :=
  match n.label with
  | .form .parameter => do
    let name ← n.nameIn .name
    let value ← n.optional .default Reading.expr
    pure (.mk name value n.span)
  | _ => n.unsupported

def asParameters : Read (List Param) :=
  match n.label with
  | .form .parameters => Read.each Reading.parameter n.children
  | _ => n.unsupported

def params : Read (List Param) :=
  match n.child? .parameters with
  | some c => c.parameters
  | none => pure []

/-! ## Expressions -/

def literal (value : Literal) : Read Expr := pure (.literal value (n.span.withText n.source))

def asNumber : Read Expr :=
  match Number.read? n.text with
  | some x => n.literal (.number x)
  | none => throw (.malformed (.invalidNumber (String.ofList n.text)) n.span)

def asBoolean : Read Expr :=
  match String.ofList n.text with
  | "true" => n.literal (.bool true)
  | "false" => n.literal (.bool false)
  | other => throw (.malformed (.invalidBoolean other) n.span)

/-- The operator of an expression: its text, and where it stands. -/
def symbolIn (r : Role) : Read (String × Span) := do
  let c ← n.need r
  pure (String.ofList (textIn n.source c.region), .ofRegion c.region)

def asBinary : Read Expr := do
  let (symbol, place) ← n.symbolIn .operator
  match BinaryOp.ofText? symbol with
  | none => throw (.malformed (.unknownBinary symbol) place)
  | some op =>
    let left ← n.exprIn .left
    let right ← n.exprIn .right
    pure (.binary op left right n.span)

def asUnary : Read Expr := do
  let (symbol, place) ← n.symbolIn .operator
  match UnaryOp.ofText? symbol with
  | none => throw (.malformed (.unknownUnary symbol) place)
  | some op =>
    let operand ← n.exprIn .operand
    pure (.unary op operand n.span)

/-- The head of a loop: bindings if there are any, else a start, a condition and a step. -/
def loopHead : Read LoopHead :=
  match n.child? .bindings with
  | some c => do
    let bindings ← c.assignments
    pure (.iterating bindings)
  | none => do
    let init ← n.assignmentsIn .init
    let cond ← n.exprIn .condition
    let update ← n.assignmentsIn .update
    pure (.counting init cond update)

/-- The clauses and the body behind the head of a comprehension. -/
def tailIn (r : Role) : Read (List Clause × Expr) := do
  let c ← n.need r
  c.tail

def asExpr : Read Expr :=
  match n.label with
  | .form .identifier => do
    let name ← readName n.source n.label n.region
    pure (.ident name)
  | .form .specialVariable => do
    let name ← readName n.source n.label n.region
    pure (.special name)
  | .form .number => n.asNumber
  | .form .string => n.literal (.string (String.ofList (Text.Quoted.decode n.text)))
  | .form .boolean => n.asBoolean
  | .form .undef => n.literal .undef
  | .form .binaryExpression => n.asBinary
  | .form .unaryExpression => n.asUnary
  | .form .ternaryExpression => do
    let cond ← n.exprIn .condition
    let yes ← n.exprIn .consequence
    let no ← n.exprIn .alternative
    pure (.ternary cond yes no n.span)
  | .form .parenthesizedExpression => do
    let inner ← n.exprIn .expression
    pure (.paren inner n.span)
  | .form .functionCall => do
    let callee ← n.exprIn .function
    let args ← n.args
    pure (.call callee args n.span)
  | .form .indexExpression => do
    let base ← n.exprIn .value
    let position ← n.exprIn .index
    pure (.index base position n.span)
  | .form .dotIndexExpression => do
    let base ← n.exprIn .value
    let field ← n.nameIn .field
    pure (.member base field n.span)
  | .form .letExpression =>
    inScope .letIn n.span do
      let bindings ← n.assignmentsIn .bindings
      let body ← n.exprIn .body
      pure (.letIn bindings body n.span)
  | .form .assertExpression => do
    let args ← n.args
    let body ← n.optional .body Reading.expr
    pure (.guarded .assert args body n.span)
  | .form .echoExpression => do
    let args ← n.args
    let body ← n.optional .body Reading.expr
    pure (.guarded .echo args body n.span)
  | .form .functionLiteral => do
    let params ← n.params
    inScope .lambda n.span do
      update fun c => c.declareParams params
      let body ← n.exprIn .body
      pure (.function params body n.span)
  | .form .list => do
    let elements ← Read.each Reading.expr n.children
    pure (.list elements n.span)
  | .form .range => do
    let start ← n.exprIn .start
    let step ← n.optional .step Reading.expr
    let stop ← n.exprIn .stop
    pure (.range start step stop n.span)
  | .form .listComprehension =>
    inScope .comprehension n.span do
      let head ← n.loopHead
      let (clauses, body) ← n.tailIn .body
      pure (.comprehension head clauses body n.span)
  | .form .ifComprehension => do
    let cond ← n.exprIn .condition
    let yes ← n.exprIn .consequence
    let no ← n.optional .alternative Reading.expr
    pure (.choice cond yes no n.span)
  | .form .each => do
    let inner ← n.exprIn .value
    pure (.each inner n.span)
  | _ => n.unsupported

/-- Behind the head of a comprehension, loops, choices without another branch and bindings are
clauses of the comprehension. The first other node is its body. -/
def asTail (self : Read Expr) : Read (List Clause × Expr) :=
  let body : Read (List Clause × Expr) := do
    let e ← self
    pure ([], e)
  match n.label with
  | .form .listComprehension =>
    inScope .comprehension n.span do
      let head ← n.loopHead
      let (clauses, body) ← n.tailIn .body
      pure (.loop head n.span :: clauses, body)
  | .form .ifComprehension =>
    match n.child? .alternative with
    | some _ => body
    | none => do
      let cond ← n.exprIn .condition
      let (clauses, body) ← n.tailIn .consequence
      pure (.filter cond n.span :: clauses, body)
  | .form .letExpression =>
    inScope .letIn n.span do
      let bindings ← n.assignmentsIn .bindings
      let (clauses, body) ← n.tailIn .body
      pure (.letIn bindings n.span :: clauses, body)
  | _ => body

/-! ## Statements -/

/-- What a call is applied to: the statement in its body, or the empty statement at its end. -/
def callTail : Read Stmt :=
  match n.child? .body with
  | some c => c.stmt
  | none => pure (.empty n.span.endPoint)

/-- A statement with bindings, in a scope of its own. -/
def bound (binder : Binder) (kind : ScopeKind) : Read Stmt :=
  inScope kind n.span do
    let bindings ← n.assignmentsIn .bindings
    let body ← n.stmtIn .body
    pure (.bound binder bindings body n.span)

/-- A path without the angle brackets around it. -/
def pathOf? : List Char → Option (List Char)
  | '<' :: cs => if cs.getLast? = some '>' then some cs.dropLast else none
  | _ => none

def file (link : Link) : Read Stmt := do
  let (text, place) ← n.symbolIn .path
  match pathOf? text.toList with
  | some path => pure (.file link (String.ofList path) n.span)
  | none => throw (.malformed (.malformedPath text) place)

def asModified : Read Stmt := do
  let (symbol, place) ← n.symbolIn .modifier
  match Modifier.ofText? symbol with
  | none => throw (.malformed (.unknownModifier symbol) place)
  | some m =>
    let stmt ← n.stmtIn .statement
    pure (.modified m stmt n.span)

def asStmt : Read Stmt :=
  match n.label with
  | .form .moduleCall => do
    let name ← n.nameIn .name
    let args ← n.args
    let tail ← n.callTail
    pure (.call name args tail n.span)
  | .form .unionBlock =>
    inScope .block n.span do
      let items ← Read.each Reading.item n.children
      pure (.block items n.span)
  | .form .emptyStatement => pure (.empty n.span)
  | .form .modifierChain => n.asModified
  | .form .forBlock => n.bound .loop .loop
  | .form .intersectionForBlock => n.bound .intersectionLoop .loop
  | .form .letBlock => n.bound .letIn .letIn
  | .form .assignBlock => n.bound .assign .assign
  | .form .ifBlock => do
    let cond ← n.exprIn .condition
    let yes ← n.stmtIn .consequence
    let no ← n.optional .alternative Reading.stmt
    pure (.choice cond yes no n.span)
  | .form .assertStatement => do
    let args ← n.args
    let body ← n.callTail
    pure (.assert args body n.span)
  | .form .includeStatement => n.file .include
  | .form .useStatement => n.file .use
  | _ => n.unsupported

/-! ## Items -/

/-- The items of a module: those of its block, or the one item that it is made of. The block of a
module does not open a second scope. -/
def moduleBody (body : Reading) : Read (List Item) :=
  match body.label with
  | .form .unionBlock => body.items
  | _ => do
    let item ← body.item
    pure [item]

/-- A module is entered into the registry before its body is read. -/
def asModule : Read Item := do
  let name ← n.nameIn .name
  let params ← n.params
  update fun c => c.defineModule name params n.span
  let body ← n.need .body
  let items ← inScope .module n.span do
    update fun c => c.declareParams params
    moduleBody body
  pure (.moduleDef name params items n.span)

/-- A function is entered into the registry before its body is read. -/
def asFunction : Read Item := do
  let name ← n.nameIn .name
  let params ← n.params
  update fun c => c.defineFunction name params n.span
  let body ← inScope .function n.span do
    update fun c => c.declareParams params
    n.exprIn .body
  pure (.functionDef name params body n.span)

def asItem (self : Read Stmt) : Read Item :=
  match n.label with
  | .form .moduleItem => n.asModule
  | .form .functionItem => n.asFunction
  | .form .varDeclaration => do
    let name ← n.nameIn .name
    let value ← n.exprIn .value
    update fun c => c.assign name value n.span
    pure (.variableDef name value n.span)
  | _ => do
    let s ← self
    pure (.stmt s)

/-- All readings of a node in a role. -/
def reading (role : Option Role) : Reading where
  label := n.label
  region := n.region
  role := role
  item := n.asItem n.asStmt
  items := Read.each Reading.item n.children
  stmt := n.asStmt
  expr := n.asExpr
  tail := n.asTail n.asExpr
  argument := n.asArgument n.asExpr
  arguments := n.asArguments
  assignment := n.asAssignment
  assignments := n.asAssignments
  parameter := n.asParameter
  parameters := n.asParameters

end Shape

section

variable (source : List Char)

mutual

/-- All readings of a tree. -/
def Tree.reading : Tree → Reading
  | ⟨label, region, role, _, _, children⟩ =>
    Shape.reading ⟨source, label, region, Tree.readings children⟩ role

def Tree.readings : List Tree → List Reading
  | [] => []
  | t :: ts => t.reading :: Tree.readings ts

end

end

end Scad
