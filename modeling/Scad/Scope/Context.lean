import Scad.Program.Agree
import Scad.Scope.Table

/-!
# The context of a program

A side table to a program: its nested scopes with the names declared in each, and registries of all
modules, all functions and all special names that are bound anywhere.
-/

namespace Scad

/-- Why a scope was opened. -/
inductive ScopeKind where
  | root | module | function | letIn | loop | assign | comprehension | lambda | block
deriving DecidableEq, Repr

/-- A declared name, with its value if it has one. -/
structure Binding where
  name : Name
  value : Option Expr

/-- A value bound to a special name, and where. -/
structure SpecialBinding where
  value : Expr
  span : Span

/-- A defined module or function, and the scope of the definition. -/
structure Signature where
  name : Name
  params : List Param
  span : Span
  scope : Nat

structure Scope where
  id : Nat
  parent : Option Nat
  kind : ScopeKind
  span : Span
  names : Table Binding := {}

/-- The scopes by number and the registries. `stack` holds the scopes that are open, the innermost
first. -/
structure Context where
  scopes : List Scope
  specials : Table SpecialBinding := {}
  modules : Table Signature := {}
  functions : Table Signature := {}
  stack : List Nat

namespace Context

/-- One scope, the root, that covers a span and stays open. -/
def start (span : Span) : Context :=
  { scopes := [{ id := 0, parent := none, kind := .root, span }], stack := [0] }

/-! ## Building -/

/-- The innermost open scope. -/
def current (c : Context) : Nat := c.stack.headD 0

/-- Opens a scope in the current one. -/
def push (c : Context) (kind : ScopeKind) (span : Span) : Context :=
  let id := c.scopes.length
  { c with
    scopes := c.scopes ++ [{ id, parent := some c.current, kind, span }]
    stack := id :: c.stack }

/-- Closes the current scope. The root is never closed. -/
def pop (c : Context) : Context :=
  match c.stack with
  | _ :: rest@(_ :: _) => { c with stack := rest }
  | _ => c

/-- The scope that `pop` closes. -/
def closing? (c : Context) : Option Nat :=
  match c.stack with
  | id :: _ :: _ => some id
  | _ => none

/-- Declares a name in the current scope. -/
def declare (c : Context) (name : Name) (value : Option Expr) : Context :=
  { c with
    scopes := c.scopes.modify c.current fun s =>
      { s with names := s.names.insert name.text ⟨name, value⟩ } }

/-- Binds a name to a value; a special name is registered as well. -/
def assign (c : Context) (name : Name) (value : Expr) (span : Span) : Context :=
  let c := c.declare name (some value)
  if name.isSpecial then { c with specials := c.specials.insert name.text ⟨value, span⟩ } else c

def defineModule (c : Context) (name : Name) (params : List Param) (span : Span) : Context :=
  { c with modules := c.modules.insert name.text ⟨name, params, span, c.current⟩ }

def defineFunction (c : Context) (name : Name) (params : List Param) (span : Span) : Context :=
  { c with functions := c.functions.insert name.text ⟨name, params, span, c.current⟩ }

/-- Declares parameters, with their defaults for values. -/
def declareParams (c : Context) (params : List Param) : Context :=
  params.foldl (fun c p => c.declare p.name p.default) c

/-- Closes all scopes. -/
def finish (c : Context) : Context := { c with stack := [] }

/-! ## Queries -/

def scope? (c : Context) (id : Nat) : Option Scope := c.scopes[id]?

/-- Looks a name up in a scope and then in the scopes around it. At most as many scopes are tried as
there are. -/
def lookupIn (c : Context) (name : String) : Nat → Nat → Option Binding
  | 0, _ => none
  | n + 1, id =>
    match c.scope? id with
    | none => none
    | some s =>
      match s.names.get? name with
      | some b => some b
      | none => s.parent.bind (c.lookupIn name n)

/-- The innermost declaration of a name that is seen from a scope. -/
def lookup (c : Context) (id : Nat) (name : String) : Option Binding :=
  c.lookupIn name c.scopes.length id

/-- The scope at a place: of all that contain it the one opened last, or the root. -/
def scopeAt (c : Context) (span : Span) : Nat :=
  match c.scopes.reverse.find? fun s => s.span.contains span with
  | some s => s.id
  | none => 0

end Context

/-! ## Comparing -/

def Binding.agree (w : Places) (a b : Binding) : Bool :=
  a.name.agree w b.name && Expr.agreeOption w a.value b.value

def SpecialBinding.agree (w : Places) (a b : SpecialBinding) : Bool :=
  a.value.agree w b.value && w a.span b.span

def Signature.agree (w : Places) (a b : Signature) : Bool :=
  a.name.agree w b.name && Param.agreeAll w a.params b.params && w a.span b.span &&
    a.scope == b.scope

/-- What two scopes have in common apart from their names. -/
def Scope.alike (w : Places) (a b : Scope) : Bool :=
  a.id == b.id && a.parent == b.parent && a.kind == b.kind && w a.span b.span

def Scope.agree (w : Places) (a b : Scope) : Bool :=
  a.alike w b && a.names.agree (Binding.agree w) b.names

def Scope.equal (a b : Scope) : Bool :=
  a.alike .exact b && a.names.equal (Binding.agree .exact) b.names

/-- Lists of the same length that are related place by place. -/
def listAgree {α : Type} (same : α → α → Bool) : List α → List α → Bool
  | [], [] => true
  | a :: as, b :: bs => same a b && listAgree same as bs
  | _, _ => false

namespace Context

/-- The same scopes and registries with entries in the same order. -/
def agree (w : Places) (a b : Context) : Bool :=
  listAgree (Scope.agree w) a.scopes b.scopes &&
    a.specials.agree (SpecialBinding.agree w) b.specials &&
    a.modules.agree (Signature.agree w) b.modules &&
    a.functions.agree (Signature.agree w) b.functions

/-- The same scopes and registries at the same places, with the same scopes open. The order of
entries does not count. -/
def equal (a b : Context) : Bool :=
  listAgree Scope.equal a.scopes b.scopes &&
    a.specials.equal (SpecialBinding.agree .exact) b.specials &&
    a.modules.equal (Signature.agree .exact) b.modules &&
    a.functions.equal (Signature.agree .exact) b.functions && a.stack == b.stack

end Context
end Scad
