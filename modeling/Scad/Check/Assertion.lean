import Scad.Program.Expr

/-!
# The arguments of assertions

An assertion takes a condition and a message, each by position or by name.
-/

namespace Scad

/-- What an argument of an assertion can be. -/
inductive AssertParam where
  | condition | message
deriving DecidableEq, Repr

namespace AssertParam

def text : AssertParam → String
  | condition => "condition"
  | message => "message"

/-- The parameters by position. -/
def all : List AssertParam := [condition, message]

def ofText? (s : String) : Option AssertParam := all.find? fun p => p.text == s

/-- The arguments that bind a parameter, each with the parameter it binds; `n` arguments by position
have gone before. -/
def bindingsFrom : Nat → List Arg → List (AssertParam × Arg)
  | _, [] => []
  | n, .positional v :: args =>
    match all[n]? with
    | some p => (p, .positional v) :: bindingsFrom (n + 1) args
    | none => bindingsFrom (n + 1) args
  | n, .named name v span :: args =>
    match ofText? name.text with
    | some p => (p, .named name v span) :: bindingsFrom n args
    | none => bindingsFrom n args

def bindings (args : List Arg) : List (AssertParam × Arg) := bindingsFrom 0 args

/-- The value that a parameter is bound to; the first binding counts. -/
def boundIn (p : AssertParam) (args : List Arg) : Option Expr :=
  ((bindings args).lookup p).map Arg.value

/-- The first entry whose key has occurred before. -/
def firstRepeat {α β : Type} [DecidableEq α] : List α → List (α × β) → Option (α × β)
  | _, [] => none
  | seen, (a, b) :: rest => if a ∈ seen then some (a, b) else firstRepeat (a :: seen) rest

/-- The first argument that binds a parameter again. -/
def firstRebinding (args : List Arg) : Option (AssertParam × Arg) := firstRepeat [] (bindings args)

end AssertParam
end Scad
