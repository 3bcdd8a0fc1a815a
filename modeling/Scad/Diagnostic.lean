import Scad.Failure
import Scad.Scope.Context

/-!
# Diagnostics

What is told to the user about a source: failures, and warnings about names that look like built-in
ones and are not.
-/

namespace Scad

/-- How bad it is. `internal` stands for a fault that is not the user's. -/
inductive Severity where
  | error | warning | internal
deriving DecidableEq, Repr

def Severity.text : Severity → String
  | error => "error"
  | warning => "warning"
  | internal => "internal error"

structure Diagnostic where
  severity : Severity
  message : String
  span : Span
  hint : Option String := none
deriving DecidableEq, Repr

namespace Diagnostic

/-- The same with a hint; an earlier hint is replaced. -/
def withHint (d : Diagnostic) (hint : String) : Diagnostic := { d with hint := some hint }

/-- Whether there is no result. -/
def isError (d : Diagnostic) : Bool := d.severity != .warning

def display (d : Diagnostic) : String :=
  d.severity.text ++ " at " ++ d.span.display ++ ": " ++ d.message ++
    match d.hint with
    | some hint => "\n  hint: " ++ hint
    | none => ""

def ofFailure : Failure → Diagnostic
  | .malformed cause span => { severity := .error, message := cause.message, span }
  | .violation cause span =>
    { severity := .error, message := cause.rule.text ++ ": " ++ cause.details, span }
  | .unsupported label span =>
    { severity := .internal, message := "no conversion for syntax node `" ++ label ++ "`", span
      hint := some "the parser and converter are out of sync; please report this as a bug" }

end Diagnostic

/-- The special names that mean something without being bound. -/
def knownSpecials : List String :=
  ["$fn", "$fa", "$fs", "$t", "$preview", "$children", "$vpr", "$vpt", "$vpd", "$vpf",
    "$parent_modules"]

/-- A warning for each special name that is bound and means nothing by itself. -/
def Context.warnings (c : Context) : List Diagnostic :=
  (c.specials.entries.filter fun (name, _) => !knownSpecials.contains name).map fun (name, b) =>
    { severity := .warning, message := "`" ++ name ++ "` is not a built-in special variable"
      span := b.span
      hint := some "user-defined `$` variables are dynamically scoped; check the spelling" }

end Scad
