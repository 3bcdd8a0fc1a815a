import Scad.Grammar.Parse
import Scad.Program.Printer
import Scad.Program.Reading
import Scad.Program.Visit

/-!
# Programs

A program is a list of items with the context that their declarations make. It is read from a
labelled tree without faults.
-/

namespace Scad

/-- A whole file. -/
structure Program where
  items : List Item
  span : Span
  context : Context

/-! ## Faults in a tree -/

/-- The first line of a text. -/
def firstLine (cs : List Char) : List Char :=
  let line := cs.takeWhile (· ≠ '\n')
  if line.length < cs.length ∧ line.getLast? = some '\r' then line.dropLast else line

/-- What a broken node is reported as: the first line of the text it covers. -/
def brokenCause (text : List Char) : Malformed :=
  match Text.trimBlanks text with
  | [] => .unexpectedEnd
  | cs => .unexpected (String.ofList (firstLine cs))

section

variable (source : List Char)

mutual

/-- The first node that stands for a fault, each node before its children. -/
def Tree.firstFault? : Tree → Option Failure
  | ⟨label, region, _, missing, broken, children⟩ =>
    if missing then some (.malformed (.missing label.name) (.ofRegion region))
    else if broken then some (.malformed (brokenCause (textIn source region)) (.ofRegion region))
    else Tree.firstFaultIn? children

def Tree.firstFaultIn? : List Tree → Option Failure
  | [] => none
  | t :: ts =>
    match t.firstFault? with
    | some f => some f
    | none => Tree.firstFaultIn? ts

end

end

namespace Program

/-- The program of a labelled tree over a source. -/
def ofTree (source : List Char) (t : Tree) : Except Failure Program :=
  match t.firstFault? source with
  | some f => .error f
  | none =>
    if t.label = .form .sourceFile then
      let span := Span.ofRegion t.region
      let (result, context) := (t.reading source).items.run (.start span)
      match result with
      | .ok items => .ok ⟨items, span, context.finish⟩
      | .error f => .error f
    else .error (.unsupported t.label.name (.ofRegion t.region))

/-- The program of a source text. -/
def parse (source : List Char) : Except Failure Program :=
  ofTree source (SyntaxTree.ofSource source).root.toTree

/-- The text of a program. -/
def print (p : Program) (layout : Layout) : String := printItems p.items layout

/-- The same program, wherever its parts stand. -/
def agree (a b : Program) : Bool :=
  Item.agreeAll .ignored a.items b.items && a.context.agree .ignored b.context

/-- The same program with everything in the same place. -/
def equal (a b : Program) : Bool :=
  Item.agreeAll .exact a.items b.items && a.span == b.span && a.context.equal b.context

/-- A visit of all parts of a program. -/
def accept {m : Type → Type} [Monad m] (v : Visitor m) (p : Program) : m Unit :=
  Item.visitAll v p.items

/-- A visit that does something at each part and walks on. -/
def visit {m : Type → Type} [Monad m] (enter : Part → m Unit) (p : Program) : m Unit :=
  p.accept (.entering enter)

end Program
end Scad
