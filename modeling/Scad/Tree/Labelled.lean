import Scad.Text.Blank
import Scad.Tree.Node

/-!
# Labelled trees

The trees from which programs are read. A labelled tree need not come from the grammar of this
library: its labels may be unknown, its children may be in any order, and its regions may lie
outside the source.
-/

namespace Scad

/-- What a node says it is. -/
inductive Label where
  | form (f : Form)
  | other (name : String)
deriving DecidableEq, Repr

namespace Label

def name : Label → String
  | form f => f.name
  | other s => s

def ofName (s : String) : Label :=
  match Form.ofName? s with
  | some f => form f
  | none => other s

/-- The label of a node that the grammar built. The node of a missing token is labelled with the
text of the token. -/
def ofKind : Kind → Label
  | .form f => form f
  | k => ofName k.name

end Label

/-- A node with a label, and flags for the nodes that stand for a fault in the source. -/
structure Tree where
  label : Label
  region : Region
  role : Option Role := none
  missing : Bool := false
  broken : Bool := false
  children : List Tree := []

mutual

/-- The labelled tree of a syntax tree. A region that ends before it starts is taken for empty. -/
def Node.toTree : Node → Tree
  | ⟨kind, region, role, missing, children⟩ =>
    { label := .ofKind kind, region := region.forward, role, missing
      broken := kind == .error
      children := Node.toTrees children }

def Node.toTrees : List Node → List Tree
  | [] => []
  | n :: ns => n.toTree :: Node.toTrees ns

end

end Scad
