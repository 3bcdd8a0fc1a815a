import Scad.Text.Slice
import Scad.Token
import Scad.Tree.Form

/-!
# The syntax tree

A tree over the source that keeps nothing but structure: each node says what it is, where it stands
and what it is to its parent. Where the source breaks the grammar the tree has a node of kind
`error` over the part that was skipped, or an empty node for a closing token that is missing.
-/

namespace Scad

/-- What a node is. Only the empty node of a missing token has the kind of a token. -/
inductive Kind where
  | form (f : Form)
  | error
  | token (k : TokenKind)
deriving DecidableEq, Repr

namespace Kind

def name : Kind → String
  | form f => f.name
  | error => "ERROR"
  | token k => k.text

def isLiteral : Kind → Bool
  | form f => f.isLiteral
  | _ => false

end Kind

/-- A node with its children in source order. -/
structure Node where
  kind : Kind
  region : Region
  role : Option Role := none
  missing : Bool := false
  children : List Node := []

namespace Node

/-- The empty node of a token that should stand here. -/
def absent (k : TokenKind) (p : Position) : Node :=
  { kind := .token k, region := Region.emptyAt p, missing := true }

/-- The same node in a role. -/
def inRole (n : Node) (r : Role) : Node := { n with role := some r }

def isError (n : Node) : Bool := n.kind == .error

/-- The source text that a node covers. -/
def text (n : Node) (source : List Char) : List Char :=
  (Text.slice? source n.region.start.byte n.region.stop.byte).getD []

/-- The first child in a role. -/
def child? (n : Node) (r : Role) : Option Node := n.children.find? fun c => c.role == some r

/-- The first child of a kind. -/
def childOfKind? (n : Node) (k : Kind) : Option Node := n.children.find? fun c => c.kind == k

/-- The node that a list of child numbers leads to. -/
def descend? (n : Node) : List Nat → Option Node
  | [] => some n
  | i :: path => n.children[i]?.bind fun c => c.descend? path

mutual

/-- Whether an error node or a missing token is anywhere in the tree. -/
def hasError : Node → Bool
  | ⟨kind, _, _, missing, children⟩ => kind == .error || missing || anyError children

def anyError : List Node → Bool
  | [] => false
  | n :: ns => n.hasError || anyError ns

end

end Node
end Scad
