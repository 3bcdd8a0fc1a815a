import Scad.Source.Position

/-!
# Regions

A stretch of source text between two positions. Tokens and the nodes of the syntax tree have one.
-/

namespace Scad

/-- The text from `start` up to `stop`. -/
structure Region where
  start : Position := {}
  stop : Position := {}
deriving DecidableEq, Repr, Inhabited

namespace Region

/-- The empty region at a point, for what is not written in the source. -/
def emptyAt (p : Position) : Region := ⟨p, p⟩

/-- A region of the first line, where bytes and columns agree. -/
def ofBytes (start stop : Nat) : Region := ⟨⟨start, 0, start⟩, ⟨stop, 0, stop⟩⟩

/-- The number of bytes, zero for a region that ends before it starts. -/
def size (r : Region) : Nat := r.stop.byte - r.start.byte

def isEmpty (r : Region) : Bool := r.stop.byte ≤ r.start.byte

/-- The least region around two. -/
def hull (a b : Region) : Region := ⟨a.start.min b.start, a.stop.max b.stop⟩

/-- The same region, with an end before the start moved up to it. -/
def forward (r : Region) : Region :=
  ⟨r.start, { r.stop with byte := Nat.max r.stop.byte r.start.byte }⟩

end Region
end Scad
