import Scad.Source.Region
import Scad.Text.Slice

/-!
# Spans

Where a part of a program stands in its source. The span of a leaf (a name or a literal) also keeps
the text it covers.
-/

namespace Scad

/-- A region and, for a leaf, the text in it. -/
structure Span extends Region where
  text : Option String := none
deriving DecidableEq, Repr, Inhabited

namespace Span

def ofRegion (r : Region) : Span := { r with }

def emptyAt (p : Position) : Span := ofRegion (Region.emptyAt p)

/-- The empty span at the start of this one. -/
def startPoint (s : Span) : Span := emptyAt s.start

/-- The empty span at the end of this one. -/
def endPoint (s : Span) : Span := emptyAt s.stop

/-- Whether no byte is covered. -/
def isPoint (s : Span) : Bool := s.start.byte == s.stop.byte

/-- Whether `t` lies in `s`; the ends may touch. -/
def contains (s t : Span) : Bool := s.start.byte ≤ t.start.byte && t.stop.byte ≤ s.stop.byte

/-- The span from the earlier start to the later end, without text. On a tie the points of the
first span are kept. -/
def merge (s t : Span) : Span :=
  ofRegion
    ⟨if s.start.byte ≤ t.start.byte then s.start else t.start,
      if t.stop.byte ≤ s.stop.byte then s.stop else t.stop⟩

/-- The span with the text that it covers, if its ends fall on characters of the source. -/
def withText (s : Span) (source : List Char) : Span :=
  { s with text := (Text.slice? source s.start.byte s.stop.byte).map String.ofList }

/-- Line and column of the start, counted from one. -/
def display (s : Span) : String :=
  toString (s.start.line + 1) ++ ":" ++ toString (s.start.column + 1)

end Span
end Scad
