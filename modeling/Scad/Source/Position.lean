import Scad.Text.Slice

/-!
# Positions

A point of a source text, counted in bytes and, for people, in lines and columns. Lines and columns
start at zero, and a column is a number of characters.
-/

namespace Scad

/-- A point between two characters of a source text. -/
structure Position where
  byte : Nat := 0
  line : Nat := 0
  column : Nat := 0
deriving DecidableEq, Repr, Inhabited

namespace Position

/-- The point behind the character `c`, where `p` is the point in front of it. -/
def next (p : Position) (c : Char) : Position :=
  if c = '\n' then ⟨p.byte + c.utf8Size, p.line + 1, 0⟩
  else ⟨p.byte + c.utf8Size, p.line, p.column + 1⟩

/-- The point behind a text that starts at `p`. -/
def after (p : Position) (cs : List Char) : Position := cs.foldl next p

/-- Byte first, then line, then column. -/
def compare (p q : Position) : Ordering :=
  ((Ord.compare p.byte q.byte).then (Ord.compare p.line q.line)).then
    (Ord.compare p.column q.column)

/-- The earlier of two points. -/
def min (p q : Position) : Position := if (p.compare q).isLE then p else q

/-- The later of two points. -/
def max (p q : Position) : Position := if (p.compare q).isLE then q else p

/-! ## Moving on -/

@[simp]
theorem after_nil (p : Position) : p.after [] = p := rfl

@[simp]
theorem after_cons (p : Position) (c : Char) (cs : List Char) :
    p.after (c :: cs) = (p.next c).after cs := rfl

theorem after_append (p : Position) (a b : List Char) : p.after (a ++ b) = (p.after a).after b := by
  simp [after]

theorem next_byte (p : Position) (c : Char) : (p.next c).byte = p.byte + c.utf8Size := by
  unfold next
  split <;> rfl

/-- The byte of a position counts the bytes of the text passed. -/
theorem after_byte (p : Position) (cs : List Char) :
    (p.after cs).byte = p.byte + Text.byteSize cs := by
  induction cs generalizing p with
  | nil => rfl
  | cons c cs ih => rw [after_cons, ih, next_byte, Text.byteSize_cons, Nat.add_assoc]

end Position
end Scad
