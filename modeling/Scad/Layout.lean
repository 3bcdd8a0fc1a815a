/-!
# Layout

The choices that are left open when a program is printed.
-/

namespace Scad

/-- How a program is laid out. -/
structure Layout where
  /-- Blanks for each level of nesting. -/
  indent : Nat := 2
  /-- Whether the last line ends with a newline. -/
  finalNewline : Bool := true
  indent_pos : 0 < indent := by decide
  indent_le : indent ≤ 8 := by decide

namespace Layout

/-- The widest indentation. -/
def maxIndent : Nat := 8

/-- The layout with this indentation, if it is wide enough and not too wide. -/
def ofIndent? (indent : Nat) (finalNewline : Bool) : Option Layout :=
  if h : 0 < indent ∧ indent ≤ 8 then some ⟨indent, finalNewline, h.1, h.2⟩ else none

/-- Why an indentation is refused. -/
def refusal (indent : Nat) : String :=
  "indent_width must be between 1 and " ++ toString maxIndent ++ ": " ++ toString indent

end Layout
end Scad
