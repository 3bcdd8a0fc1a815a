/-!
# Blanks

The characters with the Unicode property `White_Space`. They stand between tokens and mean nothing.
-/

namespace Scad.Text

/-- The code points past ASCII that are blank. -/
def blankRanges : List (Nat × Nat) :=
  [(0x85, 0x85), (0xa0, 0xa0), (0x1680, 0x1680), (0x2000, 0x200a), (0x2028, 0x2029),
   (0x202f, 0x202f), (0x205f, 0x205f), (0x3000, 0x3000)]

/-- A blank; in ASCII these are the space and the five controls from tab to carriage return. -/
def isBlank (c : Char) : Bool :=
  if c.toNat < 128 then c.toNat == 32 || (9 ≤ c.toNat && c.toNat ≤ 13)
  else blankRanges.any fun r => r.1 ≤ c.toNat && c.toNat ≤ r.2

/-- The text without the blanks at either end. -/
def trimBlanks (cs : List Char) : List Char :=
  ((cs.dropWhile isBlank).reverse.dropWhile isBlank).reverse

end Scad.Text
