import Scad.Token

/-!
# Levels of expressions

How tightly an operator binds. The level of a token decides how far an operand reaches.
-/

namespace Scad

/-- The levels from the loosest to the tightest. -/
inductive Level where
  | ternary | or | and | equality | comparison | term | factor | power | unary
deriving DecidableEq, Repr

namespace Level

def rank : Level → Nat
  | ternary => 1
  | or => 2
  | and => 3
  | equality => 4
  | comparison => 5
  | term => 6
  | factor => 7
  | power => 8
  | unary => 9

/-- The level one step tighter. -/
def tighter : Level → Level
  | ternary => or
  | or => and
  | and => equality
  | equality => comparison
  | comparison => term
  | term => factor
  | factor => power
  | power => unary
  | unary => unary

/-- The level of the operator that a token is behind an operand. -/
def ofToken? : TokenKind → Option Level
  | .question => some ternary
  | .orOr => some or
  | .andAnd => some and
  | .eqEq | .bangEq => some equality
  | .lt | .gt | .ltEq | .gtEq => some comparison
  | .plus | .minus => some term
  | .star | .slash | .percent => some factor
  | .caret => some power
  | _ => none

/-- The level of a right operand: powers group to the right, all other operators to the left. -/
def ofRight (l : Level) : Level := if l = power then power else l.tighter

end Level
end Scad
