import Scad.Token.Lexer
import Scad.Tree.Fault
import Scad.Tree.Node

/-!
# The tokens ahead

A place in a list of tokens: what is still ahead, and the token passed last, whose end is the end of
every node that is complete here.
-/

namespace Scad

/-- A place between two tokens. Behind the last one `eof` is seen, again and again. -/
structure Stream where
  ahead : List Token
  /-- The number of tokens ahead. -/
  count : Nat
  last : Option Token
  eof : Token

/-- What the grammar may look at: the next token and the kind of the one behind it. -/
structure Ahead where
  kind : TokenKind
  text : String
  second : TokenKind

namespace Stream

/-- In front of the first token. -/
def start (ts : Lexer.Tokens) : Stream := ⟨ts.tokens, ts.tokens.length, none, ts.eof⟩

/-- The next token. -/
def peek (s : Stream) : Token := s.ahead.headD s.eof

def look (s : Stream) : Ahead :=
  ⟨s.peek.kind, s.peek.text, (s.ahead.tail.headD s.eof).kind⟩

/-- Where the next token starts. -/
def position (s : Stream) : Position := s.peek.region.start

/-- Moves past the next token; at the end there is none to pass. -/
def advance (s : Stream) : Stream :=
  match s.ahead with
  | [] => s
  | t :: ts => { s with ahead := ts, count := s.count - 1, last := some t }

/-- The region from a position up to the end of the token passed last. It is empty if no token was
passed since. -/
def regionFrom (s : Stream) (start : Position) : Region :=
  match s.last with
  | none => Region.emptyAt start
  | some t =>
    if t.region.stop.byte < start.byte then Region.emptyAt start else ⟨start, t.region.stop⟩

/-- Where a token that is not written would stand: right behind the token passed last. -/
def gapPosition (s : Stream) : Position :=
  match s.last with
  | none => s.position
  | some t => t.region.stop

/-! ## After a fault -/

/-- The tokens at which a broken statement ends because the next one starts there, or because the
block around it closes there. -/
def startsAfresh : TokenKind → Bool
  | .kwModule | .kwFunction | .kwFor | .kwIf | .kwInclude | .kwUse | .rbrace => true
  | _ => false

/-- Moves on until a semicolon was passed or a statement starts. -/
def seek (eof : Token) : List Token → Nat → Option Token → Stream
  | [], n, last => ⟨[], n, last, eof⟩
  | t :: ts, n, last =>
    if (last.map (·.kind)) == some .semicolon || startsAfresh t.kind then ⟨t :: ts, n, last, eof⟩
    else seek eof ts (n - 1) (some t)

/-- The place at which to go on after a statement that began at one place and failed at another. If
it took no token, one is skipped first; a closing brace is then skipped alone. -/
def resume (s began : Stream) : Stream :=
  if s.count = began.count then
    let next := s.advance
    if s.peek.kind = .rbrace then next else seek next.eof next.ahead next.count next.last
  else seek s.eof s.ahead s.count s.last

end Stream
end Scad
