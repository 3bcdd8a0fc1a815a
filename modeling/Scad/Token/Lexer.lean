import Scad.Source.Cursor
import Scad.Text.Blank
import Scad.Text.Numeric
import Scad.Token

/-!
# From text to tokens

A scanner looks at the text ahead and gives back the part of it that is its token, always the
longest one. Blanks and comments between tokens are dropped. No text is refused: what starts no
token becomes a token of kind `error`.
-/

namespace Scad.Lexer

/-! ## Between tokens -/

/-- Where in the text between two tokens we are. -/
inductive Gap where
  | blank
  | lineComment
  | blockComment

/-- The blanks and comments at the start of a text. A line comment runs up to the end of its line, a
block comment up to its closing mark or, without one, to the end of the text. -/
def gap : Gap → List Char → List Char
  | _, [] => []
  | .lineComment, c :: cs => c :: gap (if c = '\n' then .blank else .lineComment) cs
  | .blockComment, '*' :: '/' :: cs => '*' :: '/' :: gap .blank cs
  | .blockComment, c :: cs => c :: gap .blockComment cs
  | .blank, '/' :: '/' :: cs => '/' :: '/' :: gap .lineComment cs
  | .blank, '/' :: '*' :: cs => '/' :: '*' :: gap .blockComment cs
  | .blank, c :: cs => if Text.isBlank c then c :: gap .blank cs else []

/-! ## Numbers -/

/-- The longest run of digits. -/
def digits (cs : List Char) : List Char := cs.takeWhile Char.isDigit

/-- A point and the digits behind it, if there are any. -/
def fraction : List Char → List Char
  | '.' :: cs => '.' :: digits cs
  | _ => []

/-- The sign of an exponent, which may be left out. -/
def exponentSign : List Char → List Char
  | '+' :: _ => ['+']
  | '-' :: _ => ['-']
  | _ => []

/-- An exponent: a mark, a sign and at least one digit. Without digits there is no exponent. -/
def exponent : List Char → List Char
  | c :: cs =>
    if c = 'e' ∨ c = 'E' then
      let sign := exponentSign cs
      match digits (cs.drop sign.length) with
      | [] => []
      | ds => c :: sign ++ ds
    else []
  | [] => []

/-- The number at the start of a text that begins with a digit or with a point and a digit. -/
def numeral (cs : List Char) : List Char :=
  let whole := digits cs
  let mantissa := whole ++ fraction (cs.drop whole.length)
  mantissa ++ exponent (cs.drop mantissa.length)

/-! ## Words, strings and paths -/

/-- A character that goes on with a word. -/
def isWordChar (c : Char) : Bool := Text.isAlphanumeric c || c == '_'

/-- A character that starts a word. -/
def startsWord (c : Char) : Bool := Text.isAlphabetic c || c == '_'

/-- The rest of a string behind its opening quote, and whether the closing quote is there. A
backslash takes the next character with it, whatever it is. -/
def stringTail : List Char → List Char × Bool
  | [] => ([], false)
  | '"' :: _ => (['"'], true)
  | '\\' :: c :: cs =>
    let tail := stringTail cs
    ('\\' :: c :: tail.1, tail.2)
  | c :: cs =>
    let tail := stringTail cs
    (c :: tail.1, tail.2)

/-- The rest of a path behind its `<`, and whether the closing `>` stands on the same line. -/
def pathTail (cs : List Char) : List Char × Bool :=
  let body := cs.takeWhile fun c => c ≠ '>' ∧ c ≠ '\n'
  match cs.drop body.length with
  | '>' :: _ => (body ++ ['>'], true)
  | _ => (body, false)

/-- A mark of two characters if the second one follows, else of one. -/
def oneOrTwo (first second : Char) (double single : TokenKind) (cs : List Char) :
    TokenKind × List Char :=
  if cs.head? = some second then (double, [first, second]) else (single, [first])

/-- A mark of one character. -/
def single? : Char → Option TokenKind
  | '(' => some .lparen
  | ')' => some .rparen
  | '[' => some .lbracket
  | ']' => some .rbracket
  | '\x7b' => some .lbrace
  | '\x7d' => some .rbrace
  | ';' => some .semicolon
  | ',' => some .comma
  | '+' => some .plus
  | '-' => some .minus
  | '*' => some .star
  | '/' => some .slash
  | '%' => some .percent
  | '^' => some .caret
  | '#' => some .hash
  | '?' => some .question
  | ':' => some .colon
  | _ => none

/-- The kind and the characters of the token that starts with `c` and goes on in `cs`. -/
def scanFrom (c : Char) (cs : List Char) : TokenKind × List Char :=
  match single? c with
  | some k => (k, [c])
  | none =>
    match c with
    | '=' => oneOrTwo '=' '=' .eqEq .assign cs
    | '!' => oneOrTwo '!' '=' .bangEq .bang cs
    | '<' => oneOrTwo '<' '=' .ltEq .lt cs
    | '>' => oneOrTwo '>' '=' .gtEq .gt cs
    | '&' => oneOrTwo '&' '&' .andAnd .error cs
    | '|' => oneOrTwo '|' '|' .orOr .error cs
    | '.' => if (digits cs).isEmpty then (.dot, ['.']) else (.number, numeral ('.' :: cs))
    | '"' =>
      let tail := stringTail cs
      (if tail.2 then .string else .error, '"' :: tail.1)
    | '$' => (.special, '$' :: cs.takeWhile isWordChar)
    | c =>
      if c.isDigit then (.number, numeral (c :: cs))
      else if startsWord c then
        let word := c :: cs.takeWhile isWordChar
        ((TokenKind.keyword? (String.ofList word)).getD .identifier, word)
      else (.error, [c])

/-- The token at the start of a text that is not empty. Right after `include` or `use` a `<` opens a
path. -/
def scan (path : Bool) (c : Char) (cs : List Char) : TokenKind × List Char :=
  if path ∧ c = '<' then
    let tail := pathTail cs
    (if tail.2 then .path else .error, '<' :: tail.1)
  else scanFrom c cs

/-! ## All tokens -/

/-- The tokens of a text and the position of its end. -/
structure Tokens where
  tokens : List Token
  stop : Position

/-- Scans token after token. Each round takes at least one character, so that as many rounds as
there are characters ahead are enough. -/
def rounds : Nat → Bool → Cursor → Tokens
  | 0, _, c => ⟨[], c.position⟩
  | n + 1, path, c =>
    let c := c.skip (gap .blank c.ahead).length
    match c.ahead with
    | [] => ⟨[], c.position⟩
    | x :: xs =>
      let (kind, text) := scan path x xs
      let next := c.skip text.length
      let rest := rounds n kind.opensPath next
      ⟨⟨kind, String.ofList text, ⟨c.position, next.position⟩⟩ :: rest.tokens, rest.stop⟩

end Lexer

/-- The tokens of a source text. -/
def tokenize (source : List Char) : Lexer.Tokens :=
  Lexer.rounds (source.length + 1) false (Cursor.start source)

namespace Lexer.Tokens

/-- The token that ends the list. -/
def eof (ts : Tokens) : Token := Token.eofAt ts.stop

/-- All tokens with the closing one. -/
def all (ts : Tokens) : List Token := ts.tokens ++ [ts.eof]

/-- The first `n` tokens. Where the closing token is cut off, the text ends with the last token. -/
def cut (ts : Tokens) (n : Nat) : Tokens :=
  if n ≤ ts.tokens.length then
    ⟨ts.tokens.take n, ((ts.tokens.take n).getLast?.map (·.region.stop)).getD {}⟩
  else ts

end Lexer.Tokens
end Scad
