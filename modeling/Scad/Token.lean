import Scad.Source.Region

/-!
# Tokens

The words of the language: their kinds, how each kind is named in messages, and the reserved words.
-/

namespace Scad

/-- What a token is. `error` stands for a character that starts no token and for a string or a path
that is not closed. -/
inductive TokenKind where
  | number | string | path | identifier | special
  | kwTrue | kwFalse | kwUndef | kwModule | kwFunction | kwIf | kwElse | kwFor | kwLet | kwEach
  | kwInclude | kwUse
  | plus | minus | star | slash | percent | caret | bang | assign | eqEq | bangEq
  | lt | gt | ltEq | gtEq | andAnd | orOr | question | colon | hash
  | lparen | rparen | lbracket | rbracket | lbrace | rbrace | semicolon | comma | dot
  | eof | error
deriving DecidableEq, Repr, Inhabited

namespace TokenKind

/-- The spelling of a kind that has one spelling, and the name of the class for the others. -/
def text : TokenKind → String
  | number => "number"
  | string => "string"
  | path => "include path"
  | identifier => "identifier"
  | special => "special variable"
  | kwTrue => "true"
  | kwFalse => "false"
  | kwUndef => "undef"
  | kwModule => "module"
  | kwFunction => "function"
  | kwIf => "if"
  | kwElse => "else"
  | kwFor => "for"
  | kwLet => "let"
  | kwEach => "each"
  | kwInclude => "include"
  | kwUse => "use"
  | plus => "+"
  | minus => "-"
  | star => "*"
  | slash => "/"
  | percent => "%"
  | caret => "^"
  | bang => "!"
  | assign => "="
  | eqEq => "=="
  | bangEq => "!="
  | lt => "<"
  | gt => ">"
  | ltEq => "<="
  | gtEq => ">="
  | andAnd => "&&"
  | orOr => "||"
  | question => "?"
  | colon => ":"
  | hash => "#"
  | lparen => "("
  | rparen => ")"
  | lbracket => "["
  | rbracket => "]"
  | lbrace => "\x7b"
  | rbrace => "\x7d"
  | semicolon => ";"
  | comma => ","
  | dot => "."
  | eof => "end of file"
  | error => "error"

/-- The kinds of the reserved words. -/
def reserved : List TokenKind :=
  [kwTrue, kwFalse, kwUndef, kwModule, kwFunction, kwIf, kwElse, kwFor, kwLet, kwEach, kwInclude,
    kwUse]

/-- The reserved word with this spelling. -/
def keyword? (word : String) : Option TokenKind := reserved.find? fun k => k.text == word

/-- The marks `*`, `!`, `#` and `%` that may stand in front of a statement. -/
def isModifier : TokenKind → Bool
  | star | bang | hash | percent => true
  | _ => false

/-- After `include` and `use`, a `<` opens a path. -/
def opensPath : TokenKind → Bool
  | kwInclude | kwUse => true
  | _ => false

end TokenKind

/-- A word of the source: its kind, its exact text and where it stands. -/
structure Token where
  kind : TokenKind
  text : String
  region : Region
deriving DecidableEq, Repr, Inhabited

/-- The token behind the last one, at the end of the text. -/
def Token.eofAt (p : Position) : Token := ⟨.eof, "", Region.emptyAt p⟩

end Scad
