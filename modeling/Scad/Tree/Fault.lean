import Scad.Token

/-!
# Faults

What can be wrong with the tokens of a source, and the words in which it is said.
-/

namespace Scad

/-- What the grammar was looking for. -/
inductive Wanted where
  | token (k : TokenKind)
  | statement | childStatement | path | moduleName | functionName | parameterName | bindingName
  | memberName | expression
deriving DecidableEq, Repr

def Wanted.text : Wanted → String
  | token k => k.text
  | statement => "statement"
  | childStatement => "child statement"
  | path => "<path>"
  | moduleName => "module name"
  | functionName => "function name"
  | parameterName => "parameter name"
  | bindingName => "binding name"
  | memberName => "member name"
  | expression => "expression"

/-- Why the tokens do not fit the grammar. -/
inductive Cause where
  | unexpectedToken (found : String) (wanted : Wanted)
  | unexpectedEnd (wanted : Wanted)
  | missing (token : TokenKind)
  | openString
  | openPath
  | unexpectedCharacter (text : String)
deriving DecidableEq, Repr

def Cause.message : Cause → String
  | unexpectedToken found wanted => "unexpected token '" ++ found ++ "', expected " ++ wanted.text
  | unexpectedEnd wanted => "unexpected end of file, expected " ++ wanted.text
  | missing token => "missing '" ++ token.text ++ "'"
  | openString => "unterminated string literal"
  | openPath => "unterminated include path"
  | unexpectedCharacter text => "unexpected character '" ++ text ++ "'"

/-- A cause and where it shows. -/
structure Fault where
  cause : Cause
  region : Region
deriving DecidableEq, Repr

namespace Fault

def display (f : Fault) : String :=
  f.cause.message ++ " at byte " ++ toString f.region.start.byte

/-- A token that was not written. -/
def absent (k : TokenKind) (p : Position) : Fault := ⟨.missing k, Region.emptyAt p⟩

/-- A token that does not fit. A token of kind `error` is a fault of its own, whatever was wanted:
it is an open string or path, or a stray character. -/
def ofToken (t : Token) (wanted : Wanted) : Fault :=
  let cause :=
    match t.kind with
    | .eof => .unexpectedEnd wanted
    | .error =>
      match t.text.toList.head? with
      | some '"' => .openString
      | some '<' => .openPath
      | _ => .unexpectedCharacter t.text
    | _ => .unexpectedToken t.text wanted
  ⟨cause, t.region⟩

end Fault
end Scad
