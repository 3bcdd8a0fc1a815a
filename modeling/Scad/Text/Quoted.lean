/-!
# Quoted strings

A string literal stands between double quotes, and a backslash inside it changes the meaning of what
follows. `encode` writes a value as a literal, `decode` reads one. Reading accepts more than writing
produces: characters by their code, and backslashes that mean nothing, which stand for themselves.
-/

namespace Scad.Text.Quoted

/-- The letter behind the backslash for a character that cannot stand for itself. -/
def escapeLetter? : Char → Option Char
  | '"' => some '"'
  | '\\' => some '\\'
  | '\n' => some 'n'
  | '\t' => some 't'
  | '\r' => some 'r'
  | _ => none

/-- The inside of a literal. -/
def escape : List Char → List Char
  | [] => []
  | c :: cs =>
    match escapeLetter? c with
    | some l => '\\' :: l :: escape cs
    | none => c :: escape cs

/-- A value as a literal. -/
def encode (cs : List Char) : List Char := '"' :: (escape cs ++ ['"'])

/-- The character that a letter behind a backslash stands for. -/
def letterMeaning? : Char → Option Char
  | '"' => some '"'
  | '\\' => some '\\'
  | 'n' => some '\n'
  | 't' => some '\t'
  | 'r' => some '\r'
  | _ => none

/-- How many hexadecimal digits follow a letter that announces a code. -/
def codeLength? : Char → Option Nat
  | 'x' => some 2
  | 'u' => some 4
  | 'U' => some 6
  | _ => none

/-- The value of a hexadecimal digit. -/
def hexDigit? (c : Char) : Option Nat :=
  if c.isDigit then some (c.toNat - '0'.toNat)
  else if 'a' ≤ c ∧ c ≤ 'f' then some (c.toNat - 'a'.toNat + 10)
  else if 'A' ≤ c ∧ c ≤ 'F' then some (c.toNat - 'A'.toNat + 10)
  else none

/-- The value of a run of hexadecimal digits. -/
def hexValue? (cs : List Char) : Option Nat :=
  cs.foldl (fun n c => n.bind fun n => (hexDigit? c).map fun d => 16 * n + d) (some 0)

/-- The character with a code of `n` digits. The code zero and codes without a character do not
count. -/
def coded? (n : Nat) (cs : List Char) : Option Char :=
  let ds := cs.take n
  if ds.length = n then
    match hexValue? ds with
    | some code => if h : code.isValidChar ∧ code ≠ 0 then some (Char.ofNatAux code h.1) else none
    | none => none
  else none

/-- The value of the inside of a literal. The number tells how many characters ahead belong to a
code that was already read. -/
def unescape : Nat → List Char → List Char
  | _, [] => []
  | n + 1, _ :: cs => unescape n cs
  | 0, '\\' :: l :: cs =>
    match letterMeaning? l with
    | some c => c :: unescape 0 cs
    | none =>
      match (codeLength? l).bind fun n => (coded? n cs).map fun c => (n, c) with
      | some (n, c) => c :: unescape n cs
      | none => '\\' :: l :: unescape 0 cs
  | 0, c :: cs => c :: unescape 0 cs

/-- A text without the quote at its start and, if there was one, the quote at its end. -/
def stripQuotes : List Char → List Char
  | '"' :: cs => if cs.getLast? = some '"' then cs.dropLast else cs
  | cs => cs

/-- The value of a literal. -/
def decode (cs : List Char) : List Char := unescape 0 (stripQuotes cs)

end Scad.Text.Quoted
