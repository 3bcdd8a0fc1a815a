import Scad.Number.Double

/-!
# Decimal numbers

A decimal is a natural number times a power of ten. Decimals are what numbers look like in a text;
`Decimal.toDouble` rounds one to the nearest double, and `readNumber?` reads a text.
-/

namespace Scad

/-- The number `digits * 10 ^ exponent`. -/
structure Decimal where
  digits : Nat
  exponent : Int
deriving DecidableEq, Repr

namespace Decimal

/-- The number of digits of a natural number. -/
def width (n : Nat) : Nat := (Nat.toDigits 10 n).length

/-- The nearest magnitude of a double. Far outside the range of doubles the powers of ten are not
computed. -/
def toMagnitude (d : Decimal) : Nat :=
  let top := d.exponent + width d.digits
  if d.digits = 0 then 0
  else if 310 < top then Double.infinityBits
  else if top < -330 then 0
  else Double.nearest (d.digits * Nat.pow 10 d.exponent.toNat) (Nat.pow 10 (-d.exponent).toNat)

/-- The nearest double. -/
def toDouble (d : Decimal) : Double := .ofMagnitude false d.toMagnitude

end Decimal

/-! ## Reading -/

namespace Number

/-- The value of a run of digits. -/
def digitsValue (ds : List Char) : Nat :=
  ds.foldl (fun n c => 10 * n + (c.toNat - '0'.toNat)) 0

/-- An exponent behind its mark: a sign and at least one digit, up to the end of the text. -/
def readExponent? (cs : List Char) : Option Int :=
  let value? (ds : List Char) : Option Int :=
    if ds.isEmpty || !ds.all Char.isDigit then none else some (digitsValue ds)
  match cs with
  | '+' :: ds => value? ds
  | '-' :: ds => (value? ds).map fun n => -n
  | ds => value? ds

/-- A decimal without sign: digits with at most one point among them, and an exponent. At least one
digit stands in front of the exponent. -/
def readDecimal? (cs : List Char) : Option Decimal :=
  let whole := cs.takeWhile Char.isDigit
  let rest := cs.dropWhile Char.isDigit
  let (frac, rest) :=
    match rest with
    | '.' :: rest => (rest.takeWhile Char.isDigit, rest.dropWhile Char.isDigit)
    | _ => ([], rest)
  if whole.isEmpty && frac.isEmpty then none
  else
    let digits := digitsValue (whole ++ frac)
    match rest with
    | [] => some ⟨digits, -(frac.length : Int)⟩
    | c :: ds =>
      if c = 'e' ∨ c = 'E' then
        (readExponent? ds).map fun e => ⟨digits, e - frac.length⟩
      else none

/-- A number without sign: a decimal, or infinity or NaN by name in any case of letters. -/
def readUnsigned? (cs : List Char) : Option Double :=
  match String.ofList (cs.map Char.toLower) with
  | "inf" | "infinity" => some .infinity
  | "nan" => some .nan
  | _ => (readDecimal? cs).map Decimal.toDouble

/-- The double that a text spells. -/
def read? (cs : List Char) : Option Double :=
  match cs with
  | '+' :: cs => readUnsigned? cs
  | '-' :: cs => (readUnsigned? cs).map Double.neg
  | cs => readUnsigned? cs

end Number
end Scad
