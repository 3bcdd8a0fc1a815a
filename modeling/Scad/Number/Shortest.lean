import Scad.Number.Decimal

/-!
# The shortest decimal

A double is written with the fewest digits that read back to it. Of two such decimals with equally
many digits the nearer one is taken, and on a tie the greater.
-/

namespace Scad
namespace Decimal

/-- A finite double as a decimal, without rounding. -/
def exact (x : Double) : Decimal :=
  if x.scale < 1074 then ⟨x.mantissa * Nat.pow 5 (1074 - x.scale), (x.scale : Int) - 1074⟩
  else ⟨x.mantissa * Nat.pow 2 (x.scale - 1074), 0⟩

/-- A decimal without its last `k` digits, rounded down. -/
def cutDown (d : Decimal) (k : Nat) : Decimal := ⟨d.digits / Nat.pow 10 k, d.exponent + k⟩

/-- A decimal without its last `k` digits, rounded up. -/
def cutUp (d : Decimal) (k : Nat) : Decimal := ⟨d.digits / Nat.pow 10 k + 1, d.exponent + k⟩

/-- Without its last `k` digits, a decimal that still reads back as the magnitude. -/
def cut? (d : Decimal) (magnitude k : Nat) : Option Decimal :=
  let down := d.cutDown k
  let up := d.cutUp k
  let nearUp := Nat.pow 10 k ≤ 2 * (d.digits % Nat.pow 10 k)
  match down.toMagnitude == magnitude, up.toMagnitude == magnitude with
  | true, true => some (if nearUp then up else down)
  | true, false => some down
  | false, true => some up
  | false, false => none

/-- The same number without zeros at the end of its digits. -/
def normal (d : Decimal) : Decimal :=
  let zeros := ((Nat.toDigits 10 d.digits).reverse.takeWhile (· == '0')).length
  ⟨d.digits / Nat.pow 10 zeros, d.exponent + zeros⟩

/-- The shortest decimal that reads back. Seventeen digits are always enough. -/
def shortest (x : Double) : Decimal :=
  let d := exact x
  let w := width d.digits
  let lengths := (List.range 17).map (· + 1)
  (((lengths.filter (· < w)).findSome? fun n => d.cut? x.magnitude (w - n)).getD d).normal

/-- A decimal in positional notation. -/
def positional (d : Decimal) : List Char :=
  let ds := Nat.toDigits 10 d.digits
  let places := (-d.exponent).toNat
  if places = 0 then ds ++ List.replicate d.exponent.toNat '0'
  else if places < ds.length then
    ds.take (ds.length - places) ++ '.' :: ds.drop (ds.length - places)
  else '0' :: '.' :: (List.replicate (places - ds.length) '0' ++ ds)

end Decimal

namespace Double

/-- How a number is written: positionally and never with an exponent. No digits stand for infinity;
it is written as a decimal too large for a double. -/
def text (x : Double) : List Char :=
  if x.isNaN then ['N', 'a', 'N']
  else
    let sign := if x.isNegative then ['-'] else []
    if x.isInfinite then sign ++ ['1', 'e', '4', '0', '0']
    else if x.isZero then sign ++ ['0']
    else sign ++ (Decimal.shortest x).positional

end Double
end Scad
