/-!
# Double-precision numbers

The numbers of the language are the binary floating-point numbers of 64 bits. They are kept as bits,
and all arithmetic on them here is exact arithmetic on natural numbers: a finite number is a
mantissa below `2 ^ 53` times a power of two not below `2 ^ (-1074)`.
-/

namespace Scad

/-- A number of 64 bits: sign, eleven bits of exponent, fifty-two of mantissa. -/
structure Double where
  bits : UInt64
deriving DecidableEq, Repr, Inhabited

namespace Double

/-- The lowest bit of the exponent, `2 ^ 52`. -/
def exponentUnit : Nat := 0x10000000000000

/-- The bit of the sign, `2 ^ 63`. -/
def signBit : Nat := 0x8000000000000000

/-- The least pattern without sign that is not finite; it is infinity. -/
def infinityBits : Nat := 0x7ff * exponentUnit

/-- The bits without the sign. They order the numbers that are not negative. -/
def magnitude (x : Double) : Nat := x.bits.toNat % signBit

def isNegative (x : Double) : Bool := signBit ≤ x.bits.toNat

def isNaN (x : Double) : Bool := infinityBits < x.magnitude

def isInfinite (x : Double) : Bool := x.magnitude == infinityBits

def isZero (x : Double) : Bool := x.magnitude == 0

/-- The number with a sign and a magnitude. -/
def ofMagnitude (negative : Bool) (magnitude : Nat) : Double :=
  ⟨UInt64.ofNat (if negative then signBit + magnitude else magnitude)⟩

def zero : Double := ofMagnitude false 0

/-- The one NaN in use. -/
def nan : Double := ofMagnitude false (infinityBits + exponentUnit / 2)

def infinity : Double := ofMagnitude false infinityBits

/-- The same number with the sign turned. -/
def neg (x : Double) : Double :=
  if x.isNaN then x else ofMagnitude (!x.isNegative) x.magnitude

/-- Equality of numbers: NaN differs from all, and the two zeros are one. -/
def equal (x y : Double) : Bool :=
  !x.isNaN && !y.isNaN && (x.bits == y.bits || (x.isZero && y.isZero))

theorem isNaN_of_isZero {x : Double} (h : x.isZero = true) : x.isNaN = false := by
  have hzero : x.magnitude = 0 := by simpa [isZero] using h
  simp [isNaN, hzero]

/-- Only the two zeros are equal to a zero. -/
theorem equal_of_isZero {x : Double} (h : x.isZero = true) (z : Double) : x.equal z = z.isZero := by
  cases hz : z.isZero with
  | true => simp [equal, isNaN_of_isZero h, isNaN_of_isZero hz, h, hz]
  | false =>
    have hbits : x.bits ≠ z.bits := by
      intro hbits
      simp [isZero, magnitude, ← hbits] at h hz
      omega
    simp [equal, hz, hbits]

theorem equal_comm (x y : Double) : x.equal y = y.equal x := by
  simp only [equal, Bool.beq_comm (a := x.bits), Bool.and_comm x.isZero]
  cases x.isNaN <;> cases y.isNaN <;> rfl

theorem equal_zero (x : Double) : x.equal zero = x.isZero := by
  rw [equal_comm]
  exact equal_of_isZero (by decide) x

/-- The mantissa of a finite number. -/
def mantissa (x : Double) : Nat :=
  if x.magnitude < exponentUnit then x.magnitude else exponentUnit + x.magnitude % exponentUnit

/-- The power of two behind the mantissa, counted from `-1074`. -/
def scale (x : Double) : Nat := x.magnitude / exponentUnit - 1

/-! ## Rounding -/

/-- The quotient of two numbers, rounded to the nearest and on a tie to the even one. -/
def roundQuotient (num den : Nat) : Nat :=
  let q := num / den
  let r := num % den
  if 2 * r < den ∨ (2 * r = den ∧ q % 2 = 0) then q else q + 1

/-- The greatest `k` with `2 ^ k ≤ num / den`. -/
def floorLog2 (num den : Nat) : Int :=
  let k : Int := (num.log2 : Int) - den.log2
  if den * Nat.pow 2 k.toNat ≤ num * Nat.pow 2 (-k).toNat then k else k - 1

/-- The magnitude of the double nearest to a fraction, infinity where none is large enough. -/
def nearest (num den : Nat) : Nat :=
  if num = 0 then 0
  else
    let scale := (floorLog2 num den - 52 + 1074).toNat
    let q : Int := (scale : Int) - 1074
    let m := roundQuotient (num * Nat.pow 2 (-q).toNat) (den * Nat.pow 2 q.toNat)
    Nat.min (scale * exponentUnit + m) infinityBits

end Double
end Scad
