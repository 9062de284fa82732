/-!
# Double-precision numbers

A double is given by its 64 bits: a sign, eleven bits of exponent and 52 bits of
fraction.  A finite double has the magnitude `significand * 2 ^ exponent`, with both
read off the bits.  Doubles are compared by their bits, so equality is decidable and
tells the two zeros apart.

`ofRatio` is the double nearest to a ratio of natural numbers, the one with the even
significand if two are equally near.  It is exact: the ratio is scaled to a quotient
of 53 bits and rounded once.  A ratio beyond the largest double becomes infinite.
-/

namespace LetPoly

/-- A double-precision number, by its bits. -/
structure Double where
  /-- Sign, exponent and fraction, from the highest bit down. -/
  bits : UInt64
  deriving DecidableEq, Repr, Inhabited

namespace Double

/-- Whether the sign bit is set. -/
def isNegative (d : Double) : Bool := d.bits.toNat / Nat.pow 2 63 == 1

/-- The bits of the exponent as a number. -/
def exponentField (d : Double) : Nat := d.bits.toNat / Nat.pow 2 52 % Nat.pow 2 11

/-- The bits of the fraction as a number. -/
def fraction (d : Double) : Nat := d.bits.toNat % Nat.pow 2 52

/-- Whether a double is a number other than an infinity. -/
def isFinite (d : Double) : Bool := d.exponentField != 2047

/-- Whether a double is not a number at all. -/
def isNaN (d : Double) : Bool := d.exponentField == 2047 && d.fraction != 0

/-- The significand of a finite double. -/
def significand (d : Double) : Nat :=
  if d.exponentField = 0 then d.fraction else Nat.pow 2 52 + d.fraction

/-- The exponent of a finite double. -/
def exponent (d : Double) : Int := max (d.exponentField : Int) 1 - 1075

/-- Positive zero. -/
def zero : Double := ⟨0⟩

/-- Positive infinity. -/
def infinity : Double := ⟨0x7ff0000000000000⟩

/-- A double that is not a number. -/
def nan : Double := ⟨0x7ff8000000000000⟩

/-- The double with the other sign. -/
def negate (d : Double) : Double := ⟨d.bits ^^^ 0x8000000000000000⟩

/-- The quotient of two naturals, rounded to the nearest, to the even one of two. -/
def roundDiv (num den : Nat) : Nat :=
  let q := num / den
  let r := num % den
  if 2 * r < den ∨ (2 * r = den ∧ q % 2 = 0) then q else q + 1

/-- A ratio divided by a power of two, as a ratio. -/
def scale (num den : Nat) (e : Int) : Nat × Nat :=
  if e < 0 then (num * Nat.pow 2 e.natAbs, den) else (num, den * Nat.pow 2 e.natAbs)

/-- The double nearest to a ratio. -/
def ofRatio (num den : Nat) : Double :=
  if num = 0 then zero
  else
    let low : Int := max ((num.log2 : Int) - den.log2 - 53) (-1074)
    let (n, d) := scale num den low
    let e := if n / d < Nat.pow 2 53 then low else low + 1
    let (n, d) := scale num den e
    if e > 971 then infinity
    else ⟨((e + 1074).natAbs * Nat.pow 2 52 + roundDiv n d).toUInt64⟩

/-- The double nearest to `coefficient * 10 ^ exponent`, where the coefficient has at most the
given number of digits.  Far beyond the range of doubles no power of ten is computed. -/
def ofDecimal (coefficient digits : Nat) (exponent : Int) : Double :=
  if coefficient = 0 then zero
  else if digits + exponent < -330 then zero
  else if exponent > 310 then infinity
  else if exponent < 0 then ofRatio coefficient (Nat.pow 10 exponent.natAbs)
  else ofRatio (coefficient * Nat.pow 10 exponent.natAbs) 1

end Double

end LetPoly
