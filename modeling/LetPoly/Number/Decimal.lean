import LetPoly.Number.Double

/-!
# Decimal text of doubles

A double is printed with the fewest digits that read back as the same double, and of
the candidates with that many digits the nearest.  `shortest` selects those digits.
It takes the interval of reals that round to the double, which holds its ends exactly
if the significand is even.  For one digit, two digits and so on it tests the two
neighbours of the value on the grid of decimals with that many digits.  If some point
of a grid lies in the interval, so does one of the neighbours.  Seventeen digits
always suffice.

`Double.text` lays the digits out.  A value from one ten-thousandth up to ten to the
sixteenth, without the latter, is written positionally and keeps a digit after the
point.  Any other value has an exponent.

`Double.ofText?` reads decimal text: an optional sign, then digits with at most one
point and an optional exponent, or the name of an infinity or of no number.
-/

namespace LetPoly

/-- A decimal number: digits, and where the point stands relative to the first of them. -/
structure Decimal where
  /-- The digits, without trailing zeros. -/
  digits : List Char
  /-- How many digits stand before the point; negative if zeros follow the point first. -/
  point : Int
  deriving DecidableEq, Repr

namespace Decimal

/-- The decimal `n * 10 ^ e`. -/
def ofScaled (n : Nat) (e : Int) : Decimal :=
  let digits := Nat.toDigits 10 n
  ⟨(digits.reverse.dropWhile (· == '0')).reverse, digits.length + e⟩

/-- The exponent of the largest power of ten that is at most the ratio. -/
def magnitude (num den : Nat) : Int :=
  if den ≤ num then (Nat.toDigits 10 (num / den)).length - 1
  else -((Nat.toDigits 10 ((den + num - 1) / num - 1)).length : Int)

/-- An interval of positive reals, with all its ends over one denominator. -/
structure Interval where
  /-- The numerator of the lower end. -/
  low : Nat
  /-- The numerator of the upper end. -/
  high : Nat
  /-- The denominator. -/
  den : Nat
  /-- Whether the ends belong to the interval. -/
  closed : Bool

/-- Whether `n * 10 ^ e` lies in an interval. -/
def Interval.contains (i : Interval) (n : Nat) (e : Int) : Bool :=
  let value := if e < 0 then n * i.den else n * Nat.pow 10 e.natAbs * i.den
  let unit := if e < 0 then Nat.pow 10 e.natAbs else 1
  if i.closed then decide (i.low * unit ≤ value) && decide (value ≤ i.high * unit)
  else decide (i.low * unit < value) && decide (value < i.high * unit)

/-- The neighbour of `num / den` on the grid of multiples of `10 ^ e` that lies in the interval,
the nearer one if both do, the upper one if both are equally near. -/
def neighbour? (i : Interval) (num den : Nat) (e : Int) : Option Nat :=
  let n := if e < 0 then num * Nat.pow 10 e.natAbs else num
  let d := if e < 0 then den else den * Nat.pow 10 e.natAbs
  let below := n / d
  match i.contains below e, i.contains (below + 1) e with
  | true, true => some (if 2 * (n % d) < d then below else below + 1)
  | true, false => some below
  | false, true => some (below + 1)
  | false, false => none

/-- Tries grids of more and more digits, `left` more of them, the finest of which is `10 ^ e`. -/
def refine (i : Interval) (num den : Nat) (e : Int) : Nat → Decimal
  | 0 =>
    match neighbour? i num den e with
    | some n => ofScaled n e
    | none => ofScaled 0 0
  | left + 1 =>
    match neighbour? i num den (e + (left + 1)) with
    | some n => ofScaled n (e + (left + 1))
    | none => refine i num den e left

/-- The shortest decimal that reads back as a positive finite double. -/
def shortest (d : Double) : Decimal :=
  let m := d.significand
  let one := Nat.pow 2 (d.exponent - 2).toNat
  let den := Nat.pow 2 (2 - d.exponent).toNat
  let below := if m = Nat.pow 2 52 ∧ d.exponentField > 1 then 1 else 2
  let i : Interval := ⟨(4 * m - below) * one, (4 * m + 2) * one, den, m % 2 == 0⟩
  let num := 4 * m * one
  refine i num den (magnitude num den - 16) 16

/-- Lays a decimal out with the point in its place and at least one digit on either side of it. -/
def positional (d : Decimal) : String :=
  let before := d.digits.take d.point.toNat
  let filled := before ++ List.replicate (d.point.toNat - before.length) '0'
  let behind := List.replicate (-d.point).toNat '0' ++ d.digits.drop d.point.toNat
  String.ofList (if filled.isEmpty then ['0'] else filled) ++ "."
    ++ String.ofList (if behind.isEmpty then ['0'] else behind)

/-- Lays a decimal out with one digit before the point and an exponent. -/
def scientific (d : Decimal) : String :=
  let behind := d.digits.drop 1
  String.ofList (d.digits.take 1) ++ (if behind.isEmpty then "" else "." ++ String.ofList behind)
    ++ "e" ++ toString (d.point - 1)

end Decimal

namespace Double

/-- The text of a double. -/
def text (d : Double) : String :=
  if d.isNaN then "NaN"
  else
    let sign := if d.isNegative then "-" else ""
    if !d.isFinite then sign ++ "inf"
    else if d.significand = 0 then sign ++ "0.0"
    else
      let decimal := Decimal.shortest d
      sign ++ if -3 ≤ decimal.point ∧ decimal.point ≤ 16 then decimal.positional
        else decimal.scientific

/-- The number that a further digit makes of a number. -/
def appendDigit (n : Nat) (c : Char) : Nat := 10 * n + (c.toNat - '0'.toNat)

/-- Where a block of digits ends.  Long texts are read block by block, which saves most of the
multiplications of long numbers. -/
def blockScale : Nat := Nat.pow 10 200

/-- The number that decimal digits stand for behind the number `high * scale + low`, where the
scale is the power of ten of the digits of the current block. -/
def readDigits (high scale low : Nat) : List Char → Nat
  | [] => high * scale + low
  | c :: cs =>
    let scale := 10 * scale
    let low := appendDigit low c
    if scale < blockScale then readDigits high scale low cs
    else readDigits (high * scale + low) 1 0 cs

/-- The number that a list of decimal digits stands for. -/
def ofDigits (digits : List Char) : Nat := readDigits 0 1 0 digits

/-- The digits of a number are read from the left to the right. -/
theorem readDigits_eq_foldl (high scale low : Nat) (cs : List Char) :
    readDigits high scale low cs = cs.foldl appendDigit (high * scale + low) := by
  induction cs generalizing high scale low with
  | nil => rfl
  | cons c cs ih =>
    have hstep : high * (10 * scale) + appendDigit low c = appendDigit (high * scale + low) c := by
      simp only [appendDigit]
      grind
    simp only [readDigits, ih, List.foldl_cons, hstep, Nat.mul_one, Nat.add_zero, ite_self]

theorem ofDigits_eq_foldl (digits : List Char) : ofDigits digits = digits.foldl appendDigit 0 := by
  simp [ofDigits, readDigits_eq_foldl]

/-- The double nearest to a decimal with the given digits before and behind the point. -/
def ofPositional (before behind : List Char) (exponent : Int) : Double :=
  ofDecimal (ofDigits (before ++ behind)) (before.length + behind.length)
    (exponent - behind.length)

/-- Reads an exponent: an optional sign and digits. -/
def readExponent? (cs : List Char) : Option Int :=
  let (negative, digits) :=
    match cs with
    | '-' :: r => (true, r)
    | '+' :: r => (false, r)
    | r => (false, r)
  if digits.isEmpty || !digits.all Char.isDigit then none
  else some (if negative then -ofDigits digits else ofDigits digits)

/-- Reads a magnitude: digits with at most one point, and an optional exponent. -/
def readMagnitude? (cs : List Char) : Option Double :=
  let before := cs.takeWhile Char.isDigit
  let rest := cs.dropWhile Char.isDigit
  let (behind, rest) :=
    match rest with
    | '.' :: r => (r.takeWhile Char.isDigit, r.dropWhile Char.isDigit)
    | r => ([], r)
  if before.isEmpty && behind.isEmpty then none
  else
    match rest with
    | [] => some (ofPositional before behind 0)
    | c :: r => if c.toLower == 'e' then (readExponent? r).map (ofPositional before behind) else none

/-- Reads the text of a double. -/
def ofText? (s : String) : Option Double :=
  let (negative, cs) :=
    match s.toList with
    | '-' :: r => (true, r)
    | '+' :: r => (false, r)
    | r => (false, r)
  let value :=
    match String.ofList (cs.map Char.toLower) with
    | "inf" => some infinity
    | "infinity" => some infinity
    | "nan" => some nan
    | _ => readMagnitude? cs
  if negative then value.map negate else value

end Double

end LetPoly
