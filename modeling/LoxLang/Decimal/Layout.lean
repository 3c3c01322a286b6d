import LoxLang.Decimal.Shortest

/-!
# Writing numbers

Two layouts of a decimal, `positional` (`0.00015`, `1200`) and `scientific`
(`1.5e-07`, `1e+16`), and the number formats built from them. A `NumberFormat` says
which decimals are written positionally and how the values that have no digits are
spelled; `NumberFormat.write` writes a double's shortest decimal in it.
-/

namespace LoxLang

namespace Decimal

/-- The digits in order, with no leading zero; zero is a single `0`. -/
def digitChars (d : Decimal) : List Char := Nat.toDigits 10 d.digits

/-- The power of ten at which the first digit stands. -/
def leadingPlace (d : Decimal) : Int := d.exponent + (d.digitChars.length - 1 : Nat)

/-- All digits around a decimal point, filled up with zeros; a whole number has no point. -/
def positional (d : Decimal) : List Char :=
  if 0 ≤ d.exponent then
    d.digitChars ++ List.replicate d.exponent.toNat '0'
  else
    let places := (-d.exponent).toNat
    let filled := List.replicate (places + 1 - d.digitChars.length) '0' ++ d.digitChars
    filled.take (filled.length - places) ++ '.' :: filled.drop (filled.length - places)

/-- A point after the first of several digits. -/
def mantissa : List Char → List Char
  | [] => []
  | [c] => [c]
  | c :: rest => c :: '.' :: rest

/-- The power of ten with its sign and at least two digits. -/
def power (place : Int) : List Char :=
  let digits := Nat.toDigits 10 place.natAbs
  (if place < 0 then '-' else '+') :: (List.replicate (2 - digits.length) '0' ++ digits)

/-- One digit before the point, then the power of ten after an `e`. -/
def scientific (d : Decimal) : List Char :=
  mantissa d.digitChars ++ 'e' :: power d.leadingPlace

end Decimal

/-- How doubles are written. -/
structure NumberFormat where
  /-- The text for the values that are no number. -/
  nan : String
  /-- The text for infinity, after the sign. -/
  infinity : String
  /-- Whether a decimal whose first digit stands at the given power of ten is written
  positionally. -/
  isPositional : Int → Bool

namespace NumberFormat

/-- The digits of the double of rank `k`. -/
def writeFinite (format : NumberFormat) (k : Nat) : List Char :=
  let d := Decimal.shortest k
  if format.isPositional d.leadingPlace then d.positional else d.scientific

/-- The text without the sign of a double of rank `k` that is a number. -/
def writeMagnitude (format : NumberFormat) (k : Nat) : List Char :=
  if k = Decimal.infiniteRank then format.infinity.toList else format.writeFinite k

/-- The text of a double: a minus sign where the sign bit is set, zero included, then the
magnitude. -/
def write (format : NumberFormat) (x : Float) : String :=
  let k := Decimal.rank x
  if Decimal.infiniteRank < k then format.nan
  else if Decimal.isNegative x then String.ofList ('-' :: format.writeMagnitude k)
  else String.ofList (format.writeMagnitude k)

end NumberFormat

end LoxLang
