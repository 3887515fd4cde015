import SimpleBatch.Binary.Basic
import SimpleBatch.Text.Numeral

/-!
# Decimal numbers

Nonnegative numbers written with finitely many decimal digits, their
positional notation, and the magnitude of a binary format nearest to them.

The notation never has an exponent, and no zeros at the end of its fraction:
`1`, `0.1`, `100000000000000000000`.
-/

namespace SimpleBatch

open Text

/-- The number `coefficient * 10 ^ exponent`. -/
structure Decimal where
  coefficient : Nat
  exponent : Int
deriving DecidableEq, Repr

namespace Decimal

/-- The number that a decimal is. -/
def value (d : Decimal) : Rat :=
  d.coefficient * (10 : Rat) ^ d.exponent

/-- The magnitude of a format nearest to a decimal. A decimal far outside the
    range of the format is settled by its number of digits. -/
def magnitude (f : Format) (d : Decimal) : Nat :=
  let size : Int := (decimal d.coefficient).length + d.exponent
  if d.coefficient = 0 ∨ size < f.minExponent then 0
  else if (Nat.pow 2 (f.exponentBits - 1) : Int) < size then f.infinity
  else f.nearest d.value

/-- The number of a format nearest to a decimal, with a sign. -/
def toBinary (f : Format) (negative : Bool) (d : Decimal) : Binary f :=
  .ofMagnitude negative (d.magnitude f)

/-- A list of digits without the zeros at its end. -/
def dropZeros (digits : List Char) : List Char :=
  (digits.reverse.dropWhile (· = '0')).reverse

/-- The positional notation of a decimal. -/
def notate (d : Decimal) : List Char :=
  let places := (-d.exponent).toNat
  let scaled := d.coefficient * Nat.pow 10 d.exponent.toNat
  let unit := Nat.pow 10 places
  let whole := decimal (scaled / unit)
  let fraction := if places = 0 then [] else dropZeros (paddedDecimal places (scaled % unit))
  if fraction.isEmpty then whole else whole ++ '.' :: fraction

end Decimal

end SimpleBatch
