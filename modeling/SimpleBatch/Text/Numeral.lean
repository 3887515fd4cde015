/-!
# Numerals

Positional numerals in a base up to sixteen, with capital letters for the
digits above nine, and the reading of such digits.
-/

namespace SimpleBatch.Text

/-- The number a hexadecimal digit stands for, in either case of letters. -/
def hexDigit? (c : Char) : Option Nat :=
  if '0' ≤ c ∧ c ≤ '9' then some (c.toNat - '0'.toNat)
  else if 'a' ≤ c ∧ c ≤ 'f' then some (c.toNat - 'a'.toNat + 10)
  else if 'A' ≤ c ∧ c ≤ 'F' then some (c.toNat - 'A'.toNat + 10)
  else none

/-- The number that a run of digits denotes in a base, the most significant
    digit first. Characters that are no digits count as zero. -/
def numeralValue (base : Nat) (digits : List Char) : Nat :=
  digits.foldl (fun n c => base * n + (hexDigit? c).getD 0) 0

/-- The numeral of a number in a base: no leading zeros, and `0` for zero. -/
def numeral (base n : Nat) : List Char :=
  (Nat.toDigits base n).map Char.toUpper

/-- The decimal numeral of a natural number. -/
def decimal (n : Nat) : List Char :=
  numeral 10 n

/-- The decimal numeral of an integer, with a minus sign for a negative one. -/
def decimalInt (n : Int) : List Char :=
  if n < 0 then '-' :: decimal n.natAbs else decimal n.natAbs

/-- The decimal numeral of a number, filled up with leading zeros to a width. -/
def paddedDecimal (width n : Nat) : List Char :=
  (decimal n).leftpad width '0'

/-- A natural number in decimal. -/
def ofNat (n : Nat) : String :=
  String.ofList (decimal n)

/-- An integer in decimal. -/
def ofInt (n : Int) : String :=
  String.ofList (decimalInt n)

end SimpleBatch.Text
