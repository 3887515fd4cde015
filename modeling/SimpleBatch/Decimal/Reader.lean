import SimpleBatch.Decimal.Basic

/-!
# Reading numbers

The two notations for numbers in a script:

* an *integer* is an optional sign and one or more digits;
* a *decimal* is an optional sign, digits with at most one point among,
  before or after them, and optionally an exponent: a letter `e` in either
  case, an optional sign, and one or more digits.

Digits are the ASCII digits. Words for infinity or for not a number are not
numbers.
-/

namespace SimpleBatch.Decimal

open Text

/-- Whether a text has a minus sign, and the text after its optional sign. -/
def readSign : List Char → Bool × List Char
  | '-' :: cs => (true, cs)
  | '+' :: cs => (false, cs)
  | cs => (false, cs)

/-- A natural number with the sign that stands before it. -/
def signed (negative : Bool) (n : Nat) : Int :=
  if negative then -(n : Int) else n

/-- The integer that a text denotes. -/
def readInteger? (cs : List Char) : Option Int :=
  let (negative, digits) := readSign cs
  if digits.isEmpty || !digits.all Char.isDigit then none
  else some (signed negative (numeralValue 10 digits))

/-- The exponent that the rest of a decimal denotes. -/
def readExponent? : List Char → Option Int
  | [] => some 0
  | c :: cs => if c = 'e' ∨ c = 'E' then readInteger? cs else none

/-- The digits after the point at the start of a text, and the text after
    them; no digits if there is no point. -/
def readFraction : List Char → List Char × List Char
  | '.' :: cs => (cs.takeWhile Char.isDigit, cs.dropWhile Char.isDigit)
  | cs => ([], cs)

/-- The sign and the decimal that a text denotes. -/
def read? (cs : List Char) : Option (Bool × Decimal) :=
  let (negative, cs) := readSign cs
  let whole := cs.takeWhile Char.isDigit
  let (fraction, rest) := readFraction (cs.dropWhile Char.isDigit)
  if whole.isEmpty && fraction.isEmpty then none
  else
    (readExponent? rest).map fun e =>
      (negative, ⟨numeralValue 10 (whole ++ fraction), e - fraction.length⟩)

end SimpleBatch.Decimal
