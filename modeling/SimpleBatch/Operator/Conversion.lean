import SimpleBatch.Fault

/-!
# Conversions

Between the kinds of values: floating-point numbers to integers, integers to
characters and numerals, any value to a text and back to a number.
-/

namespace SimpleBatch.Value

open Text

/-- The rule of the conversions to an integer: an integer stays as it is. A
    floating-point number is made integral first, and goes to the nearer end if
    it is outside the range. -/
def toInteger (command : Command) (integral : Single → Single) (a : Value) :
    Except Fault Value :=
  match a with
  | integer n => .ok (integer n)
  | float x => .ok (integer (integral x).toInt32)
  | text _ => .error (.operandKinds command [a.kind])

/-- The greatest integer that is not greater. -/
def floor (a : Value) : Except Fault Value :=
  toInteger .toInt Binary.floor a

/-- The nearest integer, the even one of two. -/
def round (a : Value) : Except Fault Value :=
  toInteger .rnd Binary.nearestIntegral a

/-- The least integer that is not less. -/
def ceil (a : Value) : Except Fault Value :=
  toInteger .ceil Binary.ceil a

/-- The text of the one character with a code. -/
def character (a : Value) : Except Fault Value :=
  match a with
  | integer n =>
    if 0 ≤ n ∧ n.toInt.toNat.isValidChar then
      .ok (text (String.singleton (Char.ofNat n.toInt.toNat)))
    else .error (.characterCode n)
  | _ => .error (.operandKinds .char [a.kind])

/-- The number that a text denotes. -/
def parseNumber (a : Value) : Except Fault Value :=
  match readNumber? a.render with
  | some v => .ok v
  | none => .error (.invalidNumber a.render)

/-- The text of a value. -/
def toText (a : Value) : Value :=
  text a.render

/-- The numeral of an integer in a base, as 32 bits in two's complement. -/
def inBase (command : Command) (base : Nat) (a : Value) : Except Fault Value :=
  match a with
  | integer n => .ok (text (String.ofList (numeral base n.toBitVec.toNat)))
  | _ => .error (.operandKinds command [a.kind])

/-- The hexadecimal numeral. -/
def hexadecimal (a : Value) : Except Fault Value :=
  inBase .hex 16 a

/-- The binary numeral. -/
def binary (a : Value) : Except Fault Value :=
  inBase .bin 2 a

end SimpleBatch.Value
