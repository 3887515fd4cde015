import SimpleBatch.Fault
import SimpleBatch.Generator
import SimpleBatch.Text.Repeat

/-!
# Arithmetic

The numeric operators share one rule: two integers give an integer, modulo
`2 ^ 32`; an integer and a floating-point number, or two of the latter, are
computed in floating point; a text is refused. Two operators give a text a
meaning of their own: `add` joins texts, and `mul` repeats one.

Integers are divided with a quotient cut off toward zero, so a remainder has
the sign of the dividend. The modulus of floating-point numbers has the sign
of the divisor instead; it is computed with 64 bits.
-/

namespace SimpleBatch.Value

/-- The rule of the numeric operators. -/
def numeric (command : Command) (onIntegers : Int32 → Int32 → Except Fault Int32)
    (onSingles : Single → Single → Single) (a b : Value) : Except Fault Value :=
  match a, b with
  | integer m, integer n => (onIntegers m n).map integer
  | _, _ =>
    match a.toSingle?, b.toSingle? with
    | some x, some y => .ok (float (onSingles x y))
    | _, _ => .error (.operandKinds command [a.kind, b.kind])

/-- The sum; if one of the operands is a text, both written after each other. -/
def add (a b : Value) : Except Fault Value :=
  if a.kind = .text ∨ b.kind = .text then .ok (text (a.render ++ b.render))
  else numeric .add (fun m n => .ok (m + n)) Binary.add a b

/-- The difference. -/
def sub (a b : Value) : Except Fault Value :=
  numeric .sub (fun m n => .ok (m - n)) Binary.sub a b

/-- The number of bytes that a repeated text may have. -/
def maxRepeatedBytes : Nat := 16 * 1024 * 1024

/-- A text written a positive number of times in a row. -/
def repeatText (s : String) (n : Int32) : Except Fault Value :=
  if n < 1 then .error .repeatCount
  else
    let count := n.toInt.toNat
    if maxRepeatedBytes < s.utf8ByteSize * count then
      .error (.repeatTooLong s.utf8ByteSize count maxRepeatedBytes)
    else .ok (text (Text.repeated s count))

/-- The product; a text times an integer is the repeated text. -/
def mul (a b : Value) : Except Fault Value :=
  match a, b with
  | text s, integer n => repeatText s n
  | _, _ => numeric .mul (fun m n => .ok (m * n)) Binary.mul a b

/-- An operation on integers that is not defined for a second operand of zero. -/
def unlessZero (op : Int32 → Int32 → Int32) (m n : Int32) : Except Fault Int32 :=
  if n = 0 then .error .divisionByZero else .ok (op m n)

/-- The quotient. -/
def div (a b : Value) : Except Fault Value :=
  numeric .div (unlessZero (· / ·)) Binary.div a b

/-- The modulus of floating-point numbers: what is left of `a` after taking
    away `b` a whole number of times, the quotient being rounded down. The
    result is narrowed from 64 bits, and counts as zero if that makes it reach
    `b`. -/
def modSingle (a b : Single) : Single :=
  let x := a.convert .double
  let y := b.convert .double
  let r := x.sub ((x.div y).floor.mul y)
  if Binary.zero.lt y then
    let r := if r.lt Binary.zero then r.add y else r
    let r := r.convert .single
    if b.le r then Binary.zero else r
  else if y.lt Binary.zero then
    let r := if Binary.zero.lt r then r.add y else r
    let r := r.convert .single
    if r.le b then Binary.zero else r
  else r.convert .single

/-- The remainder or modulus. -/
def mod (a b : Value) : Except Fault Value :=
  numeric .mod (unlessZero (· % ·)) modSingle a b

/-- A random number between two bounds: an integer between integers, and a
    floating-point number otherwise. -/
def random (a b : Value) (g : Generator) : Except Fault (Value × Generator) :=
  match a, b with
  | integer lo, integer hi =>
    let (n, g) := g.integerBetween lo hi
    .ok (integer n, g)
  | _, _ =>
    match a.toSingle?, b.toSingle? with
    | some lo, some hi =>
      let (x, g) := g.singleBetween lo hi
      .ok (float x, g)
    | _, _ => .error (.operandKinds .random [a.kind, b.kind])

end SimpleBatch.Value
