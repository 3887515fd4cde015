import SimpleBatch.Fault

/-!
# Tests

The operators whose result is a truth value, `1` or `0`: truth itself, the
kind of a value, and comparisons.

Two integers are compared exactly. An integer is compared with a
floating-point number after rounding it to one, and nothing compares with a
`nan`. Texts are not ordered, but a text can be equal to a value: if it is
how the value is written.
-/

namespace SimpleBatch.Value

/-- Whether a value is true. -/
def truth (a : Value) : Value :=
  ofBool a.isTrue

/-- Whether a value is false. -/
def falsity (a : Value) : Value :=
  ofBool !a.isTrue

/-- Whether both values are true. -/
def both (a b : Value) : Value :=
  ofBool (a.isTrue && b.isTrue)

/-- Whether one of the values is true. -/
def either (a b : Value) : Value :=
  ofBool (a.isTrue || b.isTrue)

/-- Whether exactly one of the values is true. -/
def eitherOnly (a b : Value) : Value :=
  ofBool (a.isTrue ^^ b.isTrue)

/-- Whether a value has a kind. -/
def hasKind (kind : Kind) (a : Value) : Value :=
  ofBool (a.kind = kind)

/-- Whether two values are equal. -/
def equal (a b : Value) : Value :=
  match a, b with
  | integer m, integer n => ofBool (m = n)
  | _, _ =>
    match a.toSingle?, b.toSingle? with
    | some x, some y => ofBool (x.eq y)
    | _, _ => ofBool (a.render = b.render)

/-- Whether two values stand in an order. -/
def ordered (command : Command) (order : Ordering) (a b : Value) : Except Fault Value :=
  match a, b with
  | integer m, integer n => .ok (ofBool (compare m.toInt n.toInt = order))
  | _, _ =>
    match a.toSingle?, b.toSingle? with
    | some x, some y => .ok (ofBool (x.compare? y = some order))
    | _, _ => .error (.operandKinds command [a.kind, b.kind])

/-- Whether a value is less than another. -/
def less (a b : Value) : Except Fault Value :=
  ordered .isLt .lt a b

/-- Whether a value is greater than another. -/
def greater (a b : Value) : Except Fault Value :=
  ordered .isGt .gt a b

end SimpleBatch.Value
