import SimpleBatch.Fault

/-!
# Operators on bits

These operators take integers only, as 32 bits in two's complement. The count
of a shift is taken modulo 32, and a shift to the right keeps the sign.
-/

namespace SimpleBatch.Value

/-- The rule of the operators on two integers. -/
def integers (command : Command) (op : Int32 → Int32 → Int32) (a b : Value) :
    Except Fault Value :=
  match a, b with
  | integer m, integer n => .ok (integer (op m n))
  | _, _ => .error (.operandKinds command [a.kind, b.kind])

/-- The bits moved to the left. -/
def shiftLeft (a b : Value) : Except Fault Value :=
  integers .shl (· <<< ·) a b

/-- The bits moved to the right. -/
def shiftRight (a b : Value) : Except Fault Value :=
  integers .shr (· >>> ·) a b

/-- The opposite bits. -/
def complement (a : Value) : Except Fault Value :=
  match a with
  | integer n => .ok (integer (~~~n))
  | _ => .error (.operandKinds .iNot [a.kind])

/-- The bits that both integers have. -/
def bitAnd (a b : Value) : Except Fault Value :=
  integers .iAnd (· &&& ·) a b

/-- The bits that one of the integers has. -/
def bitOr (a b : Value) : Except Fault Value :=
  integers .iOr (· ||| ·) a b

/-- The bits that only one of the integers has. -/
def bitXor (a b : Value) : Except Fault Value :=
  integers .iXor (· ^^^ ·) a b

end SimpleBatch.Value
