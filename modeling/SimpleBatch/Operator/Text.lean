import SimpleBatch.Fault

/-!
# Operators on texts

These operators take any value for a text, as it is written. Characters are
Unicode scalar values, counted from zero.
-/

namespace SimpleBatch.Value

/-- The code of the character at an index. -/
def charAt (a index : Value) : Except Fault Value :=
  match index with
  | integer i =>
    let cs := a.render.toList
    match if 0 ≤ i then cs[i.toInt.toNat]? else none with
    | some c => .ok (integer (Int32.ofNat c.toNat))
    | none => .error (.indexOutside i cs.length)
  | _ => .error (.operandKinds .strGet [a.kind, index.kind])

/-- The number of characters. -/
def length (a : Value) : Value :=
  integer (Int32.ofNat a.render.length)

/-- The part of a text with a number of characters from an index on; all of
    it has to lie in the text. -/
def substring (a start count : Value) : Except Fault Value :=
  match start, count with
  | integer i, integer n =>
    let cs := a.render.toList
    if 0 ≤ i ∧ 0 ≤ n ∧ i.toInt + n.toInt ≤ cs.length then
      .ok (text (String.ofList ((cs.drop i.toInt.toNat).take n.toInt.toNat)))
    else .error (.substringOutside i n cs.length)
  | _, _ => .error (.operandKinds .subStr [start.kind, count.kind])

end SimpleBatch.Value
