import SimpleBatch.Operator.Arithmetic
import SimpleBatch.Operator.Bits
import SimpleBatch.Operator.Conversion
import SimpleBatch.Operator.Test
import SimpleBatch.Operator.Text
import SimpleBatch.Template

/-!
# Operators

Most commands apply an operator to operands and write the result. They share
one rule of addressing: the arguments are the operands in order, and one more
argument names the destination. If the first operand is missing, the register
takes its place, as it is; if more are missing, the command cannot run. Without
a destination, the result goes to the register.

An operator says for each operand how its template is replaced.
-/

namespace SimpleBatch

/-- An operator, with the substitution of each operand. -/
inductive Operator where
  /-- An operator on one operand. -/
  | unary (mode : Substitution) (apply : Value → Except Fault Value)
  /-- An operator on one operand that has to be given. -/
  | given (mode : Substitution) (apply : Value → Except Fault Value)
  /-- An operator on two operands. -/
  | binary (mode₁ mode₂ : Substitution) (apply : Value → Value → Except Fault Value)
  /-- An operator on three operands. -/
  | ternary (mode₁ mode₂ mode₃ : Substitution)
      (apply : Value → Value → Value → Except Fault Value)

namespace Operator

/-- The number of operands. -/
def arity : Operator → Nat
  | unary .. => 1
  | given .. => 1
  | binary .. => 2
  | ternary .. => 3

/-- The result of an operator on the operands that the arguments give. -/
def eval (op : Operator) (m : Memory) (args : List Value) : Except Fault Value :=
  match op with
  | unary mode apply =>
    match args with
    | [] => apply m.register
    | a :: _ => do apply (← m.resolve mode a)
  | given mode apply =>
    match args with
    | [] => throw (.argumentCount 0)
    | a :: _ => do apply (← m.resolve mode a)
  | binary mode₁ mode₂ apply =>
    match args with
    | [] => throw (.argumentCount 0)
    | [b] => do apply m.register (← m.resolve mode₂ b)
    | a :: b :: _ => do apply (← m.resolve mode₁ a) (← m.resolve mode₂ b)
  | ternary mode₁ mode₂ mode₃ apply =>
    match args with
    | [] => throw (.argumentCount 0)
    | [_] => throw (.argumentCount 1)
    | [b, c] => do apply m.register (← m.resolve mode₂ b) (← m.resolve mode₃ c)
    | a :: b :: c :: _ => do
      apply (← m.resolve mode₁ a) (← m.resolve mode₂ b) (← m.resolve mode₃ c)

/-- The memory after an operator has run on arguments. -/
def run (op : Operator) (m : Memory) (args : List Value) : Except Fault Memory := do
  m.assign (← op.eval m args) args[op.arity]?

end Operator

end SimpleBatch
