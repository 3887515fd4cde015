import SimpleBatch.Line
import SimpleBatch.Text.Escape
import SimpleBatch.Value

/-!
# Invocations

A script is started with its name, a text, and up to nine further arguments.
On a console they are written as one line, `HELLO, #Ada Lovelace#, 3`, with a
`#` for each double quote.
-/

namespace SimpleBatch

open Text

/-- The name of a script and the arguments it is started with. -/
structure Invocation where
  name : String
  args : List Value
deriving DecidableEq, Repr

namespace Invocation

/-- The number of arguments besides the name. -/
def maxArgs : Nat := 9

/-- The invocation of a name with arguments, of which the first nine count. -/
def ofArgs (name : String) (args : List Value) : Invocation :=
  { name, args := args.take maxArgs }

/-- The invocation that a console line is. -/
def parse (text : String) : Invocation :=
  match Line.split (maxArgs + 1) (String.ofList (Escape.decode .invocation text.toList)) with
  | [] => { name := "", args := [] }
  | name :: args => { name := Value.unquote name, args := args.map Value.ofToken }

/-- The values of the argument slots: the name comes first. -/
def values (i : Invocation) : List Value :=
  .text i.name :: i.args

end Invocation

end SimpleBatch
