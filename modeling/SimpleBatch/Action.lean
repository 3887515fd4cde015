import SimpleBatch.Host
import SimpleBatch.Operator

/-!
# What commands do

The table of all commands: each one applies an operator, or acts on names, on
the flow of control, on the generator or on the host.
-/

namespace SimpleBatch

/-- What a command does. -/
inductive Action where
  /-- An operator is applied and its result written. -/
  | operate (op : Operator)
  /-- A variable gets a slot. -/
  | declare
  /-- A random number is written. -/
  | draw
  /-- If the operand is false, the lines up to the end of the condition are
      left out. -/
  | condition
  /-- The run continues after a label. -/
  | jump
  /-- Nothing. -/
  | pass
  /-- The run ends. -/
  | halt
  /-- The host runs a command. -/
  | execute
  /-- The host adds a line to its log. -/
  | log (level : Level)
  /-- Echoing is switched on or off. -/
  | setEcho
  /-- The host clears its log. -/
  | clear

namespace Command

/-- An operator on one native operand. -/
def one (apply : Value → Except Fault Value) : Action :=
  .operate (.unary .native apply)

/-- An operator on two native operands. -/
def two (apply : Value → Value → Except Fault Value) : Action :=
  .operate (.binary .native .native apply)

/-- What a command does. -/
def action : Command → Action
  | var => .declare
  | set => .operate (.given .native .ok)
  | stc => .operate (.given .composite fun a => .ok a.toText)
  | toInt => one Value.floor
  | rnd => one Value.round
  | ceil => one Value.ceil
  | char => one Value.character
  | parse => .operate (.unary .composite Value.parseNumber)
  | str => one fun a => .ok a.toText
  | hex => one Value.hexadecimal
  | bin => one Value.binary
  | add => two Value.add
  | sub => two Value.sub
  | mul => two Value.mul
  | div => two Value.div
  | mod => two Value.mod
  | random => .draw
  | shl => two Value.shiftLeft
  | shr => two Value.shiftRight
  | iNot => one Value.complement
  | iAnd => two Value.bitAnd
  | iOr => two Value.bitOr
  | iXor => two Value.bitXor
  | isTrue => one fun a => .ok a.truth
  | isFalse => one fun a => .ok a.falsity
  | and => two fun a b => .ok (a.both b)
  | or => two fun a b => .ok (a.either b)
  | xor => two fun a b => .ok (a.eitherOnly b)
  | strGet => .operate (.binary .composite .native Value.charAt)
  | strLen => .operate (.unary .composite fun a => .ok a.length)
  | subStr => .operate (.ternary .composite .native .native Value.substring)
  | isEq => two fun a b => .ok (a.equal b)
  | isLt => two Value.less
  | isGt => two Value.greater
  | typInt => one fun a => .ok (a.hasKind .integer)
  | typFlt => one fun a => .ok (a.hasKind .float)
  | typStr => one fun a => .ok (a.hasKind .text)
  | ifTrue => .condition
  | endIf => .pass
  | goto => .jump
  | pos => .pass
  | quit => .halt
  | rem => .pass
  | exe => .execute
  | log => .log .info
  | logW => .log .warning
  | logE => .log .error
  | echo => .setEcho
  | cls => .clear

end Command

end SimpleBatch
