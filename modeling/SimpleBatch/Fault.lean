import SimpleBatch.Command
import SimpleBatch.Value

/-!
# Faults

What can go wrong while a command runs. A fault ends the run of the script; it
is reported with the line and the keyword of the command. Lines that are no
commands and unknown keywords are no faults.
-/

namespace SimpleBatch

open Text

/-- The reason why a command cannot run. -/
inductive Fault where
  /-- The command cannot be called with this number of arguments. -/
  | argumentCount (given : Nat)
  /-- The operator of the command is not defined on operands of these kinds. -/
  | operandKinds (command : Command) (kinds : List Kind)
  /-- The destination is no integer. -/
  | destinationKind (kind : Kind)
  /-- There is no slot with this address. -/
  | addressOutside (address : Int32)
  /-- The slot cannot be written. -/
  | readOnlySlot (slot : Nat)
  /-- A text was to be repeated less than once. -/
  | repeatCount
  /-- A text was to be repeated beyond the limit. -/
  | repeatTooLong (bytes count limit : Nat)
  /-- There is no character at this index of a text. -/
  | indexOutside (index : Int32) (length : Nat)
  /-- The part of a text reaches outside of it. -/
  | substringOutside (start count : Int32) (length : Nat)
  /-- The integer is no code of a character. -/
  | characterCode (code : Int32)
  /-- The name has no slot. -/
  | undeclared (name : String)
  /-- There is no slot left to name. -/
  | memoryExhausted
  /-- The text cannot be a name. -/
  | invalidName (name : String)
  /-- The text does not denote a number. -/
  | invalidNumber (text : String)
  /-- An integer was to be divided by zero. -/
  | divisionByZero
deriving DecidableEq, Repr

/-- What is said of a fault. -/
def Fault.message : Fault → String
  | argumentCount given => "cannot be called with " ++ ofNat given ++ " arguments"
  | operandKinds command kinds =>
    command.name ++ " cannot be applied to operands of type " ++
      String.intercalate " and " (kinds.map Kind.name)
  | destinationKind kind => "destination address must be an Integer, not " ++ kind.name
  | addressOutside address => "address " ++ ofInt address.toInt ++ " is outside memory"
  | readOnlySlot slot => "slot " ++ ofNat slot ++ " is read-only"
  | repeatCount => "cannot multiply a string by zero or a negative number"
  | repeatTooLong bytes count limit =>
    "repeating a string of " ++ ofNat bytes ++ " bytes " ++ ofNat count ++
      " times exceeds the " ++ ofNat limit ++ " byte limit"
  | indexOutside index length =>
    "index " ++ ofInt index.toInt ++ " is outside a string of length " ++ ofNat length
  | substringOutside start count length =>
    "substring at " ++ ofInt start.toInt ++ " of length " ++ ofInt count.toInt ++
      " is outside a string of length " ++ ofNat length
  | characterCode code => ofInt code.toInt ++ " is not a valid character code"
  | undeclared name =>
    "the variable \"" ++ name ++ "\" is not declared in the Simple Batch program"
  | memoryExhausted => "cannot declare new variable: memory array full"
  | invalidName name =>
    "cannot declare variable \"" ++ name ++
      "\": names cannot be empty or start with a percent sign or digit"
  | invalidNumber text => "failed to parse the string as a number: " ++ text
  | divisionByZero => "division by zero"

/-- A fault that ended a run, with the place where it arose. -/
structure ScriptError where
  /-- The number of the line, from one. -/
  line : Nat
  /-- The keyword of the line, in capital letters. -/
  command : String
  /-- The reason. -/
  fault : Fault
deriving DecidableEq, Repr

/-- What is said of a fault that ended a run. -/
def ScriptError.message (e : ScriptError) : String :=
  "line " ++ ofNat e.line ++ ": " ++ e.command ++ ": " ++ e.fault.message

end SimpleBatch
