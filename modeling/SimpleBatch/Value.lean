import SimpleBatch.Text.Space
import SimpleBatch.Decimal.Shortest
import SimpleBatch.Decimal.Reader

/-!
# Values

A value of a script is an integer of 32 bits, a floating-point number of 32
bits, or a text. A value carries its kind: a text is never taken for a number,
and it is up to each operator which kinds it accepts.

* `Value.render` writes a value as text;
* `Value.ofToken` reads the value that a token denotes: a number if it is
  written as one, `1` and `0` for the words `true` and `false`, and otherwise
  the text between its quotes, so that a quoted number is a text;
* `Value.isTrue` is the truth of a value. A negative integer is true, and a
  negative floating-point number is false.
-/

namespace SimpleBatch

open Text

/-- The kind of a value. -/
inductive Kind where
  | integer
  | float
  | text
deriving DecidableEq, Repr

/-- The name of a kind, as messages give it. -/
def Kind.name : Kind → String
  | integer => "Integer"
  | float => "Float"
  | text => "Text"

/-- A value. -/
inductive Value where
  | integer (n : Int32)
  | float (x : Single)
  | text (s : String)
deriving DecidableEq, Repr

namespace Value

instance : Inhabited Value := ⟨integer 0⟩

/-- The integer of a truth value. -/
def ofBool (b : Bool) : Value :=
  integer (if b then 1 else 0)

/-- The kind of a value. -/
def kind : Value → Kind
  | integer _ => .integer
  | float _ => .float
  | text _ => .text

/-- Whether a value counts as true. -/
def isTrue : Value → Bool
  | integer n => n != 0
  | float x => Binary.zero.lt x
  | text s => s != ""

/-- The floating-point number nearest to a number; none for a text. -/
def toSingle? : Value → Option Single
  | integer n => some (.ofInt n.toInt)
  | float x => some x
  | text _ => none

/-! ## Writing -/

/-- A floating-point number as text: the shortest decimal that reads back. -/
def renderSingle : Single → List Char
  | .nan => "NaN".toList
  | .infinite negative => withSign negative "Infinity".toList
  | .finite negative magnitude => withSign negative (Format.single.shortest magnitude).notate
where
  /-- A text after a minus sign, if the sign is negative. -/
  withSign (negative : Bool) (cs : List Char) : List Char :=
    if negative then '-' :: cs else cs

/-- A value as text. -/
def render : Value → String
  | integer n => ofInt n.toInt
  | float x => String.ofList (renderSingle x)
  | text s => s

/-! ## Reading -/

/-- A text without the pair of double quotes around it, if there is one. -/
def unquote (token : String) : String :=
  match token.toList with
  | '"' :: cs => if cs.getLast? = some '"' then String.ofList cs.dropLast else token
  | _ => token

/-- The integer that a text denotes between white space, if it has 32 bits. -/
def readInteger? (s : String) : Option Int32 :=
  match Decimal.readInteger? (trim s.toList) with
  | some n =>
    if Int32.minValue.toInt ≤ n ∧ n ≤ Int32.maxValue.toInt then some (Int32.ofInt n) else none
  | none => none

/-- The floating-point number that a text denotes between white space. -/
def readSingle? (s : String) : Option Single :=
  (Decimal.read? (trim s.toList)).map fun (negative, d) => d.toBinary .single negative

/-- The number that a text denotes: an integer if it can be one. -/
def readNumber? (s : String) : Option Value :=
  ((readInteger? s).map integer).or ((readSingle? s).map float)

/-- Whether a token is a word, in any case of its ASCII letters. -/
def isWord (word token : String) : Bool :=
  token.map Char.toLower == word

/-- The text that a token denotes, whatever it looks like. -/
def ofQuoted (token : String) : Value :=
  text (unquote token)

/-- The value that a token denotes. -/
def ofToken (token : String) : Value :=
  if token = "" then integer 0
  else
    match readNumber? token with
    | some v => v
    | none =>
      if isWord "true" token then integer 1
      else if isWord "false" token then integer 0
      else ofQuoted token

end Value

end SimpleBatch
