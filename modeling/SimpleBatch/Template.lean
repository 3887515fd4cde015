import SimpleBatch.Memory

/-!
# Templates

A text argument can refer to memory:

* `%0` to `%9` refer to an argument of the script;
* `%NAME%` refers to the value of a name, and `%&NAME%` to its slot;
* `%%` stands for a percent sign.

A percent sign at the very end stands for nothing, and so does one that begins
a name without an end, together with the rest of the text.

A template is *composite*, replaced by the text in which its references are
written out; or *native*: then a template that is nothing but one reference is
replaced by the value that it refers to, with its own kind. What a reference
brings in is never read as a template again.
-/

namespace SimpleBatch

open Text

/-- A reference to memory. -/
inductive Reference where
  /-- The value of an argument of the script. -/
  | argument (index : Nat)
  /-- The value of a name. -/
  | value (name : String)
  /-- The slot of a name. -/
  | address (name : String)
deriving DecidableEq, Repr

/-- The reference with a text between percent signs. -/
def Reference.ofName (cs : List Char) : Reference :=
  match cs with
  | '&' :: name => address (String.ofList name)
  | name => value (String.ofList name)

/-- A piece of a template. -/
inductive Piece where
  /-- A character that stands for itself. -/
  | literal (c : Char)
  /-- A reference, to be replaced. -/
  | reference (r : Reference)
deriving DecidableEq, Repr

/-- The pieces of a template. -/
def Piece.parse : List Char → List Piece
  | [] => []
  | ['%'] => []
  | '%' :: c :: rest =>
    if c = '%' then literal '%' :: parse rest
    else if c.isDigit then reference (.argument (numeralValue 10 [c])) :: parse rest
    else
      match rest.dropWhile (· ≠ '%') with
      | [] => []
      | _ :: _ =>
        reference (.ofName (c :: rest.takeWhile (· ≠ '%'))) ::
          parse (rest.dropWhile (· ≠ '%')).tail
  | c :: rest => literal c :: parse rest
termination_by cs => cs.length
decreasing_by
  all_goals
    simp only [List.length_cons, List.length_tail]
    grind [List.dropWhile_sublist, List.Sublist.length_le]

/-- How a template is replaced. -/
inductive Substitution where
  /-- A single reference keeps the kind of its value. -/
  | native
  /-- The result is a text. -/
  | composite
deriving DecidableEq, Repr

namespace Memory

variable (m : Memory)

/-- The slot of a name that has to have one. -/
def slotOf (name : String) : Except Fault Nat :=
  match m.lookup? name with
  | some slot => .ok slot
  | none => .error (.undeclared name)

/-- The value that a reference refers to. -/
def dereference : Reference → Except Fault Value
  | .argument index => .ok (m.read index)
  | .value name => (m.slotOf name).map m.read
  | .address name => (m.slotOf name).map fun slot => .integer (Int32.ofNat slot)

/-- The text that a piece of a template is replaced by. -/
def expand : Piece → Except Fault String
  | .literal c => .ok (String.singleton c)
  | .reference r => (m.dereference r).map Value.render

/-- The text with all references written out. -/
def interpolate (pieces : List Piece) : Except Fault Value :=
  (pieces.mapM m.expand).map fun texts => .text (String.join texts)

/-- The value that a text is replaced by. -/
def substitute (mode : Substitution) (s : String) : Except Fault Value :=
  match mode, Piece.parse s.toList with
  | .native, [.reference r] => m.dereference r
  | _, pieces => m.interpolate pieces

/-- The value that an argument stands for: a text is a template, and a number
    stands for itself. -/
def resolve (mode : Substitution) (value : Value) : Except Fault Value :=
  match value with
  | .text s => m.substitute mode s
  | _ => .ok value

/-- The memory with a value written to the slot that a destination stands for,
    or to the register if there is no destination. -/
def assign (value : Value) (destination : Option Value) : Except Fault Memory :=
  match destination with
  | none => .ok (m.setRegister value)
  | some d =>
    match m.resolve .native d with
    | .ok (.integer address) => m.store address value
    | .ok other => .error (.destinationKind other.kind)
    | .error fault => .error fault

end Memory

end SimpleBatch
