import SimpleBatch.Fault

/-!
# Memory

A run of a script has 107 slots, each holding a value at all times:

* slots 0 to 9 hold the arguments the script was started with, its name first;
* slots 10 to 99 are for general use, and get names in the order in which the
  script declares them;
* slot 100 is the *register*;
* slots 101 to 106 hold the environment the script was started in.

Only the slots for general use and the register can be written. The register
and the environment have reserved names, which are found before any declared
name; of several declarations of a name, the first one counts.
-/

namespace SimpleBatch

open Text

/-- What a script can know of its surroundings, taken when it starts. -/
structure Environment where
  date : String := ""
  time : String := ""
  inDesigner : Bool := false
  inLevel : Bool := false
  levelName : String := ""
  mapName : String := ""
deriving DecidableEq, Repr

/-- The slots of a run and the names of its variables. -/
structure Memory where
  /-- The values of the slots. -/
  slots : Vector Value 107
  /-- The declared names: the first is that of slot 10, and so on. -/
  names : List String
deriving DecidableEq, Repr

namespace Memory

/-- The first slot that a declaration names. -/
def firstVariable : Nat := 10

/-- The slot of the register. -/
def registerSlot : Nat := 100

/-- The names that always stand for the same slot. -/
def reserved : List (String × Nat) :=
  [("REGISTER", 100), ("DATE", 101), ("TIME", 102), ("IN_DESIGNER", 103), ("IN_LEVEL", 104),
    ("LEVEL_NAME", 105), ("MAP_NAME", 106)]

/-- The value of a slot when a run starts. -/
def initial (args : List Value) (env : Environment) (slot : Nat) : Value :=
  if slot < firstVariable then args.getD slot (.integer 0)
  else
    match slot with
    | 101 => .text env.date
    | 102 => .text env.time
    | 103 => .ofBool env.inDesigner
    | 104 => .ofBool env.inLevel
    | 105 => .text env.levelName
    | 106 => .text env.mapName
    | _ => .integer 0

/-- The memory of a run that starts. Arguments that are not given are zero. -/
def start (args : List Value) (env : Environment) : Memory :=
  { slots := Vector.ofFn fun slot => initial args env slot, names := [] }

variable (m : Memory)

/-- The value of a slot, if there is such a slot. -/
def get? (slot : Nat) : Option Value :=
  m.slots[slot]?

/-- The value of a slot; zero beyond the last one. -/
def read (slot : Nat) : Value :=
  (m.get? slot).getD (.integer 0)

/-- The value of the register. -/
def register : Value :=
  m.slots[registerSlot]

/-- The memory with another value in the register. -/
def setRegister (value : Value) : Memory :=
  { m with slots := m.slots.set registerSlot value }

/-- The memory with a value written to an address that a script computed. -/
def store (address : Int32) (value : Value) : Except Fault Memory :=
  if 0 ≤ address ∧ address.toInt.toNat < 107 then
    let slot := address.toInt.toNat
    if h : firstVariable ≤ slot ∧ slot ≤ registerSlot then
      .ok { m with slots := m.slots.set slot value (Nat.lt_of_le_of_lt h.2 (by decide)) }
    else .error (.readOnlySlot slot)
  else .error (.addressOutside address)

/-- Whether a text can be declared as a name: it is not empty, and its first
    character is neither a percent sign nor a digit. -/
def isName (name : String) : Bool :=
  match name.toList with
  | [] => false
  | c :: _ => c != '%' && !c.isDigit

/-- The next slot to be named, and the memory in which it has a name and a
    value. -/
def declare (name : String) (value : Value) : Except Fault (Nat × Memory) :=
  let slot := firstVariable + m.names.length
  if h : slot < registerSlot then
    if isName name then
      .ok (slot, {
        slots := m.slots.set slot value (Nat.lt_trans h (by decide))
        names := m.names ++ [name] })
    else .error (.invalidName name)
  else .error .memoryExhausted

/-- The slot of a name. -/
def lookup? (name : String) : Option Nat :=
  (reserved.lookup name).or ((m.names.idxOf? name).map (firstVariable + ·))

/-- The name under which a slot is shown: slots for general use without a
    declared name have their number, and arguments have no name. -/
def slotName? (slot : Nat) : Option String :=
  if slot < firstVariable then none
  else if slot < registerSlot then some (m.names[slot - firstVariable]?.getD (ofNat slot))
  else (reserved.find? (·.2 == slot)).map (·.1)

/-- A value with its kind, as shown in a dump. -/
def describe (value : Value) : String :=
  "[" ++ value.kind.name ++ "] " ++ value.render

/-- The line of a dump that shows a slot. -/
def dumpSlot (slot : Nat) : String :=
  "\nIndex " ++ String.ofList (paddedDecimal 2 slot) ++ " (" ++
    (m.slotName? slot).getD "unnamed" ++ "): " ++ describe (m.read slot)

/-- A listing of the register and of the slots before it. -/
def dump : String :=
  "Memory dump of Simple Batch Interpreter:\nRegister: " ++ describe m.register ++
    String.join ((List.range registerSlot).map m.dumpSlot)

end Memory

end SimpleBatch
