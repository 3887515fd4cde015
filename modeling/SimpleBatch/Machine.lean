import SimpleBatch.Action
import SimpleBatch.Program

/-!
# Running a command

The state of a run besides its place in the program is a `Machine`: memory,
the switch for echoing, the random generator and the host. A command changes
the machine and says where the run goes on; it may end in a fault instead, and
then the machine is as it was left.

A command that has run is echoed if echoing is on after it: its keyword as
written and the values of its tokens before substitution. A keyword that
belongs to no command is reported to the host and passed over.
-/

namespace SimpleBatch

open Text

/-- The state of a run. -/
structure Machine (σ : Type) where
  memory : Memory
  /-- Whether lines are echoed. -/
  echo : Bool
  generator : Generator
  /-- The state of the host. -/
  host : σ

/-- A computation that changes a machine and may end in a fault; what it
    changed before the fault stays changed. -/
abbrev Exec (σ : Type) := ExceptT Fault (StateM (Machine σ))

/-- Where a run goes on after a command. -/
inductive Flow where
  /-- At the next line. -/
  | next
  /-- At the line after the one with this index. -/
  | after (i : Nat)
  /-- Nowhere: the run has ended. -/
  | halt
deriving DecidableEq, Repr

/-- The index of the first label, in order, that is written like the target. -/
def Memory.findLabel (m : Memory) (target : String) :
    List (Nat × String) → Except Fault (Option Nat)
  | [] => .ok none
  | (i, token) :: rest => do
    let label ← m.resolve .composite (.ofToken token)
    if label.render = target then return some i else m.findLabel target rest

namespace Machine

variable {σ : Type}

/-- The value of the template that an argument is. -/
def resolve (mode : Substitution) (value : Value) : Exec σ Value := do
  ofExcept ((← get).memory.resolve mode value)

/-- A value is written to a destination. -/
def assign (value : Value) (destination : Option Value) : Exec σ Unit := do
  let m ← get
  let memory ← ofExcept (m.memory.assign value destination)
  set { m with memory }

/-- The host receives a call. -/
def call (host : Host σ) (c : Call) : Exec σ Unit :=
  modify fun m => { m with host := host.perform c m.host }

/-- The operand of a command that needs none: its first argument, or the
    register. -/
def operand (mode : Substitution) : List Value → Exec σ Value
  | [] => return (← get).memory.register
  | a :: _ => resolve mode a

/-- The operand of a command that needs one: its first argument. -/
def required (mode : Substitution) : List Value → Exec σ Value
  | [] => throw (.argumentCount 0)
  | a :: _ => resolve mode a

/-- A variable is declared. The last of two arguments is its name, which is no
    template, and the first one its value. -/
def declare (args : List Value) : Exec σ Unit := do
  let (name, value) ←
    match args with
    | [] => throw (.argumentCount 0)
    | [name] => pure (name, .integer 0)
    | value :: name :: _ => pure (name, ← resolve .native value)
  let m ← get
  let (_, memory) ← ofExcept (m.memory.declare name.render value)
  set { m with memory }

/-- A random number is drawn and written: between two bounds, if there are two
    arguments, and in `[0, 1)` otherwise. -/
def draw (args : List Value) : Exec σ Unit := do
  match args with
  | a :: b :: rest =>
    let lo ← resolve .native a
    let hi ← resolve .native b
    let m ← get
    let (value, generator) ← ofExcept (Value.random lo hi m.generator)
    set { m with generator }
    assign value rest.head?
  | _ =>
    let m ← get
    let (x, generator) := m.generator.unit
    set { m with generator }
    assign (.float x) args.head?

/-- An action is carried out on arguments, for the line of a program at an
    index. -/
def act (host : Host σ) (p : Program) (i : Nat) (args : List Value) : Action → Exec σ Flow
  | .operate op => do
    let m ← get
    let memory ← ofExcept (op.run m.memory args)
    set { m with memory }
    return .next
  | .declare => do
    declare args
    return .next
  | .draw => do
    draw args
    return .next
  | .condition => do
    if (← operand .native args).isTrue then return .next
    else return (p.endIfAfter? i).elim .next .after
  | .jump => do
    let target ← operand .composite args
    let label ← ofExcept ((← get).memory.findLabel target.render p.labels)
    return label.elim .next .after
  | .pass => return .next
  | .halt => return .halt
  | .execute => do
    call host (.execute (← required .composite args).render)
    return .next
  | .log level => do
    call host (.log level (← required .composite args).render)
    return .next
  | .setEcho => do
    let value ← required .native args
    modify fun m => { m with echo := value.isTrue }
    return .next
  | .clear => do
    call host .clear
    return .next

/-- An argument as it is echoed: a text with white space is quoted. -/
def echoArg (value : Value) : String :=
  match value with
  | .text s => if s.toList.any isSpace then "\"" ++ s ++ "\"" else s
  | _ => value.render

/-- The line that is echoed for a keyword and arguments. -/
def echoLine (keyword : String) (args : List Value) : String :=
  match args with
  | [] => keyword
  | _ => keyword ++ " " ++ String.intercalate ", " (args.map echoArg)

/-- The line of a program at an index is run. -/
def execute (host : Host σ) (p : Program) (i : Nat) (line : Line) (command? : Option Command) :
    Exec σ Flow := do
  match command? with
  | none =>
    call host (.log .error (Command.unknownMessage line.keyword ++ "."))
    return .next
  | some command =>
    let args := line.tokens.map Value.ofToken
    let flow ← act host p i args command.action
    if (← get).echo then call host (.echo (echoLine line.keyword args))
    return flow

end Machine

end SimpleBatch
