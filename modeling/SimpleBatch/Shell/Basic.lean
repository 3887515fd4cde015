import SimpleBatch.Files.Basic
import SimpleBatch.Shell.Format
import SimpleBatch.Shell.Token

/-!
# A stand-in for the shell

Commands of the host are lines for the shell of the system, which is no part of
the program. What stands in for it here covers a fragment, so that a console on
a tree of files can run a script with such commands: simple commands, their
parameters, redirections and pipelines, and lists of them joined by `;`, `&&`
and `||`. Its commands are `:`, `true`, `false`, `exit`, `echo`, `printf` and
`cat`; any other name is not found. Statements about the console are about
scripts that run no command of the host, and do not rest on it.

A command writes to descriptor 1 for its output and to descriptor 2 for its
messages, wherever these lead to.
-/

namespace SimpleBatch.Shell

/-- A redirection of a command. -/
structure Redirect where
  descriptor : Nat
  direction : Direction
  target : Word
deriving DecidableEq, Repr

/-- A simple command. -/
structure Simple where
  words : List Word := []
  redirects : List Redirect := []
deriving DecidableEq, Repr

/-- The state of a shell. -/
structure State where
  bindings : List (String × String) := []
  /-- The exit status of the last command. -/
  status : Nat := 0
  /-- Whether the shell has ended. -/
  exited : Bool := false
  output : ByteArray := .empty
  messages : ByteArray := .empty

/-- Where what is written to a descriptor goes. -/
inductive Sink where
  | output
  | messages
  | file (path : String)
  | nowhere
deriving DecidableEq, Repr

/-- What a command has done. -/
structure Result where
  output : ByteArray := .empty
  messages : ByteArray := .empty
  status : Nat := 0
  exits : Bool := false

/-! ## Reading commands -/

/-- The simple command at the start of a list of tokens, and the tokens after
    it. -/
def readSimple : List Token → Simple × List Token
  | .word w :: rest =>
    let (c, rest) := readSimple rest
    ({ c with words := w :: c.words }, rest)
  | .redirect descriptor direction :: .word target :: rest =>
    let (c, rest) := readSimple rest
    ({ c with redirects := ⟨descriptor, direction, target⟩ :: c.redirects }, rest)
  | rest => ({}, rest)

/-- How a pipeline depends on the one before it. -/
inductive Link where
  | always
  | ifSucceeded
  | ifFailed
deriving DecidableEq, Repr

/-- Commands whose output is the input of the next. -/
structure Pipeline where
  link : Link
  commands : List Simple
deriving DecidableEq, Repr

/-- The text of the token at which reading failed. -/
def Token.text : Token → String
  | word _ => "word"
  | redirect _ _ => "redirection"
  | semicolon => ";"
  | newline => "newline"
  | both => "&&"
  | either => "||"
  | pipe => "|"

/-- The pipelines of a list of tokens, or the token that should not be there.
    The fuel bounds the number of commands. -/
def readPipelines : (fuel : Nat) → Link → List Simple → List Token → Except String (List Pipeline)
  | 0, _, _, _ => .ok []
  | fuel + 1, link, before, tokens =>
    let (c, rest) := readSimple tokens
    let here : List Pipeline := [⟨link, before ++ [c]⟩]
    if c = {} then
      match rest with
      | [] => if before.isEmpty && link = .always then .ok [] else .error "end of file"
      | .newline :: rest => readPipelines fuel link before rest
      | t :: _ => .error t.text
    else
      match rest with
      | [] => .ok here
      | .pipe :: rest => readPipelines fuel link (before ++ [c]) rest
      | .both :: rest => (readPipelines fuel .ifSucceeded [] rest).map (here ++ ·)
      | .either :: rest => (readPipelines fuel .ifFailed [] rest).map (here ++ ·)
      | .semicolon :: rest => (readPipelines fuel .always [] rest).map (here ++ ·)
      | .newline :: rest => (readPipelines fuel .always [] rest).map (here ++ ·)
      | t :: _ => .error t.text

/-! ## Words -/

/-- The value of a parameter. -/
def State.parameter (s : State) (name : String) : String :=
  if name = "?" then Text.ofNat s.status
  else if name = "#" then "0"
  else if name = "0" then "sh"
  else (s.bindings.lookup name).getD ""

/-- The parts of a text between blanks, the first one after `field`; whether
    the text ends in a part is kept by an empty last one. -/
def cutBlanks (field : List Char) : List Char → List (List Char)
  | [] => [field]
  | c :: cs =>
    if c = ' ' ∨ c = '\t' ∨ c = '\n' then field :: cutBlanks [] (cs.dropWhile (· = ' '))
    else cutBlanks (field ++ [c]) cs
termination_by cs => cs.length
decreasing_by
  · have := (List.dropWhile_sublist (l := cs) (· = ' ')).length_le
    simp only [List.length_cons]
    omega
  · simp

/-- The fields that a word is replaced by, before the field that is being
    read. -/
def State.expandFrom (s : State) (field : Option (List Char)) : Word → List String
  | [] => (field.map String.ofList).toList
  | .text cs :: rest => s.expandFrom (some (field.getD [] ++ cs)) rest
  | .parameter name true :: rest =>
    s.expandFrom (some (field.getD [] ++ (s.parameter name).toList)) rest
  | .parameter name false :: rest =>
    match (cutBlanks (field.getD []) (s.parameter name).toList).reverse with
    | [] => s.expandFrom field rest
    | last :: earlier =>
      let done := (earlier.reverse.filter (· ≠ [])).map String.ofList
      done ++ s.expandFrom (if last = [] then none else some last) rest

/-- The fields that a word is replaced by. -/
def State.expand (s : State) (w : Word) : List String :=
  s.expandFrom none w

/-- The text that a word is replaced by, as one field. -/
def State.expandOne (s : State) (w : Word) : String :=
  String.intercalate " " (s.expand w)

/-- The variable and value that a word assigns, if it is an assignment. -/
def State.assignment? (s : State) (w : Word) : Option (String × String) :=
  let name := w.takeWhile fun p =>
    match p with
    | .text [c] => isNameChar c
    | _ => false
  match name, w.drop name.length with
  | .text [c] :: _, .text ['='] :: value =>
    if c.isDigit then none
    else some (s.expandOne name, s.expandOne value)
  | _, _ => none

/-! ## Running commands -/

variable {m : Type → Type} [Monad m] [Files m]

/-- A message of the shell. -/
def message (text : String) : ByteArray :=
  ("sh: 1: " ++ text ++ "\n").toUTF8

/-- The contents of files, one after another; the input for none. -/
def cat (input : ByteArray) (paths : List String) : m Result := do
  if paths.isEmpty then return { output := input }
  let mut r : Result := {}
  for path in paths do
    if path = "-" then r := { r with output := r.output ++ input }
    else
      match ← Files.read path with
      | .ok bytes => r := { r with output := r.output ++ bytes }
      | .error e =>
        let reason := (e.message.splitOn " (").headD ""
        let text := ("cat: " ++ path ++ ": " ++ reason ++ "\n").toUTF8
        r := { r with messages := r.messages ++ text, status := 1 }
  return r

/-- A command with its arguments is run on an input. -/
def runNamed (status : Nat) (input : ByteArray) (name : String) (args : List String) :
    m Result :=
  match name with
  | ":" => return {}
  | "true" => return {}
  | "false" => return { status := 1 }
  | "exit" =>
    let code :=
      match args with
      | [] => status
      | a :: _ => Text.numeralValue 10 a.toList % 256
    return { status := code, exits := true }
  | "echo" => return { output := echo args }
  | "printf" =>
    match args with
    | [] => return { messages := message "printf: usage: printf format [arg ...]", status := 2 }
    | format :: args => return { output := printf format args }
  | "cat" => cat input args
  | _ => return { messages := message (name ++ ": not found"), status := 127 }

/-- The sinks of a command after a redirection, or what is wrong with it. -/
def redirect (s : State) (sinks : List (Nat × Sink)) (input : ByteArray) (r : Redirect) :
    m (Except String (List (Nat × Sink) × ByteArray)) := do
  let target := s.expandOne r.target
  match r.direction with
  | .duplicate =>
    let sink := (sinks.lookup (Text.numeralValue 10 target.toList)).getD .nowhere
    return .ok ((r.descriptor, sink) :: sinks, input)
  | .input =>
    if target = "/dev/null" then return .ok (sinks, .empty)
    match ← Files.read target with
    | .ok bytes => return .ok (sinks, bytes)
    | .error _ => return .error ("cannot open " ++ target ++ ": No such file")
  | direction =>
    if target = "/dev/null" then return .ok ((r.descriptor, .nowhere) :: sinks, input)
    let old ← Files.read target
    let content := match direction, old with
      | .append, .ok bytes => bytes
      | _, _ => .empty
    match ← Files.write target content with
    | .ok _ => return .ok ((r.descriptor, .file target) :: sinks, input)
    | .error _ => return .error ("cannot create " ++ target ++ ": Directory nonexistent")

/-- What is written to a descriptor reaches its sink. -/
def deliver (sinks : List (Nat × Sink)) (descriptor : Nat) (bytes : ByteArray) (r : Result) :
    m Result := do
  match sinks.lookup descriptor with
  | some .output => return { r with output := r.output ++ bytes }
  | some .messages => return { r with messages := r.messages ++ bytes }
  | some (.file path) =>
    let old := (← Files.read path).toOption.getD .empty
    let _ ← Files.write path (old ++ bytes)
    return r
  | _ => return r

/-- A simple command is run on an input. -/
def runSimple (s : State) (input : ByteArray) (c : Simple) : m (State × Result) := do
  let assignments := c.words.takeWhile fun w => (s.assignment? w).isSome
  let words := (c.words.drop assignments.length).flatMap s.expand
  let mut sinks : List (Nat × Sink) := [(1, .output), (2, .messages)]
  let mut data := input
  for r in c.redirects do
    match ← redirect s sinks data r with
    | .ok (sinks', data') =>
      sinks := sinks'
      data := data'
    | .error text => return (s, { messages := message text, status := 2 })
  match words with
  | [] =>
    let bindings := assignments.filterMap s.assignment?
    return ({ s with bindings := bindings.reverse ++ s.bindings }, {})
  | name :: args =>
    let r ← runNamed s.status data name args
    let delivered ← deliver sinks 1 r.output { r with output := .empty, messages := .empty }
    return (s, ← deliver sinks 2 r.messages delivered)

/-- The commands of a pipeline are run, the output of each being the input of
    the next. -/
def runPipe (s : State) (input : ByteArray) : List Simple → m Result
  | [] => return {}
  | [c] => return (← runSimple s input c).2
  | c :: rest => do
    let (_, first) ← runSimple s input c
    let last ← runPipe s first.output rest
    return { last with messages := first.messages ++ last.messages, exits := false }

/-- The state after a pipeline. -/
def runPipeline (s : State) (p : Pipeline) : m State := do
  let (s, r) ← match p.commands with
    | [c] => runSimple s .empty c
    | commands => pure (s, ← runPipe s .empty commands)
  return { s with
    status := r.status
    exited := r.exits
    output := s.output ++ r.output
    messages := s.messages ++ r.messages }

/-- The state after a list of pipelines. -/
def runAll (s : State) : List Pipeline → m State
  | [] => return s
  | p :: rest => do
    let due :=
      match p.link with
      | .always => true
      | .ifSucceeded => s.status = 0
      | .ifFailed => s.status ≠ 0
    let s ← if due then runPipeline s p else pure s
    if s.exited then return s else runAll s rest

/-- What a command of the host writes: its output, and then its messages. -/
def run (command : String) : m ByteArray := do
  match tokens? command with
  | none => return message "Syntax error: Unterminated quoted string"
  | some tokens =>
    match readPipelines (tokens.length + 1) .always [] tokens with
    | .error token => return message ("Syntax error: \"" ++ token ++ "\" unexpected")
    | .ok pipelines =>
      let s ← runAll {} pipelines
      return s.output ++ s.messages

end SimpleBatch.Shell
