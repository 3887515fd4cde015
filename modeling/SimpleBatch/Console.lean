import SimpleBatch.CommandLine
import SimpleBatch.Files.Tree
import SimpleBatch.Run
import SimpleBatch.ScriptFolder
import SimpleBatch.Shell.Basic
import SimpleBatch.Text.Utf8

/-!
# The console program

The program reads its command line, finds the script in the folder of the
scripts, runs it, and shows what the script says: lines of the log and echoed
lines on the output, warnings and errors among the messages. Then it tells that
the run has completed, or what ended it.

Messages are those of the script and of the program itself. The diagnostics that
the program traces to the same stream are left out: each of them carries the
time of its record, and how many there are is set from outside. By default an
unknown keyword, for one, gives a record at the level of a warning.

What does not depend on the world is here: `prepare` goes from the command line
to a script that is ready to run, over any monad with files; `respond` is what
is shown for a call of the script; `close?` is what is shown at the end. `run?`
puts them together on a tree of files.
-/

namespace SimpleBatch

open Text

/-- Something that the program shows. -/
inductive Shown where
  /-- Text for the output. -/
  | output (text : String)
  /-- Text for the messages. -/
  | message (text : String)
deriving DecidableEq, Repr

/-- The end of the program: what it shows last, and its exit code. -/
structure Exit where
  code : Nat
  shown : List Shown
deriving DecidableEq, Repr

/-- What the program is started with. -/
structure Start where
  /-- The words after the name of the program. -/
  words : List String
  /-- The variables of the process. -/
  surroundings : Variables := {}
  /-- The moment of the start. -/
  now : Moment
  /-- The seed of a run for which none is given. -/
  clockSeed : UInt64 := 0

/-- A script that is ready to run. -/
structure Ready where
  program : Program
  invocation : Invocation
  setup : Setup
  /-- Whether memory is shown after the run. -/
  dumpMemory : Bool

namespace Console

/-- A line for the output. -/
def outputLine (text : String) : Shown :=
  .output (text ++ "\n")

/-- A line for the messages. -/
def messageLine (text : String) : Shown :=
  .message (text ++ "\n")

/-- The end of the program with a message. -/
def failure (text : String) : Exit :=
  { code := 1, shown := [messageLine ("sbat: " ++ text)] }

/-- How the program is called. -/
def usage : String :=
  "Usage: sbat [OPTIONS] <INVOCATION>..."

/-- The end of the program for a command line that is refused. -/
def refusal : CommandLine.Refusal → Exit
  | .help => { code := 0, shown := [outputLine usage] }
  | .version => { code := 0, shown := [outputLine "sbat"] }
  | _ => { code := 2, shown := [messageLine usage] }

/-! ## Before the run -/

section Prepare

variable {m : Type → Type} [Monad m] [Files m]

/-- The folder of the scripts is made sure to exist; a new one gets a first
    script. -/
def ensure (folder : ScriptFolder) : m (Except FileError Unit) := do
  if ← Files.isDirectory folder.dir then return .ok ()
  match ← Files.createDirectories folder.dir with
  | .error e => return .error e
  | .ok _ => Files.write (folder.path "HELLO") ScriptFolder.hello.toUTF8

/-- The script of an invocation is read from its folder. -/
def load (folder : ScriptFolder) (name : String) : m (Except Exit Program) := do
  match ← ensure folder with
  | .error e => return .error (failure ("cannot create " ++ folder.dir ++ ": " ++ e.message))
  | .ok _ =>
    let path := folder.path name
    match ← Files.readText path with
    | .error e =>
      return .error (failure ("Simple Batch program \"" ++ name ++ "\" not found (" ++ path ++
        "): " ++ e.message))
    | .ok source => return .ok (.ofSource source)

/-- The script that the program is started for. -/
def prepare (start : Start) : m (Except Exit Ready) := do
  match CommandLine.parse start.words with
  | .error reason => return .error (refusal reason)
  | .ok request =>
    let invocation := Invocation.parse request.line
    let folder : ScriptFolder :=
      { dir := ScriptFolder.locate request.dir start.surroundings
        environment := request.environment start.now }
    match ← load folder invocation.name with
    | .error e => return .error e
    | .ok program =>
      return .ok {
        program
        invocation
        setup := {
          environment := folder.environment
          seed := request.seed.getD start.clockSeed }
        dumpMemory := request.dumpMemory }

/-! ## During the run -/

/-- What is shown for a command of the host: its output line by line. -/
def showCommand (command : String) : m (List Shown) := do
  if command.toList.any (· = Char.ofNat 0) then
    return [messageLine ("error: EXE " ++ command ++ ": nul byte found in provided data")]
  else return (lines (ofBytesLossy (← Shell.run command))).map outputLine

/-- What is shown for a call of the script. -/
def respond : Call → m (List Shown)
  | .log .info text => return [outputLine text]
  | .log .warning text => return [messageLine ("warning: " ++ text)]
  | .log .error text => return [messageLine ("error: " ++ text)]
  | .echo line => return [outputLine line]
  | .clear => return [.output "\x1b[2J\x1b[1;1H"]
  | .execute command => showCommand command

end Prepare

/-! ## After the run -/

/-- The end of the program after a run that took some milliseconds. -/
def completion (ready : Ready) (milliseconds : Nat) (memory : Memory) : Exit :=
  let line := "Execution of Simple Batch Program \"" ++ ready.invocation.name ++
    "\" completed in " ++ ofNat milliseconds ++ " ms"
  { code := 0
    shown := outputLine line :: if ready.dumpMemory then [outputLine memory.dump] else [] }

/-- The end of the program after a run that ended in a fault. -/
def breakdown (ready : Ready) (e : ScriptError) : Exit :=
  failure (ready.invocation.name ++ ": " ++ e.message)

/-- The end of the program after a run, if the run has ended. -/
def close? {σ : Type} (ready : Ready) (milliseconds : Nat) : Progress σ → Option Exit
  | .running _ => none
  | .finished r => some (completion ready milliseconds r.machine.memory)
  | .failed e _ => some (breakdown ready e)

/-! ## The program on a tree of files -/

/-- The console while a script runs: the files, and what was shown. -/
structure State where
  files : FileTree
  shown : Array Shown := #[]

/-- The console after a call of the script. -/
def State.receive (call : Call) (s : State) : State :=
  let (shown, files) := (respond call : StateM FileTree (List Shown)).run s.files
  { files, shown := s.shown ++ shown }

/-- The console as a host. -/
def host : Host State where
  log level text := .receive (.log level text)
  execute command := .receive (.execute command)
  clear := .receive .clear
  echo line := .receive (.echo line)

/-- The end of the program and the files it leaves, if its run ends within
    `fuel` visits. The time of the run is taken as given. -/
def run? (fuel : Nat) (start : Start) (milliseconds : Nat) (files : FileTree) :
    Option (Exit × FileTree) :=
  match (prepare start : StateM FileTree (Except Exit Ready)).run files with
  | (.error exit, files) => some (exit, files)
  | (.ok ready, files) =>
    let progress := ready.program.resume host fuel (.start ready.setup ready.invocation { files })
    (close? ready milliseconds progress).map fun exit =>
      ({ exit with shown := progress.host.shown.toList ++ exit.shown }, progress.host.files)

end Console

/-- The text that a program shows on its output. -/
def Exit.output (e : Exit) : String :=
  String.join (e.shown.map fun
    | .output text => text
    | .message _ => "")

/-- The text that a program shows among its messages. -/
def Exit.messages (e : Exit) : String :=
  String.join (e.shown.map fun
    | .output _ => ""
    | .message text => text)

end SimpleBatch
