import SimpleBatch.Console
import Std.Time

/-!
# The program

The console program on the files of the system: it takes its command line,
the variables of its surroundings and the time, and shows what it has to show
as the script runs.
-/

namespace SimpleBatch

/-- Why an operation of the system on a file failed. -/
def FileError.ofError : IO.Error → FileError
  | .noFileOrDirectory .. => .notFound
  | .alreadyExists .. => .alreadyExists
  | e => .other (toString e)

/-- The result of an operation of the system on a file. -/
def attempt {α : Type} (operation : IO α) : IO (Except FileError α) := do
  try return .ok (← operation)
  catch e => return .error (.ofError e)

instance : Files IO where
  isDirectory path := do
    match ← attempt (IO.FS.realPath path) with
    | .ok real => real.isDir
    | .error _ => return false
  createDirectory path := attempt (IO.FS.createDir path)
  read path := attempt (IO.FS.readBinFile path)
  write path content := attempt (IO.FS.writeBinFile path content)

/-- The current moment. -/
def Moment.now : IO Moment := do
  let t ← Std.Time.PlainDateTime.now
  return ⟨t.year.toInt, t.month.val.toNat, t.day.val.toNat, t.hour.val.toNat,
    t.minute.val.toNat, t.second.val.toNat⟩

namespace Console

/-- Something is shown. -/
def display : Shown → IO Unit
  | .output text => do
    let out ← IO.getStdout
    out.putStr text
    out.flush
  | .message text => do
    let err ← IO.getStderr
    err.putStr text

/-- A script is run, and what it says is shown after each line. -/
partial def interact (ready : Ready) (started : Nat) (r : Run (Array Call)) : IO Exit := do
  let progress := ready.program.advance Host.trace r
  for call in progress.host do
    (← respond call).forM display
  match progress with
  | .running r => interact ready started { r with machine := { r.machine with host := #[] } }
  | ended =>
    let elapsed := (← IO.monoMsNow) - started
    return (close? ready elapsed ended).getD { code := 1, shown := [] }

/-- The program is run with the words after its name. -/
def start (words : List String) : IO Exit := do
  let surroundings : Variables := {
    sbatDir := ← IO.getEnv "SBAT_DIR"
    home := ← IO.getEnv "HOME"
    dataHome := ← IO.getEnv "XDG_DATA_HOME" }
  let started ← IO.monoMsNow
  let clockSeed := UInt64.ofNat (← IO.monoNanosNow)
  match ← prepare { words, surroundings, now := ← Moment.now, clockSeed } with
  | .error exit => return exit
  | .ok ready => interact ready started (.start ready.setup ready.invocation #[])

end Console

end SimpleBatch

/-- The program. -/
def main (args : List String) : IO UInt32 := do
  let exit ← SimpleBatch.Console.start args
  exit.shown.forM SimpleBatch.Console.display
  return UInt32.ofNat exit.code
