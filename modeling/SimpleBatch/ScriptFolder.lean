import SimpleBatch.Memory

/-!
# The folder of the scripts

Scripts are files of one directory, named after the script with an extension.
The directory is the one given on the command line; otherwise the one of the
variable `SBAT_DIR`, if that is not empty; otherwise a directory among the data
of the user.

A directory that does not exist is created with a first script in it,
`ScriptFolder.hello`.
-/

namespace SimpleBatch

/-- Whether a path begins at the root. -/
def isAbsolute (path : String) : Bool :=
  path.toList.head? = some '/'

/-- The path of a name below a directory. An absolute name stands for itself. -/
def joinPath (dir name : String) : String :=
  if isAbsolute name || dir = "" then name
  else if dir.toList.getLast? = some '/' then dir ++ name
  else dir ++ "/" ++ name

/-- The variables of the process that say where scripts are. -/
structure Variables where
  /-- The directory of the scripts. -/
  sbatDir : Option String := none
  /-- The directory of the user. -/
  home : Option String := none
  /-- The directory of the user's data, if it is an absolute path. -/
  dataHome : Option String := none
deriving DecidableEq, Repr

/-- The directory of the user's data. -/
def Variables.userData? (v : Variables) : Option String :=
  (v.dataHome.filter isAbsolute).or (v.home.map (joinPath · ".local/share"))

/-- Where scripts are found, and the environment that they see. -/
structure ScriptFolder where
  dir : String
  extension : String := "SB"
  environment : Environment := {}
deriving DecidableEq, Repr

namespace ScriptFolder

/-- The directory of the scripts, given the one of the command line. -/
def locate (given : Option String) (v : Variables) : String :=
  match given, v.sbatDir.filter (· ≠ "") with
  | some dir, _ => dir
  | none, some dir => dir
  | none, none =>
    match v.userData? with
    | some data => joinPath (joinPath data "sbat") "SBAT"
    | none => "SBAT"

/-- The path of a script. -/
def path (folder : ScriptFolder) (name : String) : String :=
  joinPath folder.dir (name ++ "." ++ folder.extension)

/-- The first script of a new directory. -/
def hello : String :=
  "ECHO 0
REM \"This is a test Simple Batch Program\"

LOG \"Hello, World!\"

VAR %1,\"MyName\"
TYPSTR %MyName%
IF
LOG \"Hello, %MyName%!\"
ENDIF
"

end ScriptFolder

end SimpleBatch
