/-!
# Files

The operations on files that the console program needs, in any monad that has
them, and why they can fail. Paths are texts; their components are separated
by slashes.
-/

namespace SimpleBatch

/-- Why an operation on a file fails. -/
inductive FileError where
  | notFound
  | alreadyExists
  | notDirectory
  | isDirectory
  | nameTooLong
  /-- The path has a character that no path can have. -/
  | nulInPath
  /-- The content is no text. -/
  | notText
  | other (message : String)
deriving DecidableEq, Repr

/-- What is said of a failure. -/
def FileError.message : FileError → String
  | notFound => "No such file or directory (os error 2)"
  | alreadyExists => "File exists (os error 17)"
  | notDirectory => "Not a directory (os error 20)"
  | isDirectory => "Is a directory (os error 21)"
  | nameTooLong => "File name too long (os error 36)"
  | nulInPath => "file name contained an unexpected NUL byte"
  | notText => "stream did not contain valid UTF-8"
  | other message => message

/-- A monad with operations on files. -/
class Files (m : Type → Type) where
  /-- Whether a path is that of a directory. -/
  isDirectory : String → m Bool
  /-- A directory is created in an existing one. -/
  createDirectory : String → m (Except FileError Unit)
  /-- The content of a file. -/
  read : String → m (Except FileError ByteArray)
  /-- A file gets a content, whether it exists or not. -/
  write : String → ByteArray → m (Except FileError Unit)

/-- The components of a path. -/
def pathComponents (path : String) : List String :=
  ((go path.toList []).filter (· ≠ [])).map String.ofList
where
  /-- The parts of a text between slashes, the first one after `part`. -/
  go : List Char → (part : List Char) → List (List Char)
  | [], part => [part.reverse]
  | c :: cs, part => if c = '/' then part.reverse :: go cs [] else go cs (c :: part)

namespace Files

variable {m : Type → Type} [Monad m] [Files m]

/-- The content of a file as text. -/
def readText (path : String) : m (Except FileError String) := do
  match ← Files.read path with
  | .error e => return .error e
  | .ok bytes =>
    match String.fromUTF8? bytes with
    | some text => return .ok text
    | none => return .error .notText

/-- A directory is created; if it cannot be for lack of the one it is in, then
    after that one, which `parent` creates. A directory that exists is fine. -/
def createAfter (path : String) (parent : m (Except FileError Unit)) :
    m (Except FileError Unit) := do
  match ← settle with
  | .error .notFound =>
    match ← parent with
    | .error e => return .error e
    | .ok _ => settle
  | result => return result
where
  /-- The directory is created, unless it exists. -/
  settle : m (Except FileError Unit) := do
    match ← Files.createDirectory path with
    | .ok _ => return .ok ()
    | .error e => if ← Files.isDirectory path then return .ok () else return .error e

/-- The directory with components in reverse order is created, together with
    those it is in. -/
def createComponents (root : String) : List String → m (Except FileError Unit)
  | [] => return .ok ()
  | name :: parents =>
    createAfter (root ++ String.intercalate "/" (name :: parents).reverse)
      (createComponents root parents)

/-- A directory is created, together with those it is in. -/
def createDirectories (path : String) : m (Except FileError Unit) :=
  let root := if path.toList.head? = some '/' then "/" else ""
  let components := (pathComponents path).filter (· ≠ ".")
  createAfter path (createComponents root components.reverse.tail)

end Files

end SimpleBatch
