import SimpleBatch.Files.Basic

/-!
# A tree of files

Directories and files as a value: every directory and every file has its
place, the names on the way to it from the root. The operations on files are
those of a system without links and permissions.

A path is walked name by name. Each name but the last has to be that of a
directory, so that the walk tells a missing directory from a file in the way.
-/

namespace SimpleBatch

/-- What can be at a place. -/
inductive Node where
  | directory
  | file (content : ByteArray)

/-- Directories and files by their places, and the place where relative paths
    begin. The root is always a directory. -/
structure FileTree where
  nodes : List (List String × Node) := []
  here : List String := []

namespace FileTree

variable (t : FileTree)

/-- What is at a place. -/
def node? (place : List String) : Option Node :=
  if place = [] then some .directory
  else (t.nodes.find? (·.1 = place)).map (·.2)

/-- The tree with something else at a place. -/
def put (place : List String) (node : Node) : FileTree :=
  { t with nodes := (place, node) :: t.nodes.filter (·.1 ≠ place) }

/-- The place that a walk along names from a place comes to. -/
def walk (place : List String) : List String → Except FileError (List String)
  | [] => .ok place
  | name :: rest =>
    match t.node? place with
    | none => .error .notFound
    | some (.file _) => .error .notDirectory
    | some .directory =>
      if name = "." then walk place rest
      else if name = ".." then walk place.dropLast rest
      else if 255 < name.utf8ByteSize then .error .nameTooLong
      else walk (place ++ [name]) rest

/-- The place of a path. -/
def locate (path : String) : Except FileError (List String) :=
  if path = "" then .error .notFound
  else if path.toList.any (· = Char.ofNat 0) then .error .nulInPath
  else if 4096 ≤ path.utf8ByteSize then .error .nameTooLong
  else t.walk (if path.toList.head? = some '/' then [] else t.here) (pathComponents path)

/-- Whether a path is that of a directory. -/
def isDirectory (path : String) : Bool :=
  match t.locate path with
  | .ok place =>
    match t.node? place with
    | some .directory => true
    | _ => false
  | .error _ => false

/-- The tree with one more directory. -/
def createDirectory (path : String) : Except FileError FileTree :=
  match t.locate path with
  | .error e => .error e
  | .ok place =>
    match t.node? place with
    | some _ => .error .alreadyExists
    | none => .ok (t.put place .directory)

/-- The content of a file. -/
def read (path : String) : Except FileError ByteArray :=
  match t.locate path with
  | .error e => .error e
  | .ok place =>
    match t.node? place with
    | some (.file content) => .ok content
    | some .directory => .error .isDirectory
    | none => .error .notFound

/-- The tree in which a file has a content. -/
def write (path : String) (content : ByteArray) : Except FileError FileTree :=
  match t.locate path with
  | .error e => .error e
  | .ok place =>
    match t.node? place with
    | some .directory => .error .isDirectory
    | _ => .ok (t.put place (.file content))

/-- The names of what is in a directory. -/
def names (path : String) : List String :=
  match t.locate path with
  | .error _ => []
  | .ok place => t.nodes.filterMap fun (p, _) => if p.dropLast = place then p.getLast? else none

/-- A change of the tree as a step of a computation. -/
def change (f : FileTree → Except FileError FileTree) : StateM FileTree (Except FileError Unit) :=
  fun t =>
    match f t with
    | .ok t => (.ok (), t)
    | .error e => (.error e, t)

instance : Files (StateM FileTree) where
  isDirectory path := return (← get).isDirectory path
  createDirectory path := change (·.createDirectory path)
  read path := return (← get).read path
  write path content := change (·.write path content)

end FileTree

end SimpleBatch
