import SimpleBatch.Memory
import SimpleBatch.Moment

/-!
# The command line

The words after the name of the program are options, and then the invocation
of a script: its name and its arguments, written over several words. The
options end at the first word that is none of them, or at `--`, which is left
out; every later word belongs to the invocation, whatever it looks like.

An option is a flag, or a setting with a value: the next word, or what follows
an equals sign. The next word is no value if it is an option itself. Each
option can be given once.

A command line that is refused has one reason, the first one from left to
right; only a value attached to a flag is reported before what is wrong with a
setting just before it.
-/

namespace SimpleBatch.CommandLine

open Text

/-- A flag: an option without a value. -/
inductive Flag where
  | dumpMemory
  | inDesigner
  | inLevel
deriving DecidableEq, Repr

/-- A setting: an option with a value. -/
inductive Setting where
  | dir
  | seed
  | levelName
  | mapName
deriving DecidableEq, Repr

/-- What a word before the invocation can be. -/
inductive Word where
  /-- A flag, perhaps with a value attached to it. -/
  | flag (f : Flag) (attached : Option String)
  /-- A setting, perhaps with its value attached to it. -/
  | setting (s : Setting) (attached : Option String)
  /-- The request for an explanation of the options. -/
  | help (attached : Option String)
  /-- The request for the version of the program. -/
  | version (attached : Option String)
  /-- The end of the options. -/
  | separator
  /-- None of these: a value or the first word of the invocation. -/
  | plain
deriving DecidableEq, Repr

/-- The options with their names. -/
def options : List (String × (Option String → Word)) :=
  [("--dir", .setting .dir), ("--dump-memory", .flag .dumpMemory), ("--seed", .setting .seed),
    ("--in-designer", .flag .inDesigner), ("--in-level", .flag .inLevel),
    ("--level-name", .setting .levelName), ("--map-name", .setting .mapName),
    ("--help", .help), ("--version", .version)]

/-- The part of a word before its first equals sign, and the part after it. -/
def splitWord (word : String) : String × Option String :=
  let cs := word.toList
  match cs.dropWhile (· ≠ '=') with
  | [] => (word, none)
  | _ :: value => (String.ofList (cs.takeWhile (· ≠ '=')), some (String.ofList value))

/-- The request that the letters after a single dash make: `h` asks for the
    explanation and `V` for the version. Several of these letters can stand
    together, and then the first one counts. -/
def Word.ofLetters? (letters : List Char) : Option Word :=
  if letters.all fun c => c = 'h' || c = 'V' then
    letters.head?.map fun c => if c = 'h' then help none else version none
  else none

/-- The option that a word names, perhaps with a value attached to it. -/
def Word.ofName? (word : String) : Option Word :=
  let (name, attached) := splitWord word
  (options.lookup name).map (· attached)

/-- What a word is. -/
def Word.ofString (word : String) : Word :=
  match word.toList with
  | ['-', '-'] => separator
  | '-' :: letters => ((ofLetters? letters).or (ofName? word)).getD plain
  | _ => plain

/-- Whether a word is an option that takes no value, with a value. -/
def Word.isOverfull : Word → Bool
  | flag _ attached => attached.isSome
  | help attached => attached.isSome
  | version attached => attached.isSome
  | _ => false

/-- Why no options come of a command line. -/
inductive Refusal where
  /-- An explanation of the options is asked for. -/
  | help
  /-- The version of the program is asked for. -/
  | version
  /-- The value of a setting is missing, or empty where it must not be. -/
  | invalidValue
  /-- The value of a setting does not have its form. -/
  | malformedValue
  /-- An option without a value has one. -/
  | unexpectedValue
  /-- An option is given twice. -/
  | repeatedOption
  /-- There is no invocation. -/
  | missingInvocation
deriving DecidableEq, Repr

/-- The options that were given. -/
structure Settings where
  flags : List Flag := []
  dir : Option String := none
  seed : Option UInt64 := none
  levelName : Option String := none
  mapName : Option String := none
deriving DecidableEq, Repr

/-- The seed that a text denotes: digits after an optional plus sign, with a
    number of 64 bits. -/
def readSeed? (text : String) : Option UInt64 :=
  let digits :=
    match text.toList with
    | '+' :: cs => cs
    | cs => cs
  if digits.isEmpty || !digits.all Char.isDigit then none
  else
    let n := numeralValue 10 digits
    if n < UInt64.size then some (UInt64.ofNat n) else none

namespace Settings

variable (s : Settings)

/-- The settings with one more flag. -/
def raise (f : Flag) : Except Refusal Settings :=
  if f ∈ s.flags then .error .repeatedOption else .ok { s with flags := f :: s.flags }

/-- The settings with one more value. -/
def assign (setting : Setting) (value : String) : Except Refusal Settings :=
  match setting with
  | .dir =>
    if s.dir.isSome then .error .repeatedOption
    else if value = "" then .error .invalidValue
    else .ok { s with dir := some value }
  | .seed =>
    if s.seed.isSome then .error .repeatedOption
    else
      match readSeed? value with
      | none => .error .malformedValue
      | some seed => .ok { s with seed := some seed }
  | .levelName =>
    if s.levelName.isSome then .error .repeatedOption
    else .ok { s with levelName := some value }
  | .mapName =>
    if s.mapName.isSome then .error .repeatedOption
    else .ok { s with mapName := some value }

end Settings

/-- The refusal for a setting that is at fault, given the words after it. -/
def refuse (reason : Refusal) (rest : List String) : Refusal :=
  match rest with
  | [] => reason
  | word :: _ => if (Word.ofString word).isOverfull then .unexpectedValue else reason

/-- The settings that words give, added to those given before, and the words
    of the invocation. -/
def read (s : Settings) : List String → Except Refusal (Settings × List String)
  | [] => .error .missingInvocation
  | word :: rest =>
    match Word.ofString word with
    | .plain => .ok (s, word :: rest)
    | .separator => if rest.isEmpty then .error .missingInvocation else .ok (s, rest)
    | .help none => .error .help
    | .version none => .error .version
    | .help (some _) => .error .unexpectedValue
    | .version (some _) => .error .unexpectedValue
    | .flag _ (some _) => .error .unexpectedValue
    | .flag f none =>
      match s.raise f with
      | .ok s => read s rest
      | .error reason => .error reason
    | .setting setting (some value) =>
      match s.assign setting value with
      | .ok s => read s rest
      | .error reason => .error reason
    | .setting setting none =>
      match rest with
      | [] => .error .invalidValue
      | value :: rest' =>
        if Word.ofString value = .plain then
          match s.assign setting value with
          | .ok s => read s rest'
          | .error reason => .error (refuse reason rest')
        else .error (refuse .invalidValue rest)

/-- What a command line asks for. -/
structure Request where
  /-- The words of the invocation. -/
  words : List String
  /-- The directory of the scripts. -/
  dir : Option String := none
  /-- Whether memory is shown after the run. -/
  dumpMemory : Bool := false
  seed : Option UInt64 := none
  inDesigner : Bool := false
  inLevel : Bool := false
  levelName : String := ""
  mapName : String := ""
deriving DecidableEq, Repr

/-- What a command line asks for, given the words after the program's name. -/
def parse (words : List String) : Except Refusal Request :=
  (read {} words).map fun (s, words) =>
    { words
      dir := s.dir
      dumpMemory := Flag.dumpMemory ∈ s.flags
      seed := s.seed
      inDesigner := Flag.inDesigner ∈ s.flags
      inLevel := Flag.inLevel ∈ s.flags
      levelName := s.levelName.getD ""
      mapName := s.mapName.getD "" }

/-- The invocation as one console line. -/
def Request.line (r : Request) : String :=
  String.intercalate " " r.words

/-- The environment of a script that is started at a moment. -/
def Request.environment (r : Request) (now : Moment) : Environment :=
  { date := now.date
    time := now.time
    inDesigner := r.inDesigner
    inLevel := r.inLevel
    levelName := r.levelName
    mapName := r.mapName }

end SimpleBatch.CommandLine
