/-!
# Tokens of a shell command

A command for the stand-in of the shell is cut into words and operators, of
which it knows only some of what a shell knows. A word is a list of parts:
text that stands for itself, whether it was quoted or not, and parameters,
`$NAME` or `${NAME}`, to be replaced when the command runs. Single quotes keep
everything, double quotes everything but parameters and some backslashes, and
a backslash keeps the next character. A `#` that begins a word begins a
comment.
-/

namespace SimpleBatch.Shell

/-- A part of a word. -/
inductive Part where
  /-- Text that stands for itself. -/
  | text (cs : List Char)
  /-- A parameter; unquoted, its value is cut into words. -/
  | parameter (name : String) (quoted : Bool)
deriving DecidableEq, Repr

/-- A word. -/
abbrev Word := List Part

/-- Where the data of a redirection come from or go to. -/
inductive Direction where
  /-- From a file. -/
  | input
  /-- To a file, whose content is replaced. -/
  | output
  /-- To the end of a file. -/
  | append
  /-- To where another descriptor goes. -/
  | duplicate
deriving DecidableEq, Repr

/-- A token. -/
inductive Token where
  | word (w : Word)
  | redirect (descriptor : Nat) (direction : Direction)
  | semicolon
  | newline
  | both
  | either
  | pipe
deriving DecidableEq, Repr

/-- The single quote. -/
def singleQuote : Char := Char.ofNat 39

/-- Whether a character may stand in the name of a parameter. -/
def isNameChar (c : Char) : Bool :=
  c.isAlphanum || c == '_'

/-- The part that begins after a dollar sign, and the text after it. -/
def parameter (quoted : Bool) (cs : List Char) : Part × List Char :=
  match cs with
  | [] => (.text ['$'], [])
  | c :: rest =>
    if c = '{' then
      (.parameter (String.ofList (rest.takeWhile (· ≠ '}'))) quoted,
        (rest.dropWhile (· ≠ '}')).tail)
    else if c = '?' ∨ c = '#' ∨ c.isDigit then
      (.parameter (String.singleton c) quoted, rest)
    else if c.isAlpha ∨ c = '_' then
      (.parameter (String.ofList (cs.takeWhile isNameChar)) quoted, cs.dropWhile isNameChar)
    else (.text ['$'], cs)

/-- The parts up to the closing double quote, and the text after it. The fuel
    bounds the number of parts. -/
def doubleQuoted : (fuel : Nat) → List Char → Option (Word × List Char)
  | 0, _ => none
  | _, [] => none
  | fuel + 1, c :: rest =>
    if c = '"' then some ([.text []], rest)
    else if c = '$' then
      let (part, rest) := parameter true rest
      (doubleQuoted fuel rest).map fun (w, rest) => (part :: w, rest)
    else if c = '\\' then
      match rest with
      | [] => none
      | d :: rest =>
        let kept :=
          if d = '\n' then []
          else if d ∈ ['$', '"', '\\', Char.ofNat 96] then [d]
          else [c, d]
        (doubleQuoted fuel rest).map fun (w, rest) => (.text kept :: w, rest)
    else (doubleQuoted fuel rest).map fun (w, rest) => (.text [c] :: w, rest)

/-- The token of a word that has been read, if there is one. -/
def flush (w : Option Word) : List Token :=
  match w with
  | none => []
  | some w => [.word w]

/-- The tokens of a redirection, given the word just before it, which may be
    the number of a descriptor. -/
def redirection (w : Option Word) (default : Nat) (direction : Direction) : List Token :=
  match w with
  | some [.text [c]] =>
    if c.isDigit then [.redirect (c.toNat - '0'.toNat) direction]
    else flush w ++ [.redirect default direction]
  | _ => flush w ++ [.redirect default direction]

/-- The operator at the start of a text, with what comes of the word before
    it, and the text after it. -/
def operator? (w : Option Word) (cs : List Char) : Option (List Token × List Char) :=
  match cs with
  | '&' :: '&' :: rest => some (flush w ++ [.both], rest)
  | '&' :: rest => some (flush w ++ [.semicolon], rest)
  | '|' :: '|' :: rest => some (flush w ++ [.either], rest)
  | '|' :: rest => some (flush w ++ [.pipe], rest)
  | ';' :: rest => some (flush w ++ [.semicolon], rest)
  | '\n' :: rest => some (flush w ++ [.newline], rest)
  | '>' :: '>' :: rest => some (redirection w 1 .append, rest)
  | '>' :: '&' :: rest => some (redirection w 1 .duplicate, rest)
  | '>' :: rest => some (redirection w 1 .output, rest)
  | '<' :: rest => some (redirection w 0 .input, rest)
  | ' ' :: rest => some (flush w, rest)
  | '\t' :: rest => some (flush w, rest)
  | _ => none

/-- The tokens of a text after the beginning of a word. None if a quote is not
    closed. The fuel bounds the number of parts and operators. -/
def tokensFrom : (fuel : Nat) → Option Word → List Char → Option (List Token)
  | 0, _, _ => none
  | _, w, [] => some (flush w)
  | fuel + 1, w, c :: rest =>
    let word := w.getD []
    match operator? w (c :: rest) with
    | some (tokens, rest) => (tokensFrom fuel none rest).map (tokens ++ ·)
    | none =>
      if c = singleQuote then
        match rest.dropWhile (· ≠ singleQuote) with
        | [] => none
        | _ :: after =>
          tokensFrom fuel (some (word ++ [.text (rest.takeWhile (· ≠ singleQuote))])) after
      else if c = '"' then
        match doubleQuoted (rest.length + 1) rest with
        | none => none
        | some (parts, after) => tokensFrom fuel (some (word ++ parts)) after
      else if c = '$' then
        let (part, after) := parameter false rest
        tokensFrom fuel (some (word ++ [part])) after
      else if c = '\\' then
        match rest with
        | [] => some (flush (some (word ++ [.text [c]])))
        | '\n' :: after => tokensFrom fuel w after
        | d :: after => tokensFrom fuel (some (word ++ [.text [d]])) after
      else if c = '#' ∧ w = none then tokensFrom fuel none (rest.dropWhile (· ≠ '\n'))
      else tokensFrom fuel (some (word ++ [.text [c]])) rest

/-- The tokens of a command. -/
def tokens? (command : String) : Option (List Token) :=
  tokensFrom (command.toList.length + 1) none command.toList

end SimpleBatch.Shell
