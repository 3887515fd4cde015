import SimpleBatch.Text.Space

/-!
# Lines of a script

A line of a script, once its escape sequences are decoded, is a keyword (a
run of ASCII letters, after optional white space) and a list of tokens:

    ADD 5, 3, %&total%
    LOG "Hello, %NAME%!"

The tokens are read as *items*. An item is optional white space, a token,
optional white space, and a comma or the end of the line. A token is either

* *quoted*: from a double quote to the first later one after which the item
  can end, so that quotes in between belong to the token; or
* *bare*: a run of characters that are neither white space nor commas.

A token keeps its quotes. The first text that is no item ends the list, and
the items before it stand: a line is never refused for its tokens.
-/

namespace SimpleBatch

open Text

/-- A line of a script: its keyword as written and its tokens. -/
structure Line where
  /-- The keyword, in the case it was written. -/
  keyword : String
  /-- The tokens, with their quotes. -/
  tokens : List String
deriving DecidableEq, Repr

namespace Line

/-- The number of tokens read from a line. -/
def maxTokens : Nat := 9

/-- The rest of a text after the end of an item: optional white space, and a
    comma or the end. -/
def separator? (cs : List Char) : Option (List Char) :=
  match skipSpace cs with
  | [] => some []
  | c :: rest => if c = ',' then some rest else none

/-- The rest of a quoted token whose opening quote was read, up to and with
    the closing quote, and the text after the item. -/
def quoted? : List Char → Option (List Char × List Char)
  | [] => none
  | c :: cs =>
    match if c = '"' then separator? cs else none with
    | some rest => some ([c], rest)
    | none => (quoted? cs).map fun (run, rest) => (c :: run, rest)

/-- Whether a character may stand in a bare token. -/
def isBare (c : Char) : Bool :=
  !isSpace c && c != ','

/-- A bare token and the text after its item. -/
def bare? (cs : List Char) : Option (List Char × List Char) :=
  match cs.takeWhile isBare with
  | [] => none
  | token => (separator? (cs.dropWhile isBare)).map (token, ·)

/-- The token of the item at the start of a text, and the text after it. -/
def item? (cs : List Char) : Option (List Char × List Char) :=
  match skipSpace cs with
  | [] => none
  | c :: rest =>
    if c = '"' then (quoted? rest).map fun (run, rest) => (c :: run, rest)
    else bare? (c :: rest)

/-- The tokens of the items that follow each other from the start of a text,
    at most `limit`. -/
def items : Nat → List Char → List (List Char)
  | 0, _ => []
  | limit + 1, cs =>
    match item? cs with
    | none => []
    | some (token, rest) => token :: items limit rest

/-- The tokens of a text without a keyword, at most `limit`. -/
def split (limit : Nat) (text : String) : List String :=
  (items limit text.toList).map String.ofList

/-- The line that a text is; none for a text that does not start with a
    keyword. -/
def parse? (text : String) : Option Line :=
  let cs := skipSpace text.toList
  match cs.takeWhile Char.isAlpha with
  | [] => none
  | keyword =>
    some {
      keyword := String.ofList keyword
      tokens := (items maxTokens (cs.dropWhile Char.isAlpha)).map String.ofList }

end Line

end SimpleBatch
