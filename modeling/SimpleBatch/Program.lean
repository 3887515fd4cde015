import SimpleBatch.Command
import SimpleBatch.Line
import SimpleBatch.Text.Escape
import SimpleBatch.Text.Lines

/-!
# Programs

A program is a list of lines, each read once: its escape sequences are
decoded, it is split into keyword and tokens, and the keyword is looked up.
-/

namespace SimpleBatch

open Text

/-- A line of a program with what was read from it. -/
structure Entry where
  /-- The line as written. -/
  source : String
  /-- Its keyword and tokens; none if it does not begin with a keyword. -/
  line? : Option Line
  /-- The command of its keyword; none if there is no such command. -/
  command? : Option Command
deriving DecidableEq, Repr

/-- What is read from a line as written. -/
def Entry.ofSource (source : String) : Entry :=
  let line? := Line.parse? (String.ofList (Escape.decode .script source.toList))
  { source, line?, command? := line?.bind fun line => Command.lookup? line.keyword }

/-- A program. -/
structure Program where
  entries : Array Entry
deriving DecidableEq, Repr

namespace Program

/-- The program with lines as written. -/
def ofLines (lines : List String) : Program :=
  ⟨(lines.map Entry.ofSource).toArray⟩

/-- The program of a source text. -/
def ofSource (text : String) : Program :=
  ofLines (lines text)

variable (p : Program)

/-- The number of lines. -/
def size : Nat :=
  p.entries.size

/-- The line at an index as written. -/
def source? (i : Nat) : Option String :=
  p.entries[i]?.map Entry.source

/-- The keyword and tokens of the line at an index. -/
def line? (i : Nat) : Option Line :=
  p.entries[i]?.bind Entry.line?

/-- The command of the line at an index. -/
def command? (i : Nat) : Option Command :=
  p.entries[i]?.bind Entry.command?

/-- The index of the first line after `i` that ends a condition. -/
def endIfAfter? (i : Nat) : Option Nat :=
  (List.range p.size).find? fun j => i < j && p.command? j = some .endIf

/-- The labels of the program, from the top: the indices of the lines that
    mark a position, with the token that is their label. -/
def labels : List (Nat × String) :=
  (List.range p.size).filterMap fun i =>
    if p.command? i = some .pos then
      (p.line? i).bind fun line => line.tokens.head?.map (i, ·)
    else none

end Program

end SimpleBatch
