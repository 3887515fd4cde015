/-!
# Lines of a text

A text is cut at its line feeds. A line that ends in a line feed loses one
carriage return standing directly before it, so that both conventions for
line ends read the same; the part after the last line feed is a line of its
own, kept as it is, unless it is empty.
-/

namespace SimpleBatch.Text

/-- A line without the carriage return at its end, if it has one. -/
def dropReturn (line : List Char) : List Char :=
  if line.getLast? = some '\r' then line.dropLast else line

/-- The lines of a text, given as a list of characters. -/
def splitLines (cs : List Char) : List (List Char) :=
  match _h : cs.dropWhile (· ≠ '\n') with
  | [] => if cs.isEmpty then [] else [cs]
  | _ :: rest => dropReturn (cs.takeWhile (· ≠ '\n')) :: splitLines rest
termination_by cs.length
decreasing_by
  have := (List.dropWhile_sublist (· ≠ '\n') (l := cs)).length_le
  simp_all only [List.length_cons]
  omega

/-- The lines of a text. -/
def lines (text : String) : List String :=
  (splitLines text.toList).map String.ofList

end SimpleBatch.Text
