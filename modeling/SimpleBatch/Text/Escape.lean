import SimpleBatch.Text.Numeral

/-!
# Escape sequences

Before a line is split into tokens, its escape sequences are replaced by the
characters they stand for:

* a backslash before a backslash or a quote stands for that character, and
  before one of `0abfnrtv` for the control character of that letter;
* `\u` and `\U` take exactly four and eight hexadecimal digits; a number that
  is no Unicode scalar value stands for U+FFFD, and without enough digits only
  the backslash is dropped;
* `\x` takes the longest run of one to four hexadecimal digits that is a
  scalar value, and stands for nothing when there is none;
* any other backslash is dropped, except at the very end, where it is kept.

A console line has one more rule, so that quotes can be typed where the
surrounding shell would take them away: `##` stands for `#`, and a single `#`
or `\#` for a double quote.

`decode` is a single walk from left to right; what it produces is never read
again.
-/

namespace SimpleBatch.Text.Escape

/-- Which escape sequences apply. -/
inductive Mode where
  /-- A line of a script. -/
  | script
  /-- A console line that starts a script: `#` has its own meaning. -/
  | invocation
deriving DecidableEq, Repr

/-- The control character that a letter names after a backslash. -/
def control? (c : Char) : Option Char :=
  match c with
  | '0' => some (Char.ofNat 0x00)
  | 'a' => some (Char.ofNat 0x07)
  | 'b' => some (Char.ofNat 0x08)
  | 't' => some (Char.ofNat 0x09)
  | 'n' => some (Char.ofNat 0x0A)
  | 'v' => some (Char.ofNat 0x0B)
  | 'f' => some (Char.ofNat 0x0C)
  | 'r' => some (Char.ofNat 0x0D)
  | _ => none

/-- The character with the code point that hexadecimal digits denote, if that
    is a Unicode scalar value. -/
def scalar? (digits : List Char) : Option Char :=
  let code := numeralValue 16 digits
  if code.isValidChar then some (Char.ofNat code) else none

/-- The length of the run of hexadecimal digits at the start of a text, at
    most `limit`. -/
def hexRun (limit : Nat) (cs : List Char) : Nat :=
  ((cs.take limit).takeWhile fun c => (hexDigit? c).isSome).length

/-- The character that a sequence of exactly `width` digits stands for, and
    the number of digits used; without enough digits the letter itself. -/
def exactly (width : Nat) (letter : Char) (rest : List Char) : Char × Nat :=
  if hexRun width rest = width then
    ((scalar? (rest.take width)).getD (Char.ofNat 0xFFFD), width)
  else (letter, 0)

/-- The scalar value denoted by the longest of the first `n` runs of digits
    at the start of a text, with the length of the run. -/
def longest? (rest : List Char) : Nat → Option (Char × Nat)
  | 0 => none
  | n + 1 =>
    match scalar? (rest.take (n + 1)) with
    | some c => some (c, n + 1)
    | none => longest? rest n

/-- What a backslash before `c` stands for, and how many of the characters
    after `c` belong to the sequence. -/
def sequence (mode : Mode) (c : Char) (rest : List Char) : List Char × Nat :=
  if c = 'u' then
    let (d, used) := exactly 4 c rest
    ([d], used)
  else if c = 'U' then
    let (d, used) := exactly 8 c rest
    ([d], used)
  else if c = 'x' then
    match longest? rest (hexRun 4 rest) with
    | some (d, used) => ([d], used)
    | none => ([], 0)
  else if c = '#' ∧ mode = .invocation then (['"'], 0)
  else ([(control? c).getD c], 0)

/-- The text that a text with escape sequences stands for. -/
def decode (mode : Mode) : List Char → List Char
  | [] => []
  | ['\\'] => ['\\']
  | '\\' :: c :: rest =>
    (sequence mode c rest).1 ++ decode mode (rest.drop (sequence mode c rest).2)
  | c :: rest =>
    if c = '#' ∧ mode = .invocation then
      if rest.head? = some '#' then '#' :: decode mode rest.tail
      else '"' :: decode mode rest
    else c :: decode mode rest
termination_by cs => cs.length
decreasing_by all_goals simp only [List.length_cons, List.length_drop, List.length_tail]; omega

end SimpleBatch.Text.Escape
