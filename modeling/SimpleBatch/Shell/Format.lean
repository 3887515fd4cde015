import SimpleBatch.Text.Numeral

/-!
# Formatted output of the shell

The texts of the commands `echo` and `printf` of the stand-in for the shell:
backslashes stand for control characters and, with octal digits, for single
bytes.
-/

namespace SimpleBatch.Shell

open Text

/-- Bytes that were written, and whether no more are to follow. -/
structure Written where
  bytes : ByteArray := .empty
  stopped : Bool := false

/-- The bytes of a text. -/
def bytesOf (cs : List Char) : ByteArray :=
  (String.ofList cs).toUTF8

/-- The byte of a number, modulo 256. -/
def byteOf (n : Nat) : ByteArray :=
  ⟨#[UInt8.ofNat n]⟩

/-- Whether a character is an octal digit. -/
def isOctal (c : Char) : Bool :=
  '0' ≤ c && c ≤ '7'

/-- The byte that octal digits denote, at most three of them, and the text
    after them. -/
def octal (cs : List Char) : ByteArray × List Char :=
  let digits := (cs.take 3).takeWhile isOctal
  (byteOf (numeralValue 8 digits), cs.drop digits.length)

/-- The control character that a letter names after a backslash. -/
def controlOf? (c : Char) : Option Nat :=
  match c with
  | 'a' => some 0x07
  | 'b' => some 0x08
  | 't' => some 0x09
  | 'n' => some 0x0A
  | 'v' => some 0x0B
  | 'f' => some 0x0C
  | 'r' => some 0x0D
  | '\\' => some 0x5C
  | _ => none

/-- What a backslash before a text stands for, and the text after it; none if
    the output stops there. In an argument, up to three octal digits follow a
    zero. -/
def backslash (argument : Bool) (cs : List Char) : Option (ByteArray × List Char) :=
  match cs with
  | [] => some (bytesOf ['\\'], [])
  | c :: rest =>
    if c = 'c' ∧ argument then none
    else
      match controlOf? c with
      | some n => some (byteOf n, rest)
      | none =>
        if argument ∧ c = '0' then some (octal rest)
        else if isOctal c then some (octal cs)
        else some (bytesOf ['\\', c], rest)

/-- The bytes of an argument with backslashes. The fuel bounds the number of
    characters. -/
def unescape : (fuel : Nat) → List Char → Written
  | 0, _ => {}
  | _, [] => {}
  | fuel + 1, c :: rest =>
    if c = '\\' then
      match backslash true rest with
      | none => { stopped := true }
      | some (bytes, rest) =>
        let w := unescape fuel rest
        { w with bytes := bytes ++ w.bytes }
    else
      let w := unescape fuel rest
      { w with bytes := bytesOf [c] ++ w.bytes }

/-- What `echo` writes. -/
def echo (args : List String) : ByteArray :=
  let (quiet, args) :=
    match args with
    | "-n" :: args => (true, args)
    | args => (false, args)
  let cs := (String.intercalate " " args).toList
  let w := unescape (cs.length + 1) cs
  if quiet || w.stopped then w.bytes else w.bytes ++ byteOf 0x0A

/-- What a conversion of `printf` writes for an argument. -/
def convert (c : Char) (arg : String) : Written :=
  if c = 's' then { bytes := arg.toUTF8 }
  else if c = 'b' then unescape (arg.toList.length + 1) arg.toList
  else if c = 'c' then { bytes := bytesOf (arg.toList.take 1) }
  else if c = 'd' ∨ c = 'i' ∨ c = 'u' then
    match arg.toList with
    | '-' :: ds => { bytes := bytesOf (decimalInt (-(numeralValue 10 ds : Int))) }
    | ds => { bytes := bytesOf (decimal (numeralValue 10 ds)) }
  else { bytes := bytesOf ['%', c] }

/-- What `printf` writes for one use of its format, and the arguments that are
    left. The fuel bounds the number of characters. -/
def printfOnce : (fuel : Nat) → List Char → List String → Written × List String
  | 0, _, args => ({}, args)
  | _, [], args => ({}, args)
  | fuel + 1, c :: rest, args =>
    let (w, rest, args) : Written × List Char × List String :=
      if c = '\\' then
        match backslash false rest with
        | none => ({}, rest, args)
        | some (bytes, rest) => ({ bytes }, rest, args)
      else if c = '%' then
        match rest with
        | [] => ({ bytes := bytesOf ['%'] }, [], args)
        | '%' :: rest => ({ bytes := bytesOf ['%'] }, rest, args)
        | d :: rest => (convert d (args.headD ""), rest, args.tail)
      else ({ bytes := bytesOf [c] }, rest, args)
    if w.stopped then (w, [])
    else
      let (w', args) := printfOnce fuel rest args
      ({ w' with bytes := w.bytes ++ w'.bytes }, args)

/-- What `printf` writes: its format is used until no arguments are left. -/
def printfAll (format : List Char) : (fuel : Nat) → List String → ByteArray
  | 0, _ => .empty
  | fuel + 1, args =>
    let (w, rest) := printfOnce (format.length + 1) format args
    if rest.isEmpty || rest.length = args.length then w.bytes
    else w.bytes ++ printfAll format fuel rest

/-- What `printf` writes for a format and arguments. -/
def printf (format : String) (args : List String) : ByteArray :=
  printfAll format.toList (args.length + 1) args

end SimpleBatch.Shell
