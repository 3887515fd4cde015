/-!
# Commands

The commands of Simple Batch and their keywords. A keyword is recognised in
any case of its ASCII letters; three commands have a second keyword.
-/

namespace SimpleBatch

/-- A command. -/
inductive Command where
  -- memory
  | var | set | stc
  -- conversions
  | toInt | rnd | ceil | char | parse | str | hex | bin
  -- arithmetic
  | add | sub | mul | div | mod | random
  -- bits
  | shl | shr | iNot | iAnd | iOr | iXor
  -- truth
  | isTrue | isFalse | and | or | xor
  -- text
  | strGet | strLen | subStr
  -- comparisons and tests of the kind
  | isEq | isLt | isGt | typInt | typFlt | typStr
  -- control flow
  | ifTrue | endIf | goto | pos | quit | rem
  -- the host
  | exe | log | logW | logE | echo | cls
deriving DecidableEq, Repr

namespace Command

/-- All commands, in the order of the reference table. -/
def all : List Command :=
  [var, set, stc, toInt, rnd, ceil, char, parse, str, hex, bin, add, sub, mul, div, mod, random,
    shl, shr, iNot, iAnd, iOr, iXor, isTrue, isFalse, and, or, xor, strGet, strLen, subStr,
    isEq, isLt, isGt, typInt, typFlt, typStr, ifTrue, endIf, goto, pos, quit, rem,
    exe, log, logW, logE, echo, cls]

/-- The keyword of a command, in capital letters. -/
def name : Command → String
  | var => "VAR"
  | set => "SET"
  | stc => "STC"
  | toInt => "TOINT"
  | rnd => "RND"
  | ceil => "CEIL"
  | char => "CHAR"
  | parse => "PARSE"
  | str => "STR"
  | hex => "HEX"
  | bin => "BIN"
  | add => "ADD"
  | sub => "SUB"
  | mul => "MUL"
  | div => "DIV"
  | mod => "MOD"
  | random => "RANDOM"
  | shl => "SHL"
  | shr => "SHR"
  | iNot => "INOT"
  | iAnd => "IAND"
  | iOr => "IOR"
  | iXor => "IXOR"
  | isTrue => "ISTRUE"
  | isFalse => "ISFALSE"
  | and => "AND"
  | or => "OR"
  | xor => "XOR"
  | strGet => "STRGET"
  | strLen => "STRLEN"
  | subStr => "SUBSTR"
  | isEq => "ISEQ"
  | isLt => "ISLT"
  | isGt => "ISGT"
  | typInt => "TYPINT"
  | typFlt => "TYPFLT"
  | typStr => "TYPSTR"
  | ifTrue => "IF"
  | endIf => "ENDIF"
  | goto => "GOTO"
  | pos => "POS"
  | quit => "QUIT"
  | rem => "REM"
  | exe => "EXE"
  | log => "LOG"
  | logW => "LOGW"
  | logE => "LOGE"
  | echo => "ECHO"
  | cls => "CLS"

/-- The second keywords. -/
def aliases : List (String × Command) :=
  [("ST", set), ("FLR", toInt), ("NOT", isFalse)]

/-- The command of a keyword, in any case of its ASCII letters. -/
def lookup? (keyword : String) : Option Command :=
  let upper := keyword.map Char.toUpper
  (aliases.lookup upper).or (all.find? (·.name == upper))

/-- What is said of a keyword that belongs to no command. -/
def unknownMessage (keyword : String) : String :=
  s!"\"{keyword}\" is not a recognized Simple Batch command"

end Command

end SimpleBatch
