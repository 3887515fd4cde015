/-!
# White space

Scripts separate their tokens by white space in the sense of Unicode: the 25
characters with the property `White_Space`. Format characters such as the
zero-width space (U+200B) and the byte order mark (U+FEFF) are not among
them, and neither are the separators U+001C to U+001F.
-/

namespace SimpleBatch.Text

/-- Whether a character has the Unicode property `White_Space`. -/
def isSpace (c : Char) : Bool :=
  let n := c.toNat
  (0x09 ≤ n && n ≤ 0x0D) || n == 0x20 || n == 0x85 || n == 0xA0 || n == 0x1680 ||
    (0x2000 ≤ n && n ≤ 0x200A) || n == 0x2028 || n == 0x2029 || n == 0x202F ||
    n == 0x205F || n == 0x3000

/-- A text without its leading white space. -/
def skipSpace (cs : List Char) : List Char :=
  cs.dropWhile isSpace

/-- A text without its leading and trailing white space. -/
def trim (cs : List Char) : List Char :=
  (skipSpace (skipSpace cs).reverse).reverse

end SimpleBatch.Text
