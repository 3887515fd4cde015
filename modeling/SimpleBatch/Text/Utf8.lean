/-!
# Reading bytes as text

Bytes that need not be valid UTF-8 are read as text by putting U+FFFD for
every part that is not: a byte that begins no character, or the longest
beginning of a character that is broken off.
-/

namespace SimpleBatch.Text

/-- What follows the first byte of a character: the bits of that byte that
    count, how many bytes follow, and the range of the first of them. -/
structure Lead where
  bits : Nat
  count : Nat
  low : Nat
  high : Nat

/-- What follows a byte outside ASCII that begins a character. -/
def lead? (b : Nat) : Option Lead :=
  if 0xC2 ≤ b ∧ b ≤ 0xDF then some ⟨b - 0xC0, 1, 0x80, 0xBF⟩
  else if b = 0xE0 then some ⟨0, 2, 0xA0, 0xBF⟩
  else if b = 0xED then some ⟨0xD, 2, 0x80, 0x9F⟩
  else if 0xE1 ≤ b ∧ b ≤ 0xEF then some ⟨b - 0xE0, 2, 0x80, 0xBF⟩
  else if b = 0xF0 then some ⟨0, 3, 0x90, 0xBF⟩
  else if 0xF1 ≤ b ∧ b ≤ 0xF3 then some ⟨b - 0xF0, 3, 0x80, 0xBF⟩
  else if b = 0xF4 then some ⟨4, 3, 0x80, 0x8F⟩
  else none

/-- The bytes at the start of a list that continue a character. -/
def continuation (l : Lead) (bytes : List Nat) : List Nat :=
  match bytes with
  | [] => []
  | b :: rest =>
    if l.low ≤ b ∧ b ≤ l.high then
      b :: (rest.take (l.count - 1)).takeWhile fun b => 0x80 ≤ b && b ≤ 0xBF
    else []

/-- The text of bytes. -/
def decodeLossy (bytes : List Nat) : List Char :=
  match bytes with
  | [] => []
  | b :: rest =>
    if b < 0x80 then Char.ofNat b :: decodeLossy rest
    else
      match lead? b with
      | none => Char.ofNat 0xFFFD :: decodeLossy rest
      | some l =>
        let tail := continuation l rest
        if tail.length = l.count then
          Char.ofNat (tail.foldl (fun n b => 0x40 * n + (b - 0x80)) l.bits) ::
            decodeLossy (rest.drop tail.length)
        else Char.ofNat 0xFFFD :: decodeLossy (rest.drop tail.length)
termination_by bytes.length
decreasing_by all_goals simp only [List.length_cons, List.length_drop]; omega

/-- The text of an array of bytes. -/
def ofBytesLossy (bytes : ByteArray) : String :=
  String.ofList (decodeLossy (bytes.toList.map UInt8.toNat))

end SimpleBatch.Text
