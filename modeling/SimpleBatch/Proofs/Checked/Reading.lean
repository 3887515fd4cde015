import SimpleBatch.Proofs.Escape
import SimpleBatch.Invocation
import SimpleBatch.Program

/-!
# Reading with checks

An interpreter that walks over a text by positions can go wrong where the
functions on lists cannot: it can look up a character beyond the end, cut out a
part that does not lie in the text, or cut a character in two. Here the readers
of the language are written down once more in that way. Every such access is a
*check*, and a check that fails gives `none`:

* `Checked.index?`, `Checked.slice?`: a character at a position, and the
  characters between two positions;
* `Checked.byteSlice?`: the part of a text between two bytes, both of which
  have to be the beginning or the end of a character;
* `Checked.sub?`: a difference of natural numbers.

A look-up `cs[i]?` that a reader itself tests for `none` is no check.

No check fails, whatever the text is, and what is read is what the readers on
lists give: `Checked.decode_eq` for escape sequences, `Checked.item_spec` for
one item of a line, `Checked.ofToken_eq` for the value of a token, and from
them `Checked.program_eq` and `Checked.invocation_eq`.
-/

namespace SimpleBatch.Checked

open Text

/-! ## Checks -/

section Checks

variable {α : Type} {xs : List α} {i j n : Nat}

/-- The element at a position, which has to be one of the list. -/
def index? (xs : List α) (i : Nat) : Option α :=
  xs[i]?

/-- The elements from a position on and before another one, both of which have
    to lie in the list in this order. -/
def slice? (xs : List α) (i j : Nat) : Option (List α) :=
  if i ≤ j ∧ j ≤ xs.length then some ((xs.take j).drop i) else none

/-- The difference of two numbers, of which the second must not be greater. -/
def sub? (m n : Nat) : Option Nat :=
  if n ≤ m then some (m - n) else none

/-- The part of a text from a byte on and before another one. A character must
    not be cut. -/
def byteSlice? (s : String) (i j : Nat) : Option String :=
  if h : i ≤ j ∧ (⟨i⟩ : String.Pos.Raw).IsValid s ∧ (⟨j⟩ : String.Pos.Raw).IsValid s then
    some (String.extract (s.pos ⟨i⟩ h.2.1) (s.pos ⟨j⟩ h.2.2))
  else none

theorem index?_eq (h : i < xs.length) : index? xs i = some xs[i] :=
  List.getElem?_eq_getElem h

theorem slice?_eq (hij : i ≤ j) (hj : j ≤ xs.length) :
    slice? xs i j = some ((xs.take j).drop i) :=
  if_pos ⟨hij, hj⟩

theorem slice?_add (h : i + n ≤ xs.length) : slice? xs i (i + n) = some ((xs.drop i).take n) := by
  rw [slice?_eq (Nat.le_add_right i n) h, List.drop_take, Nat.add_sub_cancel_left]

theorem slice?_length (h : i ≤ xs.length) : slice? xs i xs.length = some (xs.drop i) := by
  rw [slice?_eq h Nat.le.refl, List.take_length]

theorem eq_add_length_of_slice? {ys : List α} (h : slice? xs i j = some ys) :
    j = i + ys.length := by
  unfold slice? at h
  split at h
  · next hb =>
    cases h
    rw [List.length_drop, List.length_take]
    omega
  · cases h

theorem sub?_eq {m : Nat} (h : n ≤ m) : sub? m n = some (m - n) :=
  if_pos h

/-- A text between two others can be cut out at its own bytes. -/
theorem byteSlice?_append (s t u : String) :
    byteSlice? (s ++ t ++ u) s.utf8ByteSize (s.utf8ByteSize + t.utf8ByteSize) = some t := by
  have hi : (⟨s.utf8ByteSize⟩ : String.Pos.Raw).IsValid (s ++ t ++ u) :=
    (String.Pos.Raw.isValid_rawEndPos.append_right t).append_right u
  have hj : (⟨s.utf8ByteSize + t.utf8ByteSize⟩ : String.Pos.Raw).IsValid (s ++ t ++ u) := by
    rw [← String.utf8ByteSize_append]
    exact String.Pos.Raw.isValid_rawEndPos.append_right u
  rw [byteSlice?, dif_pos ⟨Nat.le_add_right _ _, hi, hj⟩, Option.some_inj]
  apply String.toByteArray_inj.1
  rw [String.toByteArray_extract, String.toByteArray_append, String.toByteArray_append,
    ByteArray.append_assoc]
  exact (ByteArray.extract_append_size_add (i := 0)).trans (ByteArray.extract_append_eq_left rfl)

/-- The second byte of a character is not a place to cut. -/
example : byteSlice? "é" 1 2 = none := by decide

end Checks

/-! ## Escape sequences -/

section Escapes

open Escape

variable {cs : List Char} {i : Nat}

/-- The character that a sequence of exactly `width` digits stands for that
    begins at a position, and the number of digits used. -/
def exactly (width : Nat) (letter : Char) (cs : List Char) (i : Nat) : Option (Char × Nat) := do
  if hexRun width (← slice? cs i cs.length) = width then
    let digits ← slice? cs i (i + width)
    return ((scalar? digits).getD (Char.ofNat 0xFFFD), width)
  else return (letter, 0)

/-- The scalar value denoted by the longest of the first `n` runs of digits
    from a position on, with the length of the run. -/
def longest (cs : List Char) (i : Nat) : Nat → Option (Option (Char × Nat))
  | 0 => return none
  | n + 1 => do
    match scalar? (← slice? cs i (i + (n + 1))) with
    | some c => return some (c, n + 1)
    | none => longest cs i n

/-- What a backslash before `c` stands for, and how many of the characters from
    a position on belong to the sequence. -/
def sequence (mode : Mode) (c : Char) (cs : List Char) (i : Nat) : Option (List Char × Nat) := do
  if c = 'u' then
    let (d, used) ← exactly 4 c cs i
    return ([d], used)
  else if c = 'U' then
    let (d, used) ← exactly 8 c cs i
    return ([d], used)
  else if c = 'x' then
    let run := hexRun 4 (← slice? cs i cs.length)
    match ← longest cs i run with
    | some (d, used) => return ([d], used)
    | none => return ([], 0)
  else if c = '#' ∧ mode = .invocation then return (['"'], 0)
  else return ([(control? c).getD c], 0)

/-- The text that the characters from a position on stand for. -/
def decode (mode : Mode) (cs : List Char) (i : Nat) : Option (List Char) :=
  if h : i < cs.length then do
    let c ← index? cs i
    if c = '\\' then
      match cs[i + 1]? with
      | none => return ['\\']
      | some next =>
        let (out, used) ← sequence mode next cs (i + 2)
        return out ++ (← decode mode cs (i + 2 + used))
    else if c = '#' ∧ mode = .invocation then
      if cs[i + 1]? = some '#' then return '#' :: (← decode mode cs (i + 2))
      else return '"' :: (← decode mode cs (i + 1))
    else return c :: (← decode mode cs (i + 1))
  else return []
termination_by cs.length - i

theorem hexRun_le_length (limit : Nat) (cs : List Char) : hexRun limit cs ≤ cs.length :=
  ((List.takeWhile_sublist _).trans (List.take_sublist limit cs)).length_le

/-- Where a run has all its digits, they lie in the text. -/
theorem exactly_eq (h : i ≤ cs.length) (width : Nat) (letter : Char) :
    exactly width letter cs i = some (Escape.exactly width letter (cs.drop i)) := by
  simp only [exactly, Escape.exactly, slice?_length h, Option.pure_def, Option.bind_eq_bind,
    Option.bind_some]
  split
  · next hw =>
    have hl : width ≤ (cs.drop i).length := hw ▸ hexRun_le_length width (cs.drop i)
    rw [List.length_drop] at hl
    rw [slice?_add (by omega), Option.bind_some]
  · rfl

theorem longest_eq {n : Nat} (h : i + n ≤ cs.length) :
    longest cs i n = some (longest? (cs.drop i) n) := by
  induction n with
  | zero => rfl
  | succ n ih =>
    simp only [longest, longest?, slice?_add h, Option.bind_eq_bind, Option.bind_some]
    cases scalar? ((cs.drop i).take (n + 1)) with
    | some c => rfl
    | none => exact ih (by omega)

theorem sequence_eq (h : i ≤ cs.length) (mode : Mode) (c : Char) :
    sequence mode c cs i = some (Escape.sequence mode c (cs.drop i)) := by
  have hl : i + hexRun 4 (cs.drop i) ≤ cs.length := by
    have := hexRun_le_length 4 (cs.drop i)
    rw [List.length_drop] at this
    omega
  simp only [sequence, Escape.sequence, exactly_eq h, slice?_length h, longest_eq hl,
    Option.bind_eq_bind, Option.bind_some]
  -- Only the branch of `x` has a case of its own.
  split
  · rfl
  · split
    · rfl
    · split
      · cases longest? (cs.drop i) (hexRun 4 (cs.drop i)) <;> rfl
      · split <;> rfl

/-- The walk by positions gives what the walk over the rest of the list does. -/
theorem decode_eq (mode : Mode) (cs : List Char) (i : Nat) :
    decode mode cs i = some (Escape.decode mode (cs.drop i)) := by
  -- By induction on how many characters are left.
  induction hn : cs.length - i using Nat.strong_induction_on generalizing i with
  | _ n ih =>
    have rest : ∀ j, i < j → i < cs.length →
        decode mode cs j = some (Escape.decode mode (cs.drop j)) := fun j hj hi =>
      ih (cs.length - j) (by omega) j rfl
    rw [decode]
    by_cases hi : i < cs.length
    · rw [dif_pos hi, index?_eq hi, List.drop_eq_getElem_cons hi]
      simp only [Option.bind_eq_bind, Option.bind_some]
      by_cases hb : cs[i] = '\\'
      · rw [if_pos hb, hb]
        by_cases hnext : i + 1 < cs.length
        · have hs := sequence_eq (i := i + 2) hnext mode cs[i + 1]
          rw [List.getElem?_eq_getElem hnext, List.drop_eq_getElem_cons hnext, Escape.decode,
            List.drop_drop]
          simp only [hs, Option.bind_some]
          rw [rest _ (by omega) hi]
          rfl
        · rw [List.getElem?_eq_none (by omega), List.drop_eq_nil_of_le (by omega), Escape.decode]
          rfl
      · rw [if_neg hb]
        by_cases hh : cs[i] = '#' ∧ mode = .invocation
        · obtain ⟨hc, rfl⟩ := hh
          rw [if_pos ⟨hc, rfl⟩, hc, decode_hash_eq, List.head?_drop, List.tail_drop,
            rest (i + 1) (by omega) hi, rest (i + 2) (by omega) hi]
          split <;> rfl
        · rw [if_neg hh, decode_cons_of_ne hb hh, rest (i + 1) (by omega) hi]
          rfl
    · rw [dif_neg hi, List.drop_eq_nil_of_le (by omega)]
      simp [Escape.decode]

end Escapes

/-! ## Lines -/

section Lines

open Line

variable {cs : List Char} {i : Nat}

/-- The position at which the run of characters of a kind ends that begins at a
    position. -/
def runEnd (p : Char → Bool) (cs : List Char) (i : Nat) : Option Nat :=
  if h : i < cs.length then do
    if p (← index? cs i) then runEnd p cs (i + 1) else return i
  else return i
termination_by cs.length - i

/-- The position after the end of an item. -/
def separator (cs : List Char) (i : Nat) : Option (Option Nat) := do
  let after ← runEnd isSpace cs i
  match cs[after]? with
  | none => return some after
  | some c => return if c = ',' then some (after + 1) else none

/-- The quoted token that begins at `start`, if it ends at `k` or later, and the
    position after its item. -/
def closing (cs : List Char) (start k : Nat) : Option (Option (List Char × Nat)) :=
  if _h : k < cs.length then do
    let c ← index? cs k
    match ← if c = '"' then separator cs (k + 1) else pure none with
    | some next => return some (← slice? cs start (k + 1), next)
    | none => closing cs start (k + 1)
  else return none
termination_by cs.length - k

/-- The token of the item that begins at a position, and the position after the
    item. -/
def item (cs : List Char) (i : Nat) : Option (Option (List Char × Nat)) := do
  let start ← runEnd isSpace cs i
  match cs[start]? with
  | none => return none
  | some c =>
    if c = '"' then closing cs start (start + 1)
    else
      let stop ← runEnd isBare cs start
      if stop = start then return none
      match ← separator cs stop with
      | none => return none
      | some next => return some (← slice? cs start stop, next)

/-- The tokens of the items that follow each other from a position on. -/
def items (cs : List Char) : (limit i : Nat) → Option (List (List Char))
  | 0, _ => return []
  | limit + 1, i => do
    match ← item cs i with
    | none => return []
    | some (token, next) => return token :: (← items cs limit next)

/-- The tokens of a text without a keyword. -/
def split (limit : Nat) (text : String) : Option (List String) := do
  return (← items text.toList limit 0).map String.ofList

/-- The line that a text is. -/
def line (text : String) : Option (Option Line) := do
  let cs := text.toList
  let start ← runEnd isSpace cs 0
  let stop ← runEnd Char.isAlpha cs start
  if stop = start then return none
  let keyword ← slice? cs start stop
  let tokens ← items cs maxTokens stop
  return some { keyword := String.ofList keyword, tokens := tokens.map String.ofList }

/-- A run ends in the text, where the rest of the text begins. -/
theorem runEnd_spec (p : Char → Bool) (h : i ≤ cs.length) :
    ∃ j, runEnd p cs i = some j ∧ i ≤ j ∧ j ≤ cs.length ∧
      slice? cs i j = some ((cs.drop i).takeWhile p) ∧ cs.drop j = (cs.drop i).dropWhile p := by
  induction hn : cs.length - i generalizing i with
  | zero =>
    obtain rfl : i = cs.length := by omega
    rw [runEnd, dif_neg (Nat.lt_irrefl _)]
    exact ⟨_, rfl, Nat.le.refl, Nat.le.refl, by simp [slice?_length], by simp⟩
  | succ n ih =>
    have hi : i < cs.length := by omega
    rw [runEnd, dif_pos hi, index?_eq hi, List.drop_eq_getElem_cons hi]
    simp only [Option.bind_eq_bind, Option.bind_some]
    by_cases hp : p cs[i] = true
    · obtain ⟨j, hj, hij, hjl, hs, hd⟩ := ih hi (by omega)
      rw [if_pos hp, List.takeWhile_cons_of_pos hp, List.dropWhile_cons_of_pos hp]
      refine ⟨j, hj, by omega, hjl, ?_, hd⟩
      rw [slice?_eq hij hjl, Option.some_inj] at hs
      rw [slice?_eq (by omega) hjl, ← hs, List.drop_eq_getElem_cons (by simp; omega),
        List.getElem_take]
    · rw [if_neg hp, List.takeWhile_cons_of_neg hp, List.dropWhile_cons_of_neg hp,
        ← List.drop_eq_getElem_cons hi]
      exact ⟨i, rfl, Nat.le.refl, h, by simp [slice?_eq Nat.le.refl h], rfl⟩

/-- A position after an item lies in the text, where the rest after the item
    begins. -/
theorem separator_spec (h : i ≤ cs.length) :
    ∃ r, separator cs i = some r ∧ (∀ j ∈ r, j ≤ cs.length) ∧
      r.map cs.drop = separator? (cs.drop i) := by
  obtain ⟨after, hr, -, hl, -, hd⟩ := runEnd_spec isSpace h
  rw [separator, separator?, hr, skipSpace, ← hd]
  simp only [Option.bind_eq_bind, Option.bind_some]
  by_cases ha : after < cs.length
  · rw [List.getElem?_eq_getElem ha, List.drop_eq_getElem_cons ha]
    by_cases hc : cs[after] = ','
    · exact ⟨some (after + 1), by simp [hc], by simpa using Nat.succ_le_of_lt ha, by simp [hc]⟩
    · exact ⟨none, by simp [hc], by simp, by simp [hc]⟩
  · rw [List.getElem?_eq_none (by omega), List.drop_eq_nil_of_le (by omega)]
    exact ⟨some after, rfl, by simpa using hl, by simp; omega⟩

/-- A token and the text that begins at a position, from the token and the
    position. -/
def located (cs : List Char) : List Char × Nat → List Char × List Char :=
  Prod.map id cs.drop

/-- A quoted token is cut out whole: what comes before the position at which it
    may end belongs to it. -/
theorem closing_spec {start k : Nat} (hs : start ≤ k) (hk : k ≤ cs.length) :
    ∃ r, closing cs start k = some r ∧ (∀ t ∈ r, t.2 ≤ cs.length) ∧
      r.map (located cs) =
        (quoted? (cs.drop k)).map fun (run, rest) => ((cs.take k).drop start ++ run, rest) := by
  induction hn : cs.length - k generalizing k with
  | zero =>
    obtain rfl : k = cs.length := by omega
    rw [closing, dif_neg (Nat.lt_irrefl _), List.drop_length]
    exact ⟨none, rfl, by simp, rfl⟩
  | succ n ih =>
    have hlt : k < cs.length := by omega
    have hcut : (cs.take (k + 1)).drop start = (cs.take k).drop start ++ [cs[k]] := by
      rw [List.take_succ_eq_append_getElem hlt,
        List.drop_append_of_le_length (by rw [List.length_take]; omega)]
    obtain ⟨r, hr, hrl, hrd⟩ := separator_spec (i := k + 1) hlt
    -- If the token does not end here, its character here is one of its own.
    have further : ∃ r, closing cs start (k + 1) = some r ∧ (∀ t ∈ r, t.2 ≤ cs.length) ∧
        r.map (located cs) = ((quoted? (cs.drop (k + 1))).map fun (run, rest) =>
          (cs[k] :: run, rest)).map fun (run, rest) => ((cs.take k).drop start ++ run, rest) := by
      obtain ⟨r', hr', hrl', hrd'⟩ := ih (k := k + 1) (by omega) hlt (by omega)
      refine ⟨r', hr', hrl', ?_⟩
      simp only [hrd', hcut, Option.map_map, Function.comp_def, List.append_assoc,
        List.singleton_append]
    rw [closing, dif_pos hlt, index?_eq hlt, List.drop_eq_getElem_cons hlt, quoted?, ← hrd]
    simp only [Option.bind_eq_bind, Option.bind_some, hr]
    by_cases hq : cs[k] = '"'
    · rw [if_pos hq, if_pos hq]
      cases r with
      | none => exact further
      | some next =>
        rw [slice?_eq (by omega) hlt, hcut]
        exact ⟨_, rfl, by simpa using hrl next rfl, rfl⟩
    · rw [if_neg hq, if_neg hq]
      exact further

/-- The item at a position: its token is cut out of the text, and the rest of
    the text begins after it. -/
theorem item_spec (h : i ≤ cs.length) :
    ∃ r, item cs i = some r ∧ (∀ t ∈ r, t.2 ≤ cs.length) ∧
      r.map (located cs) = item? (cs.drop i) := by
  obtain ⟨start, hr, -, hl, -, hd⟩ := runEnd_spec isSpace h
  rw [item, item?, hr, skipSpace, ← hd]
  simp only [Option.bind_eq_bind, Option.bind_some]
  by_cases hs : start < cs.length
  · rw [List.getElem?_eq_getElem hs, List.drop_eq_getElem_cons hs]
    by_cases hq : cs[start] = '"'
    · obtain ⟨r, hc, hrl, hrd⟩ := closing_spec (Nat.le_succ start) hs
      have hopen : (cs.take (start + 1)).drop start = [cs[start]] := by
        rw [List.take_succ_eq_append_getElem hs, List.drop_left' (by simp; omega)]
      simp only [if_pos hq]
      exact ⟨r, hc, hrl, by simpa [hopen, hq] using hrd⟩
    · obtain ⟨stop, he, hle, hel, hes, hed⟩ := runEnd_spec isBare hl
      obtain ⟨r, hsep, hrl, hrd⟩ := separator_spec hel
      simp only [if_neg hq, he, Option.bind_some, bare?, ← List.drop_eq_getElem_cons hs, ← hed,
        ← hrd, hsep]
      have hlen := eq_add_length_of_slice? hes
      cases htoken : (cs.drop start).takeWhile isBare with
      | nil =>
        rw [if_pos (by simpa [htoken] using hlen)]
        exact ⟨none, rfl, by simp, rfl⟩
      | cons c token =>
        rw [htoken] at hes hlen
        rw [if_neg (by simp only [List.length_cons] at hlen; omega), hes]
        cases r with
        | none => exact ⟨none, rfl, by simp, rfl⟩
        | some next => exact ⟨_, rfl, by simpa using hrl next rfl, rfl⟩
  · rw [List.getElem?_eq_none (by omega), List.drop_eq_nil_of_le (by omega)]
    exact ⟨none, rfl, by simp, rfl⟩

theorem items_eq (limit : Nat) (h : i ≤ cs.length) :
    items cs limit i = some (Line.items limit (cs.drop i)) := by
  induction limit generalizing i with
  | zero => rfl
  | succ limit ih =>
    obtain ⟨r, hr, hrl, hrd⟩ := item_spec h
    rw [items, Line.items, ← hrd, hr]
    cases r with
    | none => rfl
    | some t =>
      simp only [Option.bind_eq_bind, Option.bind_some, ih (hrl t rfl)]
      rfl

theorem split_eq (limit : Nat) (text : String) :
    split limit text = some (Line.split limit text) := by
  rw [split, items_eq limit (Nat.zero_le _)]
  rfl

/-- A line is read without a failing check, whatever its text is. -/
theorem line_eq (text : String) : line text = some (parse? text) := by
  obtain ⟨start, hr, -, hl, -, hd⟩ := runEnd_spec isSpace (Nat.zero_le text.toList.length)
  obtain ⟨stop, he, hle, hel, hes, hed⟩ := runEnd_spec Char.isAlpha hl
  have hlen := eq_add_length_of_slice? hes
  rw [List.drop_zero] at hd
  rw [line, parse?, hr, skipSpace, ← hd, ← hed]
  simp only [Option.bind_eq_bind, Option.bind_some, he, items_eq maxTokens hel]
  cases hkeyword : (text.toList.drop start).takeWhile Char.isAlpha with
  | nil => rw [if_pos (by simpa [hkeyword] using hlen)]; rfl
  | cons c keyword =>
    rw [hkeyword] at hes hlen
    rw [if_neg (by simp only [List.length_cons] at hlen; omega), hes]
    rfl

end Lines

/-! ## Values, programs and invocations -/

/-- A text without the pair of double quotes around it: the part between its
    first and its last byte. -/
def unquote (token : String) : Option String :=
  if 2 ≤ token.utf8ByteSize ∧ token.toList.head? = some '"' ∧ token.toList.getLast? = some '"' then
    do byteSlice? token 1 (← sub? token.utf8ByteSize 1)
  else return token

/-- The value that a token denotes. -/
def ofToken (token : String) : Option Value := do
  if token = "" then return .integer 0
  match Value.readNumber? token with
  | some v => return v
  | none =>
    if Value.isWord "true" token then return .integer 1
    else if Value.isWord "false" token then return .integer 0
    else return .text (← unquote token)

/-- What is read from a line as written. -/
def entry (source : String) : Option Entry := do
  let line? ← line (String.ofList (← decode .script source.toList 0))
  return { source, line?, command? := line?.bind fun line => Command.lookup? line.keyword }

/-- The program of a source text. -/
def program (text : String) : Option Program := do
  return ⟨(← (lines text).mapM entry).toArray⟩

/-- The invocation that a console line is. -/
def invocation (text : String) : Option Invocation := do
  match ← split (Invocation.maxArgs + 1)
    (String.ofList (← decode .invocation text.toList 0)) with
  | [] => return { name := "", args := [] }
  | name :: args => return { name := ← unquote name, args := ← args.mapM ofToken }

/-- Quotes are one byte each, so no character is cut between them. -/
theorem unquote_eq (token : String) : unquote token = some (Value.unquote token) := by
  rw [unquote, Value.unquote]
  rcases hcs : token.toList with _ | ⟨c, cs⟩
  · simp
  by_cases hc : c = '"'
  · subst hc
    rcases List.eq_nil_or_concat cs with rfl | ⟨body, d, rfl⟩
    · -- A quote alone has one byte.
      have ht : token = "\"" := String.toList_inj.1 hcs
      subst ht
      rfl
    · have hlast : ('"' :: (body ++ [d])).getLast? = some d :=
        List.getLast?_concat (l := '"' :: body)
      by_cases hd : d = '"'
      · subst hd
        have ht : token = "\"" ++ String.ofList body ++ "\"" := String.toList_inj.1 (by simp [hcs])
        subst ht
        have hquote : "\"".utf8ByteSize = 1 := rfl
        have hslice := byteSlice?_append "\"" (String.ofList body) "\""
        rw [hquote] at hslice
        simp [hquote, sub?, hslice, hlast]
      · simp [hd, hlast]
  · simp [hc]

theorem ofToken_eq (token : String) : ofToken token = some (Value.ofToken token) := by
  rw [ofToken, Value.ofToken, Value.ofQuoted, unquote_eq]
  split
  · rfl
  · cases hn : Value.readNumber? token with
    | some v => rfl
    | none =>
      cases Value.isWord "true" token <;> cases Value.isWord "false" token <;> rfl

/-- Checks that pass for every element pass for a list. -/
theorem mapM_eq_some {α β : Type} {f : α → Option β} {g : α → β} (h : ∀ a, f a = some (g a))
    (xs : List α) : xs.mapM f = some (xs.map g) := by
  induction xs with
  | nil => rfl
  | cons a xs ih => simp [List.mapM_cons, h, ih]

theorem entry_eq (source : String) : entry source = some (.ofSource source) := by
  rw [entry, decode_eq, List.drop_zero]
  simp only [Option.bind_eq_bind, Option.bind_some, line_eq]
  rfl

/-- Every source text is read as a program without a failing check. -/
theorem program_eq (text : String) : program text = some (.ofSource text) := by
  rw [program, mapM_eq_some entry_eq]
  rfl

/-- Every console line is read as an invocation without a failing check. -/
theorem invocation_eq (text : String) : invocation text = some (.parse text) := by
  rw [invocation, Invocation.parse, decode_eq, List.drop_zero]
  simp only [Option.bind_eq_bind, Option.bind_some, split_eq]
  cases Line.split _ _ with
  | nil => rfl
  | cons name args => simp only [unquote_eq, mapM_eq_some ofToken_eq, Option.bind_some]; rfl

end SimpleBatch.Checked
