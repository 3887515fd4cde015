import Mathlib.Data.List.Chain
import Mathlib.Data.Nat.Digits.Defs
import SimpleBatch.Proofs.Escape

/-!
# Texts written with escape sequences

A character can be written in many ways (`Spelling`): as itself, with a backslash
before it, by the letter or by the code point of it, and on a console line with
hashes. An `Encoding` of a text chooses one of them for each of its characters;
the choices are free, except that a hash which stands alone must not come before
another one, with which it would pair up.

Whatever the choices, the text is decoded from what is written
(`decode_encoding`). For each sequence takes what belongs to it and no more: it
tells by its own characters where it ends, with that one exception. So one
character at a time can be taken off the front (`Spelling.decode_append`).
-/

namespace SimpleBatch.Text.Escape

/-! ## Writing -/

/-- `d` is the hexadecimal digit of `n`, in either case of letters. -/
def IsHexDigit (d : Char) (n : Nat) : Prop :=
  "0123456789abcdef".toList[n]? = some d ∨ "0123456789ABCDEF".toList[n]? = some d

/-- Hexadecimal digits that make up the code point of a character. -/
def IsCode (digits : List Char) (c : Char) : Prop :=
  ∃ values, digits.Forall₂ IsHexDigit values ∧ Nat.ofDigits 16 values.reverse = c.toNat

/-- The letters that name a control character after a backslash, each with the
    character. -/
def named : List (Char × Char) :=
  [('0', Char.ofNat 0x00), ('a', Char.ofNat 0x07), ('b', Char.ofNat 0x08),
    ('f', Char.ofNat 0x0C), ('n', Char.ofNat 0x0A), ('r', Char.ofNat 0x0D),
    ('t', Char.ofNat 0x09), ('v', Char.ofNat 0x0B)]

/-- A way of writing a character. -/
inductive Spelling (mode : Mode) : Char → List Char → Prop
  /-- The character itself. -/
  | plain {c : Char} : c ≠ '\\' → ¬(c = '#' ∧ mode = .invocation) → Spelling mode c [c]
  /-- A backslash before a backslash, a double or a single quote. -/
  | escaped {c : Char} : c ∈ ['\\', '"', Char.ofNat 0x27] → Spelling mode c ['\\', c]
  /-- A backslash before the letter of a control character. -/
  | control {letter c : Char} : (letter, c) ∈ named → Spelling mode c ['\\', letter]
  /-- The four digits of a code point. -/
  | short {letter c : Char} {digits : List Char} : letter ∈ ['u', 'x'] → digits.length = 4 →
    IsCode digits c → Spelling mode c ('\\' :: letter :: digits)
  /-- The eight digits of a code point. -/
  | long {c : Char} {digits : List Char} : digits.length = 8 → IsCode digits c →
    Spelling mode c ('\\' :: 'U' :: digits)
  /-- Two hashes for one. -/
  | hashes : mode = .invocation → Spelling mode '#' ['#', '#']
  /-- A hash that stands alone for a double quote. -/
  | hash : mode = .invocation → Spelling mode '"' ['#']
  /-- A hash after a backslash for a double quote. -/
  | escapedHash : mode = .invocation → Spelling mode '"' ['\\', '#']

/-- What is written for a character is a hash that stands alone. -/
def IsLone (mode : Mode) (cs : List Char) : Prop :=
  mode = .invocation ∧ cs = ['#']

/-- A text with a way of writing for each of its characters. -/
structure Encoding (mode : Mode) where
  /-- The characters, each with what is written for it. -/
  spellings : List (Char × List Char)
  spelled : ∀ s ∈ spellings, Spelling mode s.1 s.2
  /-- After a hash that stands alone, no other hash is written. -/
  apart : spellings.IsChain fun s t => IsLone mode s.2 → t.2.head? ≠ some '#'

namespace Encoding

variable {mode : Mode} (e : Encoding mode)

/-- The text that is meant. -/
def text : List Char :=
  e.spellings.map Prod.fst

/-- The text as it is written. -/
def written : List Char :=
  e.spellings.flatMap Prod.snd

/-- The last character is written as a hash that stands alone. -/
def EndsAlone : Prop :=
  ∃ s ∈ e.spellings.getLast?, IsLone mode s.2

end Encoding

/-! ## Code points -/

variable {mode : Mode} {c : Char} {digits rest : List Char}

theorem hexDigit?_of_isHexDigit {d : Char} {n : Nat} (h : IsHexDigit d n) :
    hexDigit? d = some n := by
  have hall : ∀ n : Fin 16, hexDigit? "0123456789abcdef".toList[n] = some n.val ∧
      hexDigit? "0123456789ABCDEF".toList[n] = some n.val := by decide
  rcases h with h | h
  · obtain ⟨hn, rfl⟩ := List.getElem?_eq_some_iff.1 h
    exact (hall ⟨n, hn⟩).1
  · obtain ⟨hn, rfl⟩ := List.getElem?_eq_some_iff.1 h
    exact (hall ⟨n, hn⟩).2

theorem numeralValue_of_forall₂ {values : List Nat} (h : digits.Forall₂ IsHexDigit values) :
    numeralValue 16 digits = Nat.ofDigits 16 values.reverse := by
  -- Both are folds that begin with the most significant digit.
  have hfold : ∀ start, digits.foldl (fun n d => 16 * n + (hexDigit? d).getD 0) start =
      values.foldl (fun n v => v + 16 * n) start := by
    induction h with
    | nil => exact fun _ => rfl
    | cons hd _ ih =>
      intro start
      rw [List.foldl_cons, List.foldl_cons, hexDigit?_of_isHexDigit hd, Option.getD_some,
        Nat.add_comm, ih]
  rw [Nat.ofDigits_eq_foldr, List.foldr_reverse]
  exact hfold 0

theorem IsCode.scalar? (h : IsCode digits c) : scalar? digits = some c := by
  obtain ⟨values, hd, hv⟩ := h
  have hc : numeralValue 16 digits = c.toNat := (numeralValue_of_forall₂ hd).trans hv
  have hvalid : c.toNat.isValidChar := c.valid
  rw [Escape.scalar?, hc, if_pos hvalid, Char.ofNat_toNat]

theorem IsCode.isSome_hexDigit? (h : IsCode digits c) : ∀ d ∈ digits, (hexDigit? d).isSome := by
  obtain ⟨values, hd, -⟩ := h
  induction hd with
  | nil => exact List.forall_mem_nil _
  | cons hd _ ih =>
    exact List.forall_mem_cons.2 ⟨Option.isSome_of_eq_some (hexDigit?_of_isHexDigit hd), ih⟩

/-- The digits of a code point are read whole, whatever follows. -/
theorem IsCode.hexRun_append (h : IsCode digits c) :
    hexRun digits.length (digits ++ rest) = digits.length := by
  rw [hexRun, List.take_left, List.takeWhile_eq_self_iff.2 h.isSome_hexDigit?]

theorem IsCode.exactly_append (h : IsCode digits c) (letter : Char) :
    exactly digits.length letter (digits ++ rest) = (c, digits.length) := by
  rw [exactly, if_pos h.hexRun_append, List.take_left, h.scalar?]
  rfl

/-- Four digits are the longest run that `\x` takes. -/
theorem IsCode.longest?_append (h : IsCode digits c) (hd : digits.length = 4) :
    longest? (digits ++ rest) (hexRun 4 (digits ++ rest)) = some (c, 4) := by
  have hrun : hexRun 4 (digits ++ rest) = 4 := hd ▸ h.hexRun_append
  have htake : (digits ++ rest).take 4 = digits := hd ▸ List.take_left
  rw [hrun, longest?, htake, h.scalar?]

/-! ## Reading -/

theorem sequence_of_mem_named {letter : Char} (h : (letter, c) ∈ named) :
    sequence mode letter rest = ([c], 0) := by
  simp only [named, List.mem_cons, List.not_mem_nil, or_false, Prod.mk.injEq] at h
  rcases h with ⟨rfl, rfl⟩ | ⟨rfl, rfl⟩ | ⟨rfl, rfl⟩ | ⟨rfl, rfl⟩ | ⟨rfl, rfl⟩ | ⟨rfl, rfl⟩ |
    ⟨rfl, rfl⟩ | ⟨rfl, rfl⟩ <;> rfl

theorem sequence_of_mem_quotes (h : c ∈ ['\\', '"', Char.ofNat 0x27]) :
    sequence mode c rest = ([c], 0) := by
  simp only [List.mem_cons, List.not_mem_nil, or_false] at h
  rcases h with rfl | rfl | rfl <;> rfl

/-- The letters before four digits differ only in what they do with fewer. -/
theorem sequence_short {letter : Char} (hl : letter ∈ ['u', 'x']) (hd : digits.length = 4)
    (hc : IsCode digits c) : sequence mode letter (digits ++ rest) = ([c], 4) := by
  rcases List.mem_pair.1 hl with rfl | rfl
  · have hexact : exactly 4 'u' (digits ++ rest) = (c, 4) := hd ▸ hc.exactly_append 'u'
    rw [sequence, if_pos rfl, hexact]
  · rw [sequence, if_neg (by decide), if_neg (by decide), if_pos rfl, hc.longest?_append hd]

theorem sequence_long (hd : digits.length = 8) (hc : IsCode digits c) :
    sequence mode 'U' (digits ++ rest) = ([c], 8) := by
  have hexact : exactly 8 'U' (digits ++ rest) = (c, 8) := hd ▸ hc.exactly_append 'U'
  rw [sequence, if_neg (by decide), if_pos rfl, hexact]

/-- A character is decoded from what is written for it, whatever follows; but a
    hash that stands alone has to stay alone. -/
theorem Spelling.decode_append {cs : List Char} (h : Spelling mode c cs)
    (hr : IsLone mode cs → rest.head? ≠ some '#') :
    decode mode (cs ++ rest) = c :: decode mode rest := by
  cases h with
  | plain hb hh => exact decode_cons_of_ne hb hh
  | escaped hc => exact decode_of_sequence (sequence_of_mem_quotes hc)
  | control hc => exact decode_of_sequence (sequence_of_mem_named hc)
  | @short letter _ digits hl hd hc =>
    have hs : sequence mode letter (digits ++ rest) = ([c], 4) := sequence_short hl hd hc
    have hdrop : (digits ++ rest).drop 4 = rest := hd ▸ List.drop_left
    exact (decode_of_sequence hs).trans (by rw [hdrop])
  | @long _ digits hd hc =>
    have hs : sequence mode 'U' (digits ++ rest) = ([c], 8) := sequence_long hd hc
    have hdrop : (digits ++ rest).drop 8 = rest := hd ▸ List.drop_left
    exact (decode_of_sequence hs).trans (by rw [hdrop])
  | hashes hm =>
    subst hm
    exact decode_hashes
  | hash hm =>
    subst hm
    exact decode_hash (hr ⟨rfl, rfl⟩)
  | escapedHash hm =>
    subst hm
    have hs : sequence .invocation '#' rest = (['"'], 0) := rfl
    exact decode_of_sequence hs

theorem Spelling.head?_append {cs : List Char} (h : Spelling mode c cs) :
    (cs ++ rest).head? = cs.head? := by
  cases h <;> rfl

/-- The characters of a text are decoded one after the other. -/
theorem decode_spellings_append {l : List (Char × List Char)}
    (hs : ∀ s ∈ l, Spelling mode s.1 s.2)
    (ha : l.IsChain fun s t => IsLone mode s.2 → t.2.head? ≠ some '#')
    (hr : ∀ s ∈ l.getLast?, IsLone mode s.2 → rest.head? ≠ some '#') :
    decode mode (l.flatMap Prod.snd ++ rest) = l.map Prod.fst ++ decode mode rest := by
  induction l with
  | nil => rfl
  | cons s l ih =>
    obtain ⟨hs, hl⟩ := List.forall_mem_cons.1 hs
    -- What comes after `s` is written for the next character, or is the rest.
    have hnext : IsLone mode s.2 → (l.flatMap Prod.snd ++ rest).head? ≠ some '#' := by
      intro hlone
      cases l with
      | nil => exact hr s rfl hlone
      | cons t l =>
        rw [List.flatMap_cons, List.append_assoc, (hl t List.mem_cons_self).head?_append]
        exact (List.isChain_cons_cons.1 ha).1 hlone
    have hlast : ∀ t ∈ l.getLast?, IsLone mode t.2 → rest.head? ≠ some '#' := by
      intro t ht
      refine hr t ?_
      rw [List.getLast?_cons, Option.mem_def.1 ht]
      rfl
    rw [List.flatMap_cons, List.append_assoc, hs.decode_append hnext,
      ih hl (List.isChain_of_isChain_cons ha) hlast]
    rfl

/-- A text is decoded from every encoding of it. And what is written after an
    encoding is decoded on its own, unless two hashes meet there. -/
theorem decode_encoding (mode : Mode) (e : Encoding mode) :
    decode mode e.written = e.text ∧
      ∀ rest, ¬(mode = .invocation ∧ e.EndsAlone ∧ rest.head? = some '#') →
        decode mode (e.written ++ rest) = decode mode e.written ++ decode mode rest := by
  have happend : ∀ {rest}, ¬(mode = .invocation ∧ e.EndsAlone ∧ rest.head? = some '#') →
      decode mode (e.written ++ rest) = e.text ++ decode mode rest := by
    intro rest hrest
    refine decode_spellings_append e.spelled e.apart fun s hs hlone hhead => ?_
    exact hrest ⟨hlone.1, ⟨s, hs, hlone⟩, hhead⟩
  have htext : decode mode e.written = e.text := by
    simpa [decode] using @happend [] (by simp)
  exact ⟨htext, fun rest hrest => htext ▸ happend hrest⟩

/-- Four ways of writing at once. The last hash stands alone, although there are
    others before it; with a letter after it, it stays so. -/
theorem decode_encoding_hash :
    ∃ e : Encoding .invocation, e.text = ['"', 'é', '\t', '#', '"'] ∧
      e.written = "#\\u00E9\\t###".toList ∧
      (e.EndsAlone ∧ "x##".toList.head? ≠ some '#') ∧
      decode .invocation (e.written ++ "x##".toList) =
        ['"', 'é', '\t', '#', '"'] ++ decode .invocation "x##".toList := by
  have hcode : IsCode ['0', '0', 'E', '9'] 'é' :=
    ⟨[0, 0, 14, 9], .cons (.inl rfl) (.cons (.inl rfl) (.cons (.inr rfl) (.cons (.inl rfl) .nil))),
      by decide⟩
  have hspelled : ∀ s ∈ [('"', ['#']), ('é', ['\\', 'u', '0', '0', 'E', '9']), ('\t', ['\\', 't']),
      ('#', ['#', '#']), ('"', ['#'])], Spelling .invocation s.1 s.2 := by
    simp only [List.forall_mem_cons]
    exact ⟨.hash rfl, .short List.mem_cons_self rfl hcode, .control (by decide), .hashes rfl,
      .hash rfl, List.forall_mem_nil _⟩
  let e : Encoding .invocation := ⟨_, hspelled, by simp [IsLone]⟩
  have hends : e.EndsAlone := ⟨_, rfl, rfl, rfl⟩
  have hrest : "x##".toList.head? ≠ some '#' := by decide
  obtain ⟨htext, happend⟩ := decode_encoding .invocation e
  have hread := happend _ fun h => hrest h.2.2
  rw [htext] at hread
  exact ⟨e, rfl, rfl, ⟨hends, hrest⟩, hread⟩

end SimpleBatch.Text.Escape
