import SimpleBatch.Proofs.Number

/-!
# The kinds of tokens

A token denotes an integer, a floating-point number or a text. Which one it is, is
told here by the grammar of numbers (`SimpleBatch.Proofs.Number`), with white space
allowed around a number:

* `Value.DenotesInteger`: the token is empty, an integer of 32 bits, or one of the
  words for truth values in any case of their letters;
* `Value.DenotesFloat`: it denotes no integer, and it is a decimal;
* `Value.Unquoted`: otherwise it is a text, without one pair of quotes around it.

Reading a token follows these rules (`Value.ofToken_classified`). The operator that
parses a text follows them as well, apart from the empty text and the words, which it
refuses. What both rest on is that a number has a digit in it, and that neither the
empty text nor a word has one (`Value.exists_isDigit_of_readNumber?`).
-/

namespace SimpleBatch

open Text

/-! ## White space around a text -/

namespace Text

/-- A text without the white space around it. -/
inductive Stripped : List Char → List Char → Prop
  | mk {before cs after : List Char} : (∀ c ∈ before, isSpace c) → (∀ c ∈ after, isSpace c) →
    (∀ c ∈ cs.head?, ¬isSpace c) → (∀ c ∈ cs.getLast?, ¬isSpace c) →
    Stripped (before ++ (cs ++ after)) cs

theorem Stripped.mem {cs w : List Char} (h : Stripped cs w) {c : Char} (hc : c ∈ w) : c ∈ cs := by
  cases h
  simp [hc]

theorem stripped_iff {cs w : List Char} : Stripped cs w ↔ trim cs = w := by
  constructor
  · rintro ⟨hbefore, hafter, hhead, hlast⟩
    next before after =>
    have hreverse : skipSpace (w ++ after).reverse = w.reverse := by
      rw [List.reverse_append]
      exact skipSpace_append (by simpa using hafter) (by rwa [List.head?_reverse])
    by_cases hw : w = []
    · have hall : ∀ c ∈ before ++ (w ++ after), isSpace c := by
        rw [hw]
        exact List.forall_mem_append.2 ⟨hbefore, hafter⟩
      have hskip : skipSpace (before ++ (w ++ after)) = [] := List.dropWhile_eq_nil_iff.2 hall
      rw [trim, hskip, hw]
      rfl
    · have hskip : skipSpace (before ++ (w ++ after)) = w ++ after := by
        refine skipSpace_append hbefore ?_
        rwa [List.head?_append_of_ne_nil _ hw]
      rw [trim, hskip, hreverse, List.reverse_reverse]
  · rintro rfl
    obtain ⟨before, hbefore, hcs⟩ := exists_append_skipSpace cs
    obtain ⟨after, hafter, hrest⟩ := exists_append_skipSpace (skipSpace cs).reverse
    have hskip : skipSpace cs = trim cs ++ after.reverse := by
      rw [trim, ← List.reverse_append, hrest, List.reverse_reverse]
    have hfirst : ∀ c ∈ (skipSpace cs).head?, ¬isSpace c := not_head?_dropWhile
    have hhead : ∀ c ∈ (trim cs).head?, ¬isSpace c := by
      intro c hc
      refine hfirst c ?_
      rw [hskip, List.head?_append, hc]
      rfl
    have hlast : ∀ c ∈ (trim cs).getLast?, ¬isSpace c := by
      rw [trim, List.getLast?_reverse]
      exact not_head?_dropWhile
    have hspace : ∀ c ∈ after.reverse, isSpace c := by simpa using hafter
    have h := Stripped.mk hbefore hspace hhead hlast
    rwa [← hskip, hcs] at h

theorem Stripped.unique {cs w w' : List Char} (h : Stripped cs w) (h' : Stripped cs w') : w = w' :=
  (stripped_iff.1 h).symm.trans (stripped_iff.1 h')

end Text

namespace Decimal

variable {cs : List Char} {n : Int} {negative : Bool} {q : Rat}

/-- A number has a digit. -/
theorem IsInteger.exists_isDigit (h : IsInteger cs n) : ∃ c ∈ cs, c.isDigit := by
  obtain ⟨-, hne, hdigits⟩ := h
  obtain ⟨c, hc⟩ := List.exists_mem_of_ne_nil _ hne
  exact ⟨c, List.mem_append_right _ hc, hdigits c hc⟩

theorem IsDecimal.exists_isDigit (h : IsDecimal cs negative q) : ∃ c ∈ cs, c.isDigit := by
  obtain ⟨-, hplain, -⟩ := h
  cases hplain with
  | whole hne hdigits =>
    obtain ⟨c, hc⟩ := List.exists_mem_of_ne_nil _ hne
    exact ⟨c, by simp [hc], hdigits c hc⟩
  | point hne hdigits hall =>
    rcases hne with hne | hne
    · obtain ⟨c, hc⟩ := List.exists_mem_of_ne_nil _ hne
      exact ⟨c, by simp [hc], hdigits c hc⟩
    · obtain ⟨c, hc⟩ := List.exists_mem_of_ne_nil _ hne
      exact ⟨c, by simp [hc], hall c hc⟩

/-- An integer is also a decimal. -/
theorem IsInteger.isDecimal (h : IsInteger cs n) :
    ∃ negative, Binary.HasSign negative n ∧ IsDecimal cs negative |n| := by
  obtain ⟨hsign, hne, hdigits⟩ := h
  next sign digits negative =>
  have hdecimal := IsDecimal.mk hsign (.whole hne hdigits) .none
  refine ⟨negative, ?_⟩
  cases negative <;> simpa [signed, Binary.HasSign] using hdecimal

end Decimal

namespace Value

variable {t : String} {n : Int32} {x : Single} {v : Value}

/-! ## What a token denotes -/

/-- A token denotes an integer. -/
inductive DenotesInteger : String → Int32 → Prop
  | empty : DenotesInteger "" 0
  /-- An integer with white space around it. -/
  | numeral {t : String} {w : List Char} {n : Int32} : Stripped t.toList w →
    Decimal.IsInteger w n.toInt → DenotesInteger t n
  | yes {t : String} : t.toLower = "true" → DenotesInteger t 1
  | no {t : String} : t.toLower = "false" → DenotesInteger t 0

/-- A token denotes a floating-point number: the one nearest to a decimal. -/
inductive DenotesFloat : String → Single → Prop
  | mk {t : String} {w : List Char} {negative : Bool} {q : Rat} : (∀ n, ¬DenotesInteger t n) →
    Stripped t.toList w → Decimal.IsDecimal w negative q → DenotesFloat t (.round negative q)

/-- A text without one pair of quotes around it, if it has one. -/
inductive Unquoted : String → String → Prop
  | quoted {s : String} : Unquoted ("\"" ++ s ++ "\"") s
  | plain {t : String} : (∀ s, t ≠ "\"" ++ s ++ "\"") → Unquoted t t

/-! ## Reading numbers -/

theorem readInteger?_eq_some : readInteger? t = some n ↔
    ∃ w, Stripped t.toList w ∧ Decimal.IsInteger w n.toInt := by
  simp only [stripped_iff, exists_eq_left', ← Decimal.readInteger?_eq_some]
  unfold readInteger?
  constructor
  · intro h
    split at h
    · next m hm =>
      split at h
      · next hrange =>
        cases h
        have hmin : Int32.minValue.toInt = -2 ^ 31 := by decide
        have hmax : Int32.maxValue.toInt = 2 ^ 31 - 1 := by decide
        rw [hm, Int32.toInt_ofInt_of_le (by omega) (by omega)]
      · cases h
    · cases h
  · intro h
    simp only [h, n.minValue_le_toInt, n.toInt_le, and_self, if_true, Int32.ofInt_toInt]

theorem readSingle?_eq_some : readSingle? t = some x ↔
    ∃ w negative q, Stripped t.toList w ∧ Decimal.IsDecimal w negative q ∧
      x = .round negative q := by
  have hbits : 0 < Format.single.exponentBits := by decide
  constructor
  · intro h
    obtain ⟨⟨negative, d⟩, hread, rfl⟩ := Option.map_eq_some_iff.1 h
    exact ⟨_, negative, d.value, stripped_iff.2 rfl, Decimal.isDecimal_of_read? hread,
      Decimal.toBinary_eq hbits negative d⟩
  · rintro ⟨w, negative, q, hstripped, hdecimal, rfl⟩
    obtain ⟨d, hread, rfl⟩ := hdecimal.read?_eq
    rw [readSingle?, stripped_iff.1 hstripped, hread, ← Decimal.toBinary_eq hbits]
    rfl

theorem readNumber?_of_readInteger? (h : readInteger? t = some n) :
    readNumber? t = some (integer n) := by
  rw [readNumber?, h]
  rfl

theorem readNumber?_of_readSingle? (hn : readInteger? t = none) (h : readSingle? t = some x) :
    readNumber? t = some (float x) := by
  rw [readNumber?, hn, h]
  rfl

/-- A number that is read is an integer, or else a floating-point number. -/
theorem readNumber?_cases (h : readNumber? t = some v) :
    (∃ n, readInteger? t = some n ∧ v = integer n) ∨
      readInteger? t = none ∧ ∃ x, readSingle? t = some x ∧ v = float x := by
  rw [readNumber?] at h
  cases hn : readInteger? t with
  | some n =>
    rw [hn] at h
    exact .inl ⟨n, rfl, (Option.some.inj h).symm⟩
  | none =>
    rw [hn, Option.map_none, Option.none_or] at h
    obtain ⟨x, hx, rfl⟩ := Option.map_eq_some_iff.1 h
    exact .inr ⟨rfl, x, hx, rfl⟩

/-- A number has a digit in it. -/
theorem exists_isDigit_of_readNumber? (h : readNumber? t = some v) : ∃ c ∈ t.toList, c.isDigit := by
  rcases readNumber?_cases h with ⟨n, hn, -⟩ | ⟨-, x, hx, -⟩
  · obtain ⟨w, hstripped, hw⟩ := readInteger?_eq_some.1 hn
    obtain ⟨c, hc, hdigit⟩ := hw.exists_isDigit
    exact ⟨c, hstripped.mem hc, hdigit⟩
  · obtain ⟨w, negative, q, hstripped, hw, -⟩ := readSingle?_eq_some.1 hx
    obtain ⟨c, hc, hdigit⟩ := hw.exists_isDigit
    exact ⟨c, hstripped.mem hc, hdigit⟩

theorem toLower_eq (t : String) : t.toLower = t.map Char.toLower :=
  rfl

theorem toLower_of_isDigit {c : Char} (h : c.isDigit) : c.toLower = c := by
  have hnine : c.toNat ≤ 57 := (Char.isDigit_iff_toNat.1 h).2
  refine dif_neg fun hl => ?_
  have hlow : 65 ≤ c.toNat := UInt32.le_iff_toNat_le.1 hl.1
  omega

/-- The texts that are no numbers, though they denote integers. -/
theorem readNumber?_eq_none_of_word (h : t = "" ∨ t.toLower = "true" ∨ t.toLower = "false") :
    readNumber? t = none := by
  refine Option.eq_none_iff_forall_ne_some.2 fun v hv => ?_
  obtain ⟨c, hc, hdigit⟩ := exists_isDigit_of_readNumber? hv
  have hmem : c ∈ t.toLower.toList := by
    rw [toLower_eq, String.toList_map]
    exact List.mem_map.2 ⟨c, hc, toLower_of_isDigit hdigit⟩
  have hno : ∀ c ∈ "true".toList ++ "false".toList, ¬c.isDigit :=
    List.any_eq_false.1 (by decide)
  rcases h with rfl | h | h
  · simp at hc
  · exact hno c (List.mem_append_left _ (h ▸ hmem)) hdigit
  · exact hno c (List.mem_append_right _ (h ▸ hmem)) hdigit

/-! ## Reading tokens -/

theorem ofToken_of_readNumber? (h : readNumber? t = some v) : ofToken t = v := by
  have hne : t ≠ "" := by
    rintro rfl
    simpa using exists_isDigit_of_readNumber? h
  rw [ofToken, if_neg hne, h]

theorem ofToken_of_readNumber?_eq_none (h : readNumber? t = none) :
    ofToken t =
      if t = "" then integer 0
      else if t.toLower = "true" then integer 1
      else if t.toLower = "false" then integer 0
      else text (unquote t) := by
  simp only [ofToken, h, isWord, ofQuoted, beq_iff_eq]
  rfl

theorem unquote_quoted (s : String) : unquote ("\"" ++ s ++ "\"") = s := by
  simp [unquote]

theorem unquote_of_forall_ne (h : ∀ s, t ≠ "\"" ++ s ++ "\"") : unquote t = t := by
  unfold unquote
  split
  · next cs hcs =>
    rw [if_neg fun hlast => ?_]
    obtain ⟨init, rfl⟩ := List.getLast?_eq_some_iff.1 hlast
    refine h (String.ofList init) (String.toList_inj.1 ?_)
    simp [hcs]
  · rfl

theorem unquoted_iff {s : String} : Unquoted t s ↔ unquote t = s := by
  constructor
  · intro h
    cases h with
    | quoted => exact unquote_quoted s
    | plain h => exact unquote_of_forall_ne h
  · rintro rfl
    by_cases h : ∃ s, t = "\"" ++ s ++ "\""
    · obtain ⟨s, rfl⟩ := h
      rw [unquote_quoted]
      exact .quoted
    · have h := not_exists.1 h
      rw [unquote_of_forall_ne h]
      exact .plain h

theorem ne_empty_of_toLower {word : String} (h : t.toLower = word) (hword : word ≠ "") :
    t ≠ "" := by
  rintro rfl
  apply hword
  rw [← h, toLower_eq]
  simp

theorem ofToken_eq_integer : ofToken t = integer n ↔ DenotesInteger t n := by
  constructor
  · intro h
    cases hread : readNumber? t with
    | some v =>
      obtain rfl := (ofToken_of_readNumber? hread).symm.trans h
      rcases readNumber?_cases hread with ⟨m, hm, hv⟩ | ⟨-, x, -, hv⟩
      · cases hv
        obtain ⟨w, hstripped, hw⟩ := readInteger?_eq_some.1 hm
        exact .numeral hstripped hw
      · cases hv
    | none =>
      rw [ofToken_of_readNumber?_eq_none hread] at h
      split_ifs at h with hempty hyes hno
      · cases h
        exact hempty ▸ .empty
      · cases h
        exact .yes hyes
      · cases h
        exact .no hno
  · intro h
    cases h with
    | empty => rfl
    | numeral hstripped hw =>
      exact ofToken_of_readNumber? (readNumber?_of_readInteger?
        (readInteger?_eq_some.2 ⟨_, hstripped, hw⟩))
    | yes h =>
      have hnone := readNumber?_eq_none_of_word (.inr (.inl h))
      have hne := ne_empty_of_toLower h (by decide)
      rw [ofToken_of_readNumber?_eq_none hnone, if_neg hne, if_pos h]
    | no h =>
      have hnone := readNumber?_eq_none_of_word (.inr (.inr h))
      have hne := ne_empty_of_toLower h (by decide)
      rw [ofToken_of_readNumber?_eq_none hnone, if_neg hne, if_neg (by rw [h]; decide), if_pos h]

theorem ofToken_eq_float : ofToken t = float x ↔ DenotesFloat t x := by
  constructor
  · intro h
    have hno : ∀ n, ¬DenotesInteger t n := fun n hn => by
      cases (ofToken_eq_integer.2 hn).symm.trans h
    cases hread : readNumber? t with
    | some v =>
      obtain rfl := (ofToken_of_readNumber? hread).symm.trans h
      rcases readNumber?_cases hread with ⟨m, -, hv⟩ | ⟨-, y, hy, hv⟩
      · cases hv
      · cases hv
        obtain ⟨w, negative, q, hstripped, hw, rfl⟩ := readSingle?_eq_some.1 hy
        exact .mk hno hstripped hw
    | none =>
      rw [ofToken_of_readNumber?_eq_none hread] at h
      split_ifs at h
  · rintro ⟨hno, hstripped, hw⟩
    have hnone : readInteger? t = none := by
      refine Option.eq_none_iff_forall_ne_some.2 fun n hn => ?_
      obtain ⟨w, hstripped, hw⟩ := readInteger?_eq_some.1 hn
      exact hno n (.numeral hstripped hw)
    exact ofToken_of_readNumber? (readNumber?_of_readSingle? hnone
      (readSingle?_eq_some.2 ⟨_, _, _, hstripped, hw, rfl⟩))

theorem ofToken_eq_text {s : String} : ofToken t = text s ↔
    (∀ n, ¬DenotesInteger t n) ∧ (∀ x, ¬DenotesFloat t x) ∧ Unquoted t s := by
  have hunquoted {s : String} (h : ofToken t = text s) : unquote t = s := by
    cases hread : readNumber? t with
    | some v =>
      obtain rfl := (ofToken_of_readNumber? hread).symm.trans h
      rcases readNumber?_cases hread with ⟨m, -, hv⟩ | ⟨-, y, -, hv⟩ <;> cases hv
    | none =>
      rw [ofToken_of_readNumber?_eq_none hread] at h
      split_ifs at h
      cases h
      rfl
  constructor
  · intro h
    refine ⟨fun n hn => ?_, fun x hx => ?_, unquoted_iff.2 (hunquoted h)⟩
    · cases (ofToken_eq_integer.2 hn).symm.trans h
    · cases (ofToken_eq_float.2 hx).symm.trans h
  · rintro ⟨hinteger, hfloat, hs⟩
    cases hvalue : ofToken t with
    | integer n => exact absurd (ofToken_eq_integer.1 hvalue) (hinteger n)
    | float x => exact absurd (ofToken_eq_float.1 hvalue) (hfloat x)
    | text s' => rw [← unquoted_iff.1 hs, hunquoted hvalue]

/-- An integer out of range denotes a floating-point number. -/
theorem exists_ofToken_eq_float {w : List Char} {m : Int} (hstripped : Stripped t.toList w)
    (hw : Decimal.IsInteger w m) (hrange : ∀ n : Int32, n.toInt ≠ m) :
    ∃ x, ofToken t = float x := by
  obtain ⟨negative, -, hdecimal⟩ := hw.isDecimal
  have hsingle := readSingle?_eq_some.2 ⟨w, negative, _, hstripped, hdecimal, rfl⟩
  have hnone : readInteger? t = none := by
    refine Option.eq_none_iff_forall_ne_some.2 fun n hn => ?_
    obtain ⟨w', hstripped', hw'⟩ := readInteger?_eq_some.1 hn
    obtain rfl := hstripped.unique hstripped'
    refine hrange n (Option.some.inj ?_)
    rw [← Decimal.readInteger?_eq_some.2 hw', Decimal.readInteger?_eq_some.2 hw]
  exact ⟨_, ofToken_of_readNumber? (readNumber?_of_readSingle? hnone hsingle)⟩

theorem exists_isDigit_of_ofToken_eq_float (h : ofToken t = float x) :
    ∃ c ∈ t.toList, c.isDigit := by
  obtain ⟨-, hstripped, hw⟩ := ofToken_eq_float.1 h
  obtain ⟨c, hc, hdigit⟩ := hw.exists_isDigit
  exact ⟨c, hstripped.mem hc, hdigit⟩

/-! ## Parsing texts -/

theorem parseNumber_eq_ok : parseNumber (text t) = .ok v ↔ readNumber? t = some v := by
  rw [parseNumber, render]
  cases readNumber? t <;> simp

theorem parseNumber_eq_error (h : readNumber? t = none) :
    parseNumber (text t) = .error (.invalidNumber t) := by
  rw [parseNumber, render, h]

theorem readNumber?_eq_some : readNumber? t = some v ↔
    ofToken t = v ∧ v.kind ≠ .text ∧ t ≠ "" ∧ t.toLower ≠ "true" ∧ t.toLower ≠ "false" := by
  constructor
  · intro h
    have hword : ¬(t = "" ∨ t.toLower = "true" ∨ t.toLower = "false") := fun hw => by
      cases (readNumber?_eq_none_of_word hw).symm.trans h
    have hkind : v.kind ≠ .text := by
      rcases readNumber?_cases h with ⟨n, -, rfl⟩ | ⟨-, x, -, rfl⟩
      · simp [kind]
      · simp [kind]
    exact ⟨ofToken_of_readNumber? h, hkind, by simpa [not_or] using hword⟩
  · rintro ⟨rfl, hkind, hne, hyes, hno⟩
    cases hread : readNumber? t with
    | some v => rw [ofToken_of_readNumber? hread]
    | none =>
      rw [ofToken_of_readNumber?_eq_none hread, if_neg hne, if_neg hyes, if_neg hno] at hkind
      exact absurd rfl hkind

/-- Reading a token is telling its kind by the grammar of numbers: integers out of
    range are floating-point numbers, and spellings without digits never are. Parsing
    a text agrees with it, apart from the empty text and the words. -/
theorem ofToken_classified (t : String) :
    (∀ n, ofToken t = integer n ↔ DenotesInteger t n) ∧
    (∀ x, ofToken t = float x ↔ DenotesFloat t x) ∧
    (∀ s, ofToken t = text s ↔
      (∀ n, ¬DenotesInteger t n) ∧ (∀ x, ¬DenotesFloat t x) ∧ Unquoted t s) ∧
    (∀ w m, Stripped t.toList w → Decimal.IsInteger w m → (∀ n : Int32, n.toInt ≠ m) →
      ∃ x, ofToken t = float x) ∧
    (∀ x, ofToken t = float x → ∃ c ∈ t.toList, c.isDigit) ∧
    (∀ v, parseNumber (text t) = .ok v ↔
      ofToken t = v ∧ v.kind ≠ .text ∧ t ≠ "" ∧ t.toLower ≠ "true" ∧ t.toLower ≠ "false") ∧
    ((∃ v, parseNumber (text t) = .ok v) ∨ parseNumber (text t) = .error (.invalidNumber t)) := by
  refine ⟨fun n => ofToken_eq_integer, fun x => ofToken_eq_float, fun s => ofToken_eq_text,
    fun w m => exists_ofToken_eq_float, fun x => exists_isDigit_of_ofToken_eq_float,
    fun v => parseNumber_eq_ok.trans readNumber?_eq_some, ?_⟩
  cases h : readNumber? t with
  | some v => exact .inl ⟨v, parseNumber_eq_ok.2 h⟩
  | none => exact .inr (parseNumber_eq_error h)

end Value

end SimpleBatch
