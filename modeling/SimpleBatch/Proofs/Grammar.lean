import SimpleBatch.Line
import SimpleBatch.Proofs.Text

/-!
# The grammar of lines

The reader of a line walks over its characters and looks ahead at every quote.
What it accepts is told here without a walk, by the ways a text can be taken
apart:

* `EndsItem`: white space, and a comma or the end;
* `IsToken`: a run between quotes, which closes at the first quote where an
  item can end, or a longest run of characters that are neither white space nor
  commas;
* `IsItem`: white space, a token, and the end of an item;
* `Chain`: items that follow each other from the start of a text.

An item is read exactly where there is one (`item?_eq_some`), and it takes at
least one character. So the items of a text form one longest chain, the only one
after which no item follows (`longestChain_iff`), and the tokens that are read
are those of that chain (`reads_longest_chain`).
-/

namespace SimpleBatch.Line

open Text

/-! ## Items -/

/-- An item ends before a text, and the next one starts with `rest`. -/
inductive EndsItem : List Char → List Char → Prop
  /-- White space and a comma. -/
  | comma {space rest : List Char} : (∀ c ∈ space, isSpace c) → EndsItem (space ++ ',' :: rest) rest
  /-- White space up to the end of the text. -/
  | finish {space : List Char} : (∀ c ∈ space, isSpace c) → EndsItem space []

/-- No quote in `body` closes it: an item can end after none of them, with another
    quote and `tail` after the body. -/
def StaysOpen (body tail : List Char) : Prop :=
  ∀ before after, body = before ++ '"' :: after → ∀ rest, ¬EndsItem (after ++ '"' :: tail) rest

/-- A token, before the text after it. -/
inductive IsToken : List Char → List Char → Prop
  /-- From a quote to the first later one where an item can end. -/
  | quoted {body tail : List Char} : (∃ rest, EndsItem tail rest) → StaysOpen body tail →
    IsToken ('"' :: body ++ ['"']) tail
  /-- A longest run without white space and commas, and without a quote in front. -/
  | bare {c : Char} {run tail : List Char} : c ≠ '"' →
    (∀ d ∈ c :: run, ¬isSpace d ∧ d ≠ ',') → (∀ d ∈ tail.head?, isSpace d ∨ d = ',') →
    IsToken (c :: run) tail

/-- A text starts with an item: its token, and the text after it. -/
inductive IsItem : List Char → List Char → List Char → Prop
  | mk {space token tail rest : List Char} : (∀ c ∈ space, isSpace c) → IsToken token tail →
    EndsItem tail rest → IsItem (space ++ (token ++ tail)) token rest

/-- The tokens of items that follow each other from the start of a text, and the
    text after them. -/
inductive Chain : List Char → List (List Char) → List Char → Prop
  | nil {cs : List Char} : Chain cs [] cs
  | cons {cs token rest last : List Char} {tokens : List (List Char)} : IsItem cs token rest →
    Chain rest tokens last → Chain cs (token :: tokens) last

/-- No chain of items from the start of a text has more tokens. -/
structure LongestChain (cs : List Char) (tokens : List (List Char)) : Prop where
  chain : ∃ rest, Chain cs tokens rest
  longest : ∀ tokens' rest, Chain cs tokens' rest → tokens'.length ≤ tokens.length

/-! ## Reading an item -/

variable {cs token tail rest : List Char}

theorem isBare_iff {c : Char} : isBare c ↔ ¬isSpace c ∧ c ≠ ',' := by
  simp [isBare]

theorem not_isBare_iff {c : Char} : ¬isBare c ↔ isSpace c ∨ c = ',' := by
  rw [isBare_iff, not_and_or, not_not, not_ne_iff]

theorem separator?_eq_some : separator? cs = some rest ↔ EndsItem cs rest := by
  constructor
  · intro h
    obtain ⟨space, hspace, hcs⟩ := exists_append_skipSpace cs
    unfold separator? at h
    split at h
    · next hs =>
      rw [hs, List.append_nil] at hcs
      cases h
      exact hcs ▸ .finish hspace
    · next c rest' hs =>
      split at h
      · next hc =>
        rw [hs, hc] at hcs
        cases h
        exact hcs ▸ .comma hspace
      · cases h
  · intro h
    have hc : ¬isSpace ',' := by decide
    cases h with
    | comma hs =>
      rw [separator?, skipSpace_append hs (by simpa using hc)]
      rfl
    | finish hs =>
      rw [separator?, skipSpace, List.dropWhile_eq_nil_iff.2 hs]

theorem separator?_eq_none : separator? cs = none ↔ ∀ rest, ¬EndsItem cs rest := by
  rw [Option.eq_none_iff_forall_ne_some]
  exact forall_congr' fun rest => not_congr separator?_eq_some

/-- The quotes before the closing one are part of the token. -/
theorem quoted?_append {body : List Char} (he : EndsItem tail rest) (hf : StaysOpen body tail) :
    quoted? (body ++ '"' :: tail) = some (body ++ ['"'], rest) := by
  induction body with
  | nil => simp [quoted?, separator?_eq_some.2 he]
  | cons c body ih =>
    have hn : (if c = '"' then separator? (body ++ '"' :: tail) else none) = none := by
      split
      · next hc => exact separator?_eq_none.2 (hf [] body (by rw [hc]; rfl))
      · rfl
    have hf' : StaysOpen body tail :=
      fun before after hb => hf (c :: before) after (by rw [hb]; rfl)
    rw [List.cons_append, quoted?, hn]
    simp only [ih hf', Option.map_some, List.cons_append]

theorem exists_of_quoted? {run : List Char} (h : quoted? cs = some (run, rest)) :
    ∃ body tail, cs = body ++ '"' :: tail ∧ run = body ++ ['"'] ∧ EndsItem tail rest ∧
      StaysOpen body tail := by
  induction cs generalizing run with
  | nil => cases h
  | cons c cs ih =>
    rw [quoted?] at h
    split at h
    · next rest' hs =>
      cases h
      obtain ⟨hc, hs⟩ : c = '"' ∧ separator? cs = some rest := by simpa using hs
      refine ⟨[], cs, by rw [hc]; rfl, by rw [hc]; rfl, separator?_eq_some.1 hs, ?_⟩
      intro before after hb
      simp at hb
    · next hn =>
      obtain ⟨⟨run', rest'⟩, hq, heq⟩ := Option.map_eq_some_iff.1 h
      cases heq
      obtain ⟨body, tail, rfl, rfl, he, hf⟩ := ih hq
      refine ⟨c :: body, tail, rfl, rfl, he, ?_⟩
      intro before after hb
      -- The first quote of the body is its first character, or one of the rest.
      cases before with
      | nil =>
        obtain ⟨rfl, rfl⟩ := List.cons.inj hb
        exact separator?_eq_none.1 (by simpa using hn)
      | cons d before => exact hf before after (List.cons.inj hb).2

theorem bare?_append (ht : token ≠ []) (hb : ∀ c ∈ token, isBare c)
    (hs : ∀ c ∈ tail.head?, ¬isBare c) (he : EndsItem tail rest) :
    bare? (token ++ tail) = some (token, rest) := by
  obtain ⟨htake, hdrop⟩ := span_append hb hs
  unfold bare?
  rw [htake, hdrop]
  split
  · contradiction
  · rw [separator?_eq_some.2 he, Option.map_some]

theorem exists_of_bare? (h : bare? cs = some (token, rest)) :
    ∃ tail, cs = token ++ tail ∧ token ≠ [] ∧ (∀ c ∈ token, isBare c) ∧
      (∀ c ∈ tail.head?, ¬isBare c) ∧ EndsItem tail rest := by
  unfold bare? at h
  split at h
  · cases h
  · next hne =>
    obtain ⟨rest', hs, heq⟩ := Option.map_eq_some_iff.1 h
    cases heq
    refine ⟨cs.dropWhile isBare, List.takeWhile_append_dropWhile.symm, hne,
      fun c => List.mem_takeWhile_imp, not_head?_dropWhile, separator?_eq_some.1 hs⟩

theorem IsToken.exists_cons (h : IsToken token tail) :
    ∃ c run, token = c :: run ∧ ¬isSpace c := by
  cases h with
  | quoted => exact ⟨_, _, rfl, by decide⟩
  | bare _ hb _ => exact ⟨_, _, rfl, (hb _ List.mem_cons_self).1⟩

/-- An item is read exactly where there is one. -/
theorem item?_eq_some : item? cs = some (token, rest) ↔ IsItem cs token rest := by
  constructor
  · intro h
    obtain ⟨space, hspace, hcs⟩ := exists_append_skipSpace cs
    unfold item? at h
    split at h
    · cases h
    · next c cs' hs =>
      rw [hs] at hcs
      split at h
      · next hc =>
        obtain ⟨⟨run, rest'⟩, hq, heq⟩ := Option.map_eq_some_iff.1 h
        cases heq
        obtain ⟨body, tail, rfl, rfl, he, hf⟩ := exists_of_quoted? hq
        rw [← hcs, hc]
        simpa using IsItem.mk hspace (.quoted ⟨_, he⟩ hf) he
      · next hc =>
        obtain ⟨tail, htail, hne, hb, hs', he⟩ := exists_of_bare? h
        rw [← hcs, htail]
        obtain ⟨d, run, rfl⟩ := List.exists_cons_of_ne_nil hne
        have hd : d ≠ '"' := (List.cons.inj htail).1 ▸ hc
        exact .mk hspace (.bare hd (fun c hc => isBare_iff.1 (hb c hc))
          fun c hc => not_isBare_iff.1 (hs' c hc)) he
  · rintro ⟨hspace, ht, he⟩
    next space tail =>
    obtain ⟨c, run, hc, hns⟩ := ht.exists_cons
    rw [item?, skipSpace_append hspace (by simpa [hc] using hns)]
    cases ht with
    | quoted hend hf =>
      simp [quoted?_append he hf]
    | bare hne hb hs =>
      simp only [List.cons_append, hne, if_false]
      exact bare?_append (List.cons_ne_nil _ _) (fun d hd => isBare_iff.2 (hb d hd))
        (fun d hd => not_isBare_iff.2 (hs d hd)) he

theorem EndsItem.length_le (h : EndsItem cs rest) : rest.length ≤ cs.length := by
  cases h with
  | comma => simp; omega
  | finish => simp

/-- An item takes at least one character. -/
theorem IsItem.length_lt (h : IsItem cs token rest) : rest.length < cs.length := by
  obtain ⟨hspace, ht, he⟩ := h
  obtain ⟨c, run, rfl, -⟩ := ht.exists_cons
  have := he.length_le
  simp only [List.length_append, List.length_cons]
  omega

theorem IsItem.unique {token' rest' : List Char} (h : IsItem cs token rest)
    (h' : IsItem cs token' rest') : token = token' ∧ rest = rest' := by
  have := (item?_eq_some.2 h).symm.trans (item?_eq_some.2 h')
  simpa using this

/-! ## Chains of items -/

variable {tokens tokens' : List (List Char)} {last last' : List Char}

/-- A chain after which no item follows reaches at least as far as any other. -/
theorem Chain.isPrefix (h : Chain cs tokens last) (h' : Chain cs tokens' last')
    (hlast' : ∀ token rest, ¬IsItem last' token rest) : tokens <+: tokens' := by
  induction h generalizing tokens' with
  | nil => exact List.nil_prefix
  | cons hi _ ih =>
    cases h' with
    | nil => exact absurd hi (hlast' _ _)
    | cons hi' h' =>
      obtain ⟨rfl, rfl⟩ := hi.unique hi'
      exact (List.prefix_cons_inj _).2 (ih h')

/-- Items cannot follow each other forever. -/
theorem exists_chain (cs : List Char) :
    ∃ tokens last, Chain cs tokens last ∧ ∀ token rest, ¬IsItem last token rest := by
  -- By induction on the length, as the text after an item is shorter.
  induction hn : cs.length using Nat.strongRecOn generalizing cs with
  | ind n ih =>
    by_cases hi : ∃ token rest, IsItem cs token rest
    · obtain ⟨token, rest, hi⟩ := hi
      obtain ⟨tokens, last, hc, hlast⟩ := ih rest.length (hn ▸ hi.length_lt) rest rfl
      exact ⟨token :: tokens, last, .cons hi hc, hlast⟩
    · exact ⟨[], cs, .nil, fun token rest h => hi ⟨token, rest, h⟩⟩

/-- A chain is longest if no item follows it. -/
theorem longestChain_iff : LongestChain cs tokens ↔
    ∃ last, Chain cs tokens last ∧ ∀ token rest, ¬IsItem last token rest := by
  constructor
  · rintro ⟨⟨last, h⟩, hlongest⟩
    -- The chain is the start of one after which no item follows, and no shorter.
    obtain ⟨tokens', last', h', hlast'⟩ := exists_chain cs
    have : tokens = tokens' := (h.isPrefix h' hlast').eq_of_length_le (hlongest _ _ h')
    exact ⟨last', this ▸ h', hlast'⟩
  · rintro ⟨last, h, hlast⟩
    exact ⟨⟨last, h⟩, fun tokens' last' h' => (h'.isPrefix h hlast).length_le⟩

/-- The tokens that are read are those of the chain after which no item follows. -/
theorem Chain.items_eq (h : Chain cs tokens last) (hlast : ∀ token rest, ¬IsItem last token rest)
    (limit : Nat) : items limit cs = tokens.take limit := by
  induction h generalizing limit with
  | nil =>
    cases limit with
    | zero => rfl
    | succ limit =>
      have hn : item? _ = none :=
        Option.eq_none_iff_forall_ne_some.2 fun _ hi => hlast _ _ (item?_eq_some.1 hi)
      simp [items, hn]
  | cons hi _ ih =>
    cases limit with
    | zero => rfl
    | succ limit => simp [items, item?_eq_some.2 hi, ih hlast]

/-- Every text has a longest chain, and its tokens are read. -/
theorem exists_longestChain (cs : List Char) :
    ∃ tokens, LongestChain cs tokens ∧ ∀ limit, items limit cs = tokens.take limit := by
  obtain ⟨tokens, last, h, hlast⟩ := exists_chain cs
  exact ⟨tokens, longestChain_iff.2 ⟨last, h, hlast⟩, h.items_eq hlast⟩

theorem LongestChain.items_eq (h : LongestChain cs tokens) (limit : Nat) :
    items limit cs = tokens.take limit := by
  obtain ⟨last, hc, hlast⟩ := longestChain_iff.1 h
  exact hc.items_eq hlast limit

/-! ## Lines -/

/-- The keyword of a line and the tokens after it. -/
theorem parse?_eq (text : String) :
    let cs := skipSpace text.toList
    parse? text =
      if cs.takeWhile Char.isAlpha = [] then none
      else some {
        keyword := String.ofList (cs.takeWhile Char.isAlpha)
        tokens := (items maxTokens (cs.dropWhile Char.isAlpha)).map String.ofList } := by
  intro cs
  rw [parse?]
  split
  · next hk => rw [if_pos hk]
  · next hk => rw [if_neg hk]

/-- A line has no keyword if its first character that is no white space, if there
    is one, is no letter. -/
theorem parse?_eq_none {text : String} : parse? text = none ↔
    ∀ c ∈ text.toList.find? (!isSpace ·), ¬c.isAlpha := by
  rw [List.find?_not_eq_head?_dropWhile, ← takeWhile_eq_nil, parse?_eq, ← skipSpace]
  simp only [ite_eq_left_iff, reduceCtorEq, imp_false, not_not]

theorem parse?_eq_some {text : String} {line : Line} : parse? text = some line ↔
    ∃ space keyword rest tokens, text.toList = space ++ (keyword ++ rest) ∧
      (∀ c ∈ space, isSpace c) ∧ keyword ≠ [] ∧ (∀ c ∈ keyword, c.isAlpha) ∧
      (∀ c ∈ rest.head?, ¬c.isAlpha) ∧ LongestChain rest tokens ∧
      line = ⟨String.ofList keyword, (tokens.take 9).map String.ofList⟩ := by
  rw [parse?_eq]
  constructor
  · intro h
    split at h
    · cases h
    · next hne =>
      cases h
      obtain ⟨space, hspace, hcs⟩ := exists_append_skipSpace text.toList
      obtain ⟨tokens, hl, hi⟩ :=
        exists_longestChain ((skipSpace text.toList).dropWhile Char.isAlpha)
      refine ⟨space, _, _, tokens, ?_, hspace, hne, fun c => List.mem_takeWhile_imp,
        not_head?_dropWhile, hl, by rw [hi]; rfl⟩
      rw [List.takeWhile_append_dropWhile, hcs]
  · rintro ⟨space, keyword, rest, tokens, ht, hspace, hne, hk, hrest, hl, rfl⟩
    have hhead : ∀ c ∈ (keyword ++ rest).head?, ¬isSpace c := by
      obtain ⟨c, run, rfl⟩ := List.exists_cons_of_ne_nil hne
      simpa using not_isSpace_of_isAlphanum (c := c) (by simp [Char.isAlphanum, hk c])
    have hskip : skipSpace text.toList = keyword ++ rest := ht ▸ skipSpace_append hspace hhead
    obtain ⟨htake, hdrop⟩ := span_append hk hrest
    simp only [hskip, htake, hdrop, if_neg hne, hl.items_eq, maxTokens]

/-- Texts are read by their grammar.

    The tokens of a text are those of its longest chain of items, as many as are
    wanted. This chain is the one that ends where no item follows: a broken item
    ends the list, and the tokens before it stand. A text is no line if its first
    character that is no white space is missing or no letter; otherwise its
    keyword is the longest run of letters there, and its tokens are the first nine
    of the longest chain right after it. -/
theorem reads_longest_chain (text : String) :
    (∀ limit out, split limit text = out ↔
      ∃ tokens, LongestChain text.toList tokens ∧ out = (tokens.take limit).map String.ofList) ∧
    (∀ cs tokens, LongestChain cs tokens ↔
      ∃ last, Chain cs tokens last ∧ ∀ token rest, ¬IsItem last token rest) ∧
    (parse? text = none ↔ ∀ c ∈ text.toList.find? (!isSpace ·), ¬c.isAlpha) ∧
    ∀ line, parse? text = some line ↔
      ∃ space keyword rest tokens, text.toList = space ++ (keyword ++ rest) ∧
        (∀ c ∈ space, isSpace c) ∧ keyword ≠ [] ∧ (∀ c ∈ keyword, c.isAlpha) ∧
        (∀ c ∈ rest.head?, ¬c.isAlpha) ∧ LongestChain rest tokens ∧
        line = ⟨String.ofList keyword, (tokens.take 9).map String.ofList⟩ := by
  refine ⟨fun limit out => ⟨?_, ?_⟩, fun cs tokens => longestChain_iff, parse?_eq_none,
    fun line => parse?_eq_some⟩
  · rintro rfl
    obtain ⟨tokens, hl, hi⟩ := exists_longestChain text.toList
    exact ⟨tokens, hl, congrArg _ (hi limit)⟩
  · rintro ⟨tokens, hl, rfl⟩
    rw [split, hl.items_eq]

example : split 10 " \"a \"b\" c\" ,d\"e ,, f" = ["\"a \"b\" c\"", "d\"e"] := by
  decide +kernel

end SimpleBatch.Line
