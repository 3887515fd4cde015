import SimpleBatch.Value
import SimpleBatch.Proofs.Grammar

/-!
# Tokens of values

An integer is written in decimal and a text between quotes (`Value.token`). Read
as a token, each of them gives the value back, with its kind:

* `Value.ofToken_integer`: the decimal of an integer denotes that integer;
* `Value.ofToken_text`: a text between quotes denotes that text, even if it looks
  like a number or like a truth value.

In a line such a token is read whole (`Line.isToken_integer`,
`Line.isToken_quoted`), as long as no quote of a text looks like the end of its
item (`Line.Enclosable`).
-/

namespace SimpleBatch

/-! ## Reading tokens -/

open Text

namespace Decimal

theorem readSign_of_isDigit {cs : List Char} (h : ∀ c ∈ cs.head?, c.isDigit) :
    readSign cs = (false, cs) := by
  unfold readSign
  split
  · exact absurd (h '-' rfl) (by decide)
  · exact absurd (h '+' rfl) (by decide)
  · rfl

theorem readInteger?_decimalInt (n : Int) : readInteger? (decimalInt n) = some n := by
  have hne : (decimal n.natAbs).isEmpty = false := by
    simpa using decimal_ne_nil n.natAbs
  have hall : (decimal n.natAbs).all Char.isDigit :=
    List.all_eq_true.2 fun _ => isDigit_of_mem_decimal
  have hvalue : numeralValue 10 (decimal n.natAbs) = n.natAbs :=
    numeralValue_numeral (by decide) (by decide) n.natAbs
  unfold decimalInt
  split
  · have hn : -(n.natAbs : Int) = n := by omega
    simp only [readInteger?, readSign, hne, hall, hvalue, signed, Bool.not_true, Bool.or_self,
      Bool.false_eq_true, if_false, if_true, hn]
  · have hsign := readSign_of_isDigit fun c hc =>
      isDigit_of_mem_decimal (n := n.natAbs) (List.mem_of_mem_head? hc)
    have hn : (n.natAbs : Int) = n := by omega
    simp only [readInteger?, hsign, hne, hall, hvalue, signed, Bool.not_true, Bool.or_self,
      Bool.false_eq_true, if_false, hn]

end Decimal

namespace Value

/-- A value as a token: an integer in decimal, and a text between quotes. -/
def token : Value → List Char
  | text s => '"' :: s.toList ++ ['"']
  | v => v.render.toList

theorem token_integer (n : Int32) : token (.integer n) = decimalInt n.toInt :=
  String.toList_ofList

theorem readInteger?_ofInt (n : Int32) : readInteger? (ofInt n.toInt) = some n := by
  have htrim : trim (decimalInt n.toInt) = decimalInt n.toInt :=
    trim_eq_self (fun c hc => (plain_of_mem_decimalInt (List.mem_of_mem_head? hc)).1)
      fun c hc => (plain_of_mem_decimalInt (List.mem_of_mem_getLast? hc)).1
  rw [readInteger?, ofInt, String.toList_ofList, htrim, Decimal.readInteger?_decimalInt]
  dsimp only
  rw [if_pos ⟨n.minValue_le_toInt, n.toInt_le⟩, Int32.ofInt_toInt]

/-- The decimal of an integer denotes that integer. -/
theorem ofToken_integer (n : Int32) :
    ofToken (String.ofList (token (.integer n))) = .integer n := by
  have hne : ofInt n.toInt ≠ "" := by
    simpa [ofInt] using decimalInt_ne_nil n.toInt
  have hread : readNumber? (ofInt n.toInt) = some (.integer n) := by
    rw [readNumber?, readInteger?_ofInt]
    rfl
  simp only [token, render, String.ofList_toList, ofToken, if_neg hne, hread]

theorem unquote_token (s : String) : unquote (String.ofList (token (.text s))) = s := by
  simp [unquote, token]

theorem readNumber?_of_quote {cs : List Char} :
    readNumber? (String.ofList ('"' :: cs ++ ['"'])) = none := by
  have hquote : ¬isSpace '"' := by decide
  have htrim : trim ('"' :: cs ++ ['"']) = '"' :: cs ++ ['"'] := by
    refine trim_eq_self (by simpa using hquote) ?_
    rw [List.getLast?_append]
    simpa using hquote
  have hint : Decimal.readInteger? ('"' :: cs ++ ['"']) = none := by
    simp [Decimal.readInteger?, Decimal.readSign]
  have hdec : Decimal.read? ('"' :: cs ++ ['"']) = none := by
    simp [Decimal.read?, Decimal.readSign, Decimal.readFraction]
  rw [readNumber?, readInteger?, readSingle?, String.toList_ofList, htrim, hint, hdec]
  rfl

theorem isWord_of_quote {word : String} {cs : List Char} (h : word.toList.head? ≠ some '"') :
    isWord word (String.ofList ('"' :: cs)) = false := by
  refine beq_eq_false_iff_ne.2 fun hw => h ?_
  rw [← hw]
  simp

/-- A text between quotes denotes that text, whatever it looks like. -/
theorem ofToken_text (s : String) : ofToken (String.ofList (token (.text s))) = .text s := by
  have hne : String.ofList (token (.text s)) ≠ "" := by simp [token]
  have hread : readNumber? (String.ofList (token (.text s))) = none := readNumber?_of_quote
  have htrue : isWord "true" (String.ofList (token (.text s))) = false :=
    isWord_of_quote (by decide)
  have hfalse : isWord "false" (String.ofList (token (.text s))) = false :=
    isWord_of_quote (by decide)
  rw [ofToken, if_neg hne, hread]
  simp only [htrue, hfalse, ofQuoted, unquote_token, Bool.false_eq_true, if_false]

end Value

/-! ## Tokens in lines -/

namespace Line

variable {body tail rest : List Char}

/-- A text can stand between quotes: no quote in it is followed by white space and
    a comma. -/
def Enclosable (cs : List Char) : Prop :=
  ∀ before space after, (∀ c ∈ space, isSpace c) → cs ≠ before ++ '"' :: (space ++ ',' :: after)

theorem EndsItem.nil : EndsItem [] [] :=
  .finish (List.forall_mem_nil _)

theorem EndsItem.head? (h : EndsItem tail rest) : ∀ c ∈ tail.head?, isSpace c ∨ c = ',' := by
  intro c hc
  cases h with
  | @comma space _ hs =>
    cases space with
    | nil => exact .inr (by simpa using hc.symm)
    | cons d space => exact .inl (hs c (by simp_all))
  | finish hs => exact .inl (hs c (List.mem_of_mem_head? hc))

/-- Before a quote an item ends only at a comma. -/
theorem EndsItem.exists_comma {cs : List Char} (h : EndsItem (cs ++ '"' :: tail) rest) :
    ∃ space after, (∀ c ∈ space, isSpace c) ∧ cs = space ++ ',' :: after := by
  have hquote : ∀ {space : List Char}, (∀ c ∈ space, isSpace c) → '"' ∉ space :=
    fun hs hm => absurd (hs _ hm) (by decide)
  generalize hx : cs ++ '"' :: tail = x at h
  cases h with
  | @comma space _ hs =>
    rcases List.append_eq_append_iff.1 hx with ⟨as, rfl, ht⟩ | ⟨bs, rfl, ht⟩
    · -- The white space would reach over the quote.
      cases as with
      | nil => simp at ht
      | cons d as =>
        obtain ⟨rfl, -⟩ := List.cons.inj ht
        exact absurd (by simp) (hquote hs)
    · cases bs with
      | nil => simp at ht
      | cons d bs =>
        obtain ⟨rfl, -⟩ := List.cons.inj ht
        exact ⟨space, bs, hs, rfl⟩
  | finish hs => exact absurd (by simp [← hx]) (hquote hs)

theorem Enclosable.staysOpen (h : Enclosable body) : StaysOpen body tail := by
  intro before after hb rest he
  obtain ⟨space, after', hs, rfl⟩ := he.exists_comma
  exact h before space after' hs hb

/-- A text can stand between quotes if it is read back from there. -/
theorem enclosable_iff : Enclosable body ↔ quoted? (body ++ ['"']) = some (body ++ ['"'], []) := by
  constructor
  · intro h
    exact quoted?_append .nil h.staysOpen
  · rintro h before space after hs rfl
    obtain ⟨body, tail, hcs, hrun, -, hf⟩ := exists_of_quoted? h
    obtain ⟨rfl, -⟩ := List.append_inj' hrun rfl
    obtain rfl : tail = [] := by simpa using hcs
    have he : EndsItem (space ++ ',' :: (after ++ ['"'])) (after ++ ['"']) := .comma hs
    exact hf before _ rfl _ (by simpa using he)

instance : DecidablePred Enclosable :=
  fun _ => decidable_of_iff _ enclosable_iff.symm

/-- A text between quotes is a token as a whole. -/
theorem isToken_quoted (h : Enclosable body) (he : EndsItem tail rest) :
    IsToken ('"' :: body ++ ['"']) tail :=
  .quoted ⟨rest, he⟩ h.staysOpen

theorem isToken_integer (n : Int32) (he : EndsItem tail rest) :
    IsToken (Value.token (.integer n)) tail := by
  obtain ⟨c, run, hcons⟩ := List.exists_cons_of_ne_nil (decimalInt_ne_nil n.toInt)
  have hplain : ∀ d ∈ c :: run, ¬isSpace d ∧ d ≠ ',' ∧ d ≠ '"' ∧ d ≠ '\\' ∧ d ≠ '#' :=
    fun d hd => plain_of_mem_decimalInt (hcons ▸ hd)
  rw [Value.token_integer, hcons]
  exact .bare (hplain c List.mem_cons_self).2.2.1 (fun d hd => (hplain d hd).imp_right And.left)
    he.head?

end Line

end SimpleBatch
