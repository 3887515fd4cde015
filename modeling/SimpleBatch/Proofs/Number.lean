import Mathlib.Tactic.FieldSimp
import SimpleBatch.Operator.Conversion
import SimpleBatch.Proofs.Rounding
import SimpleBatch.Proofs.Token

/-!
# The grammar of numbers

Numerals are given here by rules, with the number that each of them denotes:

* `Decimal.IsInteger`: an optional sign and one or more digits;
* `Decimal.IsDecimal`: an optional sign, digits with an optional point
  (`Decimal.IsPlain`), and an optional exponent (`Decimal.IsExponent`). The sign is kept
  apart from the number, since a zero has one as well.

The readers accept what the rules give and nothing else, and come to the number that it
denotes (`Decimal.readInteger?_eq_some`, `Decimal.isDecimal_of_read?`,
`Decimal.IsDecimal.read?_eq`). A decimal is then rounded: `Decimal.toBinary_eq` says that
the decimals that are settled by their number of digits are no exception.
-/

namespace SimpleBatch

open Text

/-! ## Numerals -/

namespace Decimal

/-- A sign, and whether it is a minus sign. It may be left out. -/
inductive IsSign : List Char → Bool → Prop
  | none : IsSign [] false
  | plus : IsSign ['+'] false
  | minus : IsSign ['-'] true

/-- An integer: an optional sign and one or more digits. -/
inductive IsInteger : List Char → Int → Prop
  | mk {sign digits : List Char} {negative : Bool} : IsSign sign negative → digits ≠ [] →
    (∀ c ∈ digits, c.isDigit) →
    IsInteger (sign ++ digits) (signed negative (Nat.ofDigitChars 10 digits 0))

/-- Digits, of which some may stand after a point, but at least one on a side of it. -/
inductive IsPlain : List Char → Rat → Prop
  | whole {digits : List Char} : digits ≠ [] → (∀ c ∈ digits, c.isDigit) →
    IsPlain digits (Nat.ofDigitChars 10 digits 0)
  | point {digits fraction : List Char} : digits ≠ [] ∨ fraction ≠ [] →
    (∀ c ∈ digits, c.isDigit) → (∀ c ∈ fraction, c.isDigit) →
    IsPlain (digits ++ '.' :: fraction)
      (Nat.ofDigitChars 10 digits 0 + Nat.ofDigitChars 10 fraction 0 / 10 ^ fraction.length)

/-- The exponent of a decimal, which may be left out. -/
inductive IsExponent : List Char → Int → Prop
  | none : IsExponent [] 0
  | letter {c : Char} {cs : List Char} {n : Int} : c = 'e' ∨ c = 'E' → IsInteger cs n →
    IsExponent (c :: cs) n

/-- A decimal: an optional sign, digits with an optional point, and an optional
    exponent. It is told by its sign and its absolute value. -/
inductive IsDecimal : List Char → Bool → Rat → Prop
  | mk {sign plain exponent : List Char} {negative : Bool} {q : Rat} {n : Int} :
    IsSign sign negative → IsPlain plain q → IsExponent exponent n →
    IsDecimal (sign ++ (plain ++ exponent)) negative (q * 10 ^ n)

/-! ## Reading numerals -/

variable {cs : List Char} {n : Int} {negative : Bool} {q : Rat}

theorem numeralValue_eq {digits : List Char} (h : ∀ c ∈ digits, c.isDigit) :
    numeralValue 10 digits = Nat.ofDigitChars 10 digits 0 := by
  induction digits using List.reverseRecOn with
  | nil => rfl
  | append_singleton digits c ih =>
    have hc : c.isDigit := h c (by simp)
    have hdigit : (hexDigit? c).getD 0 = c.toNat - '0'.toNat := by
      simpa [numeralValue] using numeralValue_digit hc
    rw [numeralValue_concat, ih fun d hd => h d (List.mem_append_left _ hd), hdigit,
      Nat.ofDigitChars_append, Nat.ofDigitChars_cons, Nat.ofDigitChars_nil]

theorem ofDigitChars_append (digits fraction : List Char) :
    Nat.ofDigitChars 10 (digits ++ fraction) 0 =
      Nat.ofDigitChars 10 digits 0 * 10 ^ fraction.length + Nat.ofDigitChars 10 fraction 0 := by
  rw [Nat.ofDigitChars_append, Nat.ofDigitChars_eq_ofDigitChars_zero, mul_comm]

/-- Every text is an optional sign and a rest. -/
theorem exists_isSign (cs : List Char) :
    ∃ sign negative rest, IsSign sign negative ∧ cs = sign ++ rest ∧
      readSign cs = (negative, rest) := by
  unfold readSign
  split
  · exact ⟨_, _, _, .minus, rfl, rfl⟩
  · exact ⟨_, _, _, .plus, rfl, rfl⟩
  · exact ⟨_, _, _, .none, rfl, rfl⟩

theorem IsSign.readSign_append {sign : List Char} (h : IsSign sign negative)
    (hminus : cs.head? ≠ some '-') (hplus : cs.head? ≠ some '+') :
    readSign (sign ++ cs) = (negative, cs) := by
  cases h with
  | none =>
    rw [List.nil_append]
    unfold readSign
    split
    · exact absurd rfl hminus
    · exact absurd rfl hplus
    · rfl
  | plus => rfl
  | minus => rfl

/-- Before digits, a point or a letter there is no further sign. -/
theorem IsSign.readSign_append_cons {sign : List Char} {c : Char} (h : IsSign sign negative)
    (hc : c ≠ '-' ∧ c ≠ '+') (cs : List Char) : readSign (sign ++ c :: cs) = (negative, c :: cs) :=
  h.readSign_append (by simpa using hc.1) (by simpa using hc.2)

theorem ne_sign_of_isDigit {c : Char} (h : c.isDigit) : c ≠ '-' ∧ c ≠ '+' := by
  constructor <;> rintro rfl <;> exact absurd h (by decide)

theorem readInteger?_of_readSign {digits : List Char} (h : readSign cs = (negative, digits)) :
    readInteger? cs =
      if digits = [] ∨ digits.all Char.isDigit = false then none
      else some (signed negative (numeralValue 10 digits)) := by
  simp [readInteger?, h]

/-- A text is read as an integer exactly if it is one. -/
theorem readInteger?_eq_some : readInteger? cs = some n ↔ IsInteger cs n := by
  constructor
  · intro h
    obtain ⟨sign, negative, digits, hsign, hcs, hread⟩ := exists_isSign cs
    rw [readInteger?_of_readSign hread] at h
    split at h
    · cases h
    · next hdigits =>
      obtain ⟨hne, hall⟩ := not_or.1 hdigits
      have hall : ∀ c ∈ digits, c.isDigit := by simpa using hall
      cases h
      rw [numeralValue_eq hall, hcs]
      exact .mk hsign hne hall
  · rintro ⟨hsign, hne, hdigits⟩
    next sign digits negative =>
    obtain ⟨c, run, rfl⟩ := List.exists_cons_of_ne_nil hne
    have hread := hsign.readSign_append_cons (ne_sign_of_isDigit (hdigits c List.mem_cons_self)) run
    rw [readInteger?_of_readSign hread, if_neg (by simpa using hdigits), numeralValue_eq hdigits]

theorem readExponent?_eq_some : readExponent? cs = some n ↔ IsExponent cs n := by
  constructor
  · intro h
    cases cs with
    | nil => cases h; exact .none
    | cons c cs =>
      rw [readExponent?] at h
      split at h
      · next hc => exact .letter hc (readInteger?_eq_some.1 h)
      · cases h
  · intro h
    cases h with
    | none => rfl
    | letter hc hn =>
      rw [readExponent?, if_pos hc]
      exact readInteger?_eq_some.2 hn

/-- No digit and no point starts an exponent. -/
theorem IsExponent.head? (h : IsExponent cs n) : ∀ c ∈ cs.head?, ¬c.isDigit ∧ c ≠ '.' := by
  intro c hc
  cases h with
  | none => cases hc
  | letter he =>
    obtain rfl := Option.some.inj hc
    rcases he with rfl | rfl <;> decide

theorem readFraction_of_ne (h : cs.head? ≠ some '.') : readFraction cs = ([], cs) := by
  unfold readFraction
  split
  · exact absurd rfl h
  · rfl

/-- The number of a decimal, by the digits before and after its point. -/
theorem value_mk (digits fraction : List Char) (n : Int) :
    (Decimal.mk (Nat.ofDigitChars 10 (digits ++ fraction) 0) (n - fraction.length)).value =
      (Nat.ofDigitChars 10 digits 0 + Nat.ofDigitChars 10 fraction 0 / 10 ^ fraction.length) *
        10 ^ n := by
  have hten : (10 : Rat) ≠ 0 := by norm_num
  rw [value, ofDigitChars_append, zpow_sub₀ hten, zpow_natCast]
  push_cast
  field_simp

theorem read?_of_readSign {rest fraction tail : List Char} (hread : readSign cs = (negative, rest))
    (hfraction : readFraction (rest.dropWhile Char.isDigit) = (fraction, tail)) :
    read? cs =
      if rest.takeWhile Char.isDigit = [] ∧ fraction = [] then none
      else (readExponent? tail).map fun e =>
        (negative, ⟨numeralValue 10 (rest.takeWhile Char.isDigit ++ fraction),
          e - fraction.length⟩) := by
  simp [read?, hread, hfraction]

/-- The digits at the start of a text, with those after a point, and what follows. -/
theorem exists_isPlain {rest fraction tail : List Char}
    (hfraction : readFraction (rest.dropWhile Char.isDigit) = (fraction, tail))
    (hne : ¬(rest.takeWhile Char.isDigit = [] ∧ fraction = [])) :
    (∀ c ∈ fraction, c.isDigit) ∧ ∃ plain, rest = plain ++ tail ∧
      IsPlain plain (Nat.ofDigitChars 10 (rest.takeWhile Char.isDigit) 0 +
        Nat.ofDigitChars 10 fraction 0 / 10 ^ fraction.length) := by
  have hdigits : ∀ c ∈ rest.takeWhile Char.isDigit, c.isDigit := fun c => List.mem_takeWhile_imp
  have hrest : rest.takeWhile Char.isDigit ++ rest.dropWhile Char.isDigit = rest :=
    List.takeWhile_append_dropWhile
  unfold readFraction at hfraction
  split at hfraction
  · next cs hcs =>
    cases hfraction
    have hall : ∀ c ∈ cs.takeWhile Char.isDigit, c.isDigit := fun c => List.mem_takeWhile_imp
    refine ⟨hall, _, ?_, .point (not_and_or.1 hne) hdigits hall⟩
    rw [hcs] at hrest
    simpa using hrest.symm
  · cases hfraction
    refine ⟨List.forall_mem_nil _, _, hrest.symm, ?_⟩
    have hne : rest.takeWhile Char.isDigit ≠ [] := fun h => hne ⟨h, rfl⟩
    simpa using IsPlain.whole hne hdigits

/-- What is read as a decimal is one, with the number that is read. -/
theorem isDecimal_of_read? {d : Decimal} (h : read? cs = some (negative, d)) :
    IsDecimal cs negative d.value := by
  obtain ⟨sign, negative', rest, hsign, rfl, hread⟩ := exists_isSign cs
  obtain ⟨⟨fraction, tail⟩, hfraction⟩ :
      ∃ r, readFraction (rest.dropWhile Char.isDigit) = r := ⟨_, rfl⟩
  rw [read?_of_readSign hread hfraction] at h
  split at h
  · cases h
  · next hne =>
    obtain ⟨e, he, heq⟩ := Option.map_eq_some_iff.1 h
    cases heq
    obtain ⟨hall, plain, rfl, hplain⟩ := exists_isPlain hfraction hne
    have hdigits : ∀ c ∈ (plain ++ tail).takeWhile Char.isDigit ++ fraction, c.isDigit :=
      List.forall_mem_append.2 ⟨fun c => List.mem_takeWhile_imp, hall⟩
    rw [numeralValue_eq hdigits, value_mk]
    exact .mk hsign hplain (readExponent?_eq_some.1 he)

theorem IsPlain.exists_cons {plain : List Char} (h : IsPlain plain q) :
    ∃ c run, plain = c :: run ∧ c ≠ '-' ∧ c ≠ '+' := by
  cases h with
  | whole hne hdigits =>
    obtain ⟨c, run, rfl⟩ := List.exists_cons_of_ne_nil hne
    exact ⟨c, run, rfl, ne_sign_of_isDigit (hdigits c List.mem_cons_self)⟩
  | @point digits fraction _ hdigits =>
    cases digits with
    | nil => exact ⟨'.', fraction, rfl, by decide⟩
    | cons c run => exact ⟨c, _, rfl, ne_sign_of_isDigit (hdigits c List.mem_cons_self)⟩

/-- A decimal is read as its number. -/
theorem IsDecimal.read?_eq (h : IsDecimal cs negative q) :
    ∃ d : Decimal, read? cs = some (negative, d) ∧ d.value = q := by
  obtain ⟨hsign, hplain, hexponent⟩ := h
  next sign plain exponent q n =>
  obtain ⟨c, run, hcons, hc⟩ := hplain.exists_cons
  have hread : readSign (sign ++ (plain ++ exponent)) = (negative, plain ++ exponent) := by
    rw [hcons]
    exact hsign.readSign_append_cons hc _
  have hdigit : ∀ c ∈ exponent.head?, ¬c.isDigit := fun c hc => (hexponent.head? c hc).1
  cases hplain with
  | whole hne hdigits =>
    obtain ⟨htake, hdrop⟩ := span_append hdigits hdigit
    have hfraction :
        readFraction ((plain ++ exponent).dropWhile Char.isDigit) = ([], exponent) := by
      rw [hdrop]
      exact readFraction_of_ne fun hc => (hexponent.head? '.' hc).2 rfl
    rw [read?_of_readSign hread hfraction, htake, if_neg fun h => hne h.1,
      readExponent?_eq_some.2 hexponent]
    refine ⟨_, rfl, ?_⟩
    rw [List.append_nil, numeralValue_eq hdigits]
    simp [value]
  | @point digits fraction hne hdigits hall =>
    have hpoint : ∀ c ∈ ('.' :: (fraction ++ exponent)).head?, ¬c.isDigit := by
      intro c hc
      obtain rfl := Option.some.inj hc
      decide
    obtain ⟨htake, hdrop⟩ := span_append hdigits hpoint
    obtain ⟨htake', hdrop'⟩ := span_append hall hdigit
    rw [List.append_assoc, List.cons_append] at hread ⊢
    have hfraction :
        readFraction ((digits ++ '.' :: (fraction ++ exponent)).dropWhile Char.isDigit) =
          (fraction, exponent) := by
      rw [hdrop, readFraction, htake', hdrop']
    rw [read?_of_readSign hread hfraction, htake, if_neg (not_and_or.2 hne),
      readExponent?_eq_some.2 hexponent]
    refine ⟨_, rfl, ?_⟩
    rw [numeralValue_eq (List.forall_mem_append.2 ⟨hdigits, hall⟩)]
    exact value_mk digits fraction n

theorem IsDecimal.unique {q' : Rat} {negative' : Bool} (h : IsDecimal cs negative q)
    (h' : IsDecimal cs negative' q') : negative = negative' ∧ q = q' := by
  obtain ⟨d, hd, rfl⟩ := h.read?_eq
  obtain ⟨d', hd', rfl⟩ := h'.read?_eq
  obtain ⟨rfl, rfl⟩ : negative = negative' ∧ d = d' := by simpa using hd.symm.trans hd'
  exact ⟨rfl, rfl⟩

/-! ## The nearest number -/

theorem value_nonneg (d : Decimal) : 0 ≤ d.value :=
  mul_nonneg (Nat.cast_nonneg _) (zpow_nonneg (by norm_num) _)

theorem length_decimal (n : Nat) : (decimal n).length = (Nat.toDigits 10 n).length :=
  List.length_map _

/-- A decimal lies between two powers of ten, by its number of digits. -/
theorem value_bounds {d : Decimal} (hd : d.coefficient ≠ 0) :
    let size : Int := (decimal d.coefficient).length + d.exponent
    (10 : Rat) ^ (size - 1) ≤ d.value ∧ d.value < 10 ^ size := by
  intro size
  have hten : (0 : Rat) < 10 := by norm_num
  have hpos : 0 < (decimal d.coefficient).length := List.length_pos_of_ne_nil (decimal_ne_nil _)
  have hdigits {k : Nat} (hk : 0 < k) :
      (decimal d.coefficient).length ≤ k ↔ d.coefficient < 10 ^ k := by
    rw [length_decimal]
    exact Nat.length_toDigits_le_iff (by norm_num) hk
  obtain ⟨k, hk⟩ := Nat.exists_eq_add_of_lt hpos
  rw [zero_add] at hk
  have hupper : d.coefficient < 10 ^ (k + 1) := hk ▸ (hdigits hpos).1 le_rfl
  have hlower : 10 ^ k ≤ d.coefficient := by
    rcases Nat.eq_zero_or_pos k with rfl | hk0
    · exact Nat.pos_of_ne_zero hd
    · exact not_lt.1 fun h => absurd ((hdigits hk0).2 h) (by omega)
  have hsize : size = k + 1 + d.exponent := by
    simp only [size, hk]
    push_cast
    ring
  constructor
  · calc (10 : Rat) ^ (size - 1) = (10 ^ k : Nat) * 10 ^ d.exponent := by
          rw [hsize, add_right_comm, add_sub_cancel_right, zpow_add₀ hten.ne', zpow_natCast]
          norm_cast
      _ ≤ d.value := mul_le_mul_of_nonneg_right (by exact_mod_cast hlower) (zpow_nonneg hten.le _)
  · calc d.value < (10 ^ (k + 1) : Nat) * 10 ^ d.exponent :=
          mul_lt_mul_of_pos_right (by exact_mod_cast hupper) (zpow_pos hten _)
      _ = 10 ^ size := by
          rw [hsize, zpow_add₀ hten.ne']
          norm_cast

variable {f : Format}

theorem ten_zpow_le_two_zpow {e : Int} (he : e ≤ 0) : (10 : Rat) ^ e ≤ 2 ^ e := by
  obtain ⟨k, rfl⟩ : ∃ k : Nat, e = -k := ⟨e.natAbs, by omega⟩
  rw [zpow_neg, zpow_neg, zpow_natCast, zpow_natCast]
  gcongr
  norm_num

/-- A decimal denotes the number of a format that is nearest to it, also where its
    number of digits settles this. -/
theorem toBinary_eq (hf : 0 < f.exponentBits) (negative : Bool) (d : Decimal) :
    d.toBinary f negative = .round negative d.value := by
  have h0 := d.value_nonneg
  rw [toBinary, Binary.round, Rat.abs_eq, abs_of_nonneg h0, magnitude]
  split_ifs with hsmall hlarge
  · congr 1
    by_cases hd : d.coefficient = 0
    · simp [value, hd, Format.nearest_zero]
    have hsize := hsmall.resolve_left hd
    have hmin : f.minExponent ≤ 1 := by
      have hpow : 1 ≤ 2 ^ (f.exponentBits - 1) := Nat.one_le_two_pow
      have : f.minExponent = 2 - ((2 ^ (f.exponentBits - 1) : Nat) : Int) - f.fractionBits := rfl
      omega
    refine (f.nearest_eq_zero h0 ?_).symm
    calc d.value < 10 ^ (_ : Int) := (value_bounds hd).2
      _ ≤ 10 ^ (f.minExponent - 1) := zpow_le_zpow_right₀ (by norm_num) (by omega)
      _ ≤ 2 ^ (f.minExponent - 1) := ten_zpow_le_two_zpow (by omega)
  · have hd : d.coefficient ≠ 0 := fun hd => hsmall (.inl hd)
    have hle : f.infinity ≤ f.nearest d.value := by
      refine f.le_nearest_of_value_le ?_
      rw [f.value_infinity hf, zpow_natCast]
      calc (2 : Rat) ^ 2 ^ (f.exponentBits - 1) ≤ 10 ^ 2 ^ (f.exponentBits - 1) := by
            gcongr
            norm_num
        _ = 10 ^ ((2 ^ (f.exponentBits - 1) : Nat) : Int) := (zpow_natCast _ _).symm
        _ ≤ 10 ^ (_ - 1 : Int) := zpow_le_zpow_right₀ (by norm_num) (Int.le_sub_one_of_lt hlarge)
        _ ≤ d.value := (value_bounds hd).1
    rw [Binary.ofMagnitude, Binary.ofMagnitude, dif_neg (lt_irrefl _), dif_neg (not_lt.2 hle)]
  · rfl

end Decimal

end SimpleBatch
