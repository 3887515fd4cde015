import Mathlib.Data.List.TakeWhile
import SimpleBatch.Text.Numeral
import SimpleBatch.Text.Space

/-!
# Texts

What the readers of the language have in common:

* a reader takes the longest run of characters of a kind, so a run is read whole
  where a character of another kind follows it (`span_append`);
* characters that mean something are doubled where they stand for themselves
  (`doubled`);
* a numeral denotes its number, in any base (`numeralValue_numeral`).
-/

namespace SimpleBatch.Text

variable {cs : List Char}

/-! ## Runs -/

/-- Reading up to a character of another kind. -/
theorem span_append {p : Char → Bool} {run rest : List Char} (hr : ∀ c ∈ run, p c)
    (hs : ∀ c ∈ rest.head?, ¬p c) :
    (run ++ rest).takeWhile p = run ∧ (run ++ rest).dropWhile p = rest := by
  rw [List.takeWhile_append_of_pos hr, List.dropWhile_append_of_pos hr]
  cases rest with
  | nil => simp
  | cons c rest =>
    have hc : ¬p c := hs c rfl
    rw [List.takeWhile_cons_of_neg hc, List.dropWhile_cons_of_neg hc]
    simp

theorem takeWhile_eq_nil {p : Char → Bool} : cs.takeWhile p = [] ↔ ∀ c ∈ cs.head?, ¬p c := by
  cases cs <;> simp [List.takeWhile_cons]

theorem not_head?_dropWhile {p : Char → Bool} : ∀ c ∈ (cs.dropWhile p).head?, ¬p c := by
  intro c hc
  have := List.head?_dropWhile_not p cs
  rw [hc] at this
  simpa using this

/-! ## White space -/

theorem not_isSpace_of_isAlphanum {c : Char} (h : c.isAlphanum) : ¬isSpace c := by
  have hc : c.isAlphanum = (decide (65 ≤ c.val ∧ c.val ≤ 90) ||
      decide (97 ≤ c.val) && decide (c.val ≤ 122) ||
      decide (48 ≤ c.val) && decide (c.val ≤ 57)) := rfl
  have hn : c.toNat = c.val.toNat := rfl
  simp only [hc, Bool.or_eq_true, Bool.and_eq_true, decide_eq_true_eq, UInt32.le_iff_toNat_le,
    UInt32.reduceToNat] at h
  simp only [isSpace, hn, Bool.or_eq_true, Bool.and_eq_true, decide_eq_true_eq, beq_iff_eq]
  omega

theorem skipSpace_append {space rest : List Char} (hs : ∀ c ∈ space, isSpace c)
    (hr : ∀ c ∈ rest.head?, ¬isSpace c) : skipSpace (space ++ rest) = rest :=
  (span_append hs hr).2

theorem exists_append_skipSpace (cs : List Char) :
    ∃ space, (∀ c ∈ space, isSpace c) ∧ space ++ skipSpace cs = cs :=
  ⟨cs.takeWhile isSpace, fun _ => List.mem_takeWhile_imp, List.takeWhile_append_dropWhile⟩

theorem trim_eq_self (hhead : ∀ c ∈ cs.head?, ¬isSpace c)
    (hlast : ∀ c ∈ cs.getLast?, ¬isSpace c) : trim cs = cs := by
  have hskip : ∀ {cs : List Char}, (∀ c ∈ cs.head?, ¬isSpace c) → skipSpace cs = cs :=
    skipSpace_append (List.forall_mem_nil _)
  rw [trim, hskip hhead, hskip (by rwa [List.head?_reverse]), List.reverse_reverse]

/-! ## Doubled characters -/

/-- A text in which every character of `marks` is written twice. -/
def doubled (marks cs : List Char) : List Char :=
  cs.flatMap fun c => if c ∈ marks then [c, c] else [c]

theorem doubled_cons (marks : List Char) (c : Char) :
    doubled marks (c :: cs) = (if c ∈ marks then [c, c] else [c]) ++ doubled marks cs :=
  List.flatMap_cons

theorem head?_doubled (marks cs : List Char) : (doubled marks cs).head? = cs.head? := by
  cases cs with
  | nil => rfl
  | cons c cs =>
    rw [doubled_cons, List.head?_append]
    split <;> rfl

theorem doubled_of_forall_notMem {marks cs : List Char} (h : ∀ c ∈ cs, c ∉ marks) :
    doubled marks cs = cs := by
  induction cs with
  | nil => rfl
  | cons c cs ih =>
    obtain ⟨hc, hcs⟩ := List.forall_mem_cons.1 h
    rw [doubled_cons, if_neg hc, ih hcs, List.singleton_append]

/-! ## Numerals -/

theorem hexDigit?_toUpper_digitChar {d : Nat} (h : d < 16) :
    hexDigit? (Nat.digitChar d).toUpper = some d := by
  have : ∀ d : Fin 16, hexDigit? (Nat.digitChar d).toUpper = some d.val := by decide
  exact this ⟨d, h⟩

theorem numeralValue_concat (base : Nat) (digits : List Char) (c : Char) :
    numeralValue base (digits ++ [c]) =
      base * numeralValue base digits + (hexDigit? c).getD 0 := by
  rw [numeralValue, List.foldl_append]
  rfl

/-- A numeral denotes its number. -/
theorem numeralValue_numeral {base : Nat} (hlo : 1 < base) (hhi : base ≤ 16) (n : Nat) :
    numeralValue base (numeral base n) = n := by
  induction n using Nat.strongRecOn with
  | ind n ih =>
    rw [numeral, Nat.toDigits_eq_if hlo]
    split
    · next h => simp [numeralValue, hexDigit?_toUpper_digitChar (Nat.lt_of_lt_of_le h hhi)]
    · next h =>
      have hd : n % base < 16 := Nat.lt_of_lt_of_le (Nat.mod_lt n (by omega)) hhi
      rw [List.map_append, List.map_singleton, numeralValue_concat, ← numeral,
        ih (n / base) (Nat.div_lt_self (by omega) hlo), hexDigit?_toUpper_digitChar hd]
      exact Nat.div_add_mod n base

theorem toUpper_of_isDigit {c : Char} (h : c.isDigit) : c.toUpper = c := by
  have hnine : c.toNat ≤ 57 := (Char.isDigit_iff_toNat.1 h).2
  refine dif_neg fun hl => ?_
  have hlow : 97 ≤ c.toNat := UInt32.le_iff_toNat_le.1 hl.1
  omega

theorem isDigit_of_mem_decimal {n : Nat} {c : Char} (hc : c ∈ decimal n) : c.isDigit := by
  obtain ⟨d, hd, rfl⟩ := List.mem_map.1 hc
  have hd : d.isDigit := Nat.isDigit_of_mem_toDigits (by decide) (by decide) hd
  rwa [toUpper_of_isDigit hd]

theorem numeralValue_digit {c : Char} (h : c.isDigit) : numeralValue 10 [c] = c.toNat - 48 := by
  have hc : '0' ≤ c ∧ c ≤ '9' := by
    rw [Char.isDigit, Bool.and_eq_true, decide_eq_true_eq, decide_eq_true_eq] at h
    exact h
  simp only [numeralValue, List.foldl_cons, List.foldl_nil, hexDigit?, if_pos hc, Option.getD_some]
  exact Nat.zero_add _

theorem digit_lt {c : Char} (h : c.isDigit) : numeralValue 10 [c] < 10 := by
  have hn : 48 ≤ c.toNat ∧ c.toNat ≤ 57 := Char.isDigit_iff_toNat.1 h
  rw [numeralValue_digit h]
  omega

/-- A digit is the decimal of its number. -/
theorem decimal_digit {c : Char} (h : c.isDigit) : decimal (numeralValue 10 [c]) = [c] := by
  have hall : ∀ n : Fin 10, (Nat.digitChar n).toUpper = Char.ofNat (48 + n) := by decide
  have hchar : (Nat.digitChar (numeralValue 10 [c])).toUpper =
      Char.ofNat (48 + numeralValue 10 [c]) := hall ⟨_, digit_lt h⟩
  have hsum : 48 + (c.toNat - 48) = c.toNat := Nat.add_sub_cancel' (Char.isDigit_iff_toNat.1 h).1
  rw [decimal, numeral, Nat.toDigits_of_lt_base (digit_lt h), List.map_singleton, hchar,
    numeralValue_digit h, hsum, Char.ofNat_toNat]

theorem decimal_ne_nil (n : Nat) : decimal n ≠ [] :=
  fun h => Nat.toDigits_ne_nil (List.map_eq_nil_iff.1 h)

theorem mem_decimalInt {n : Int} {c : Char} (hc : c ∈ decimalInt n) : c = '-' ∨ c.isDigit := by
  unfold decimalInt at hc
  split at hc
  · exact (List.mem_cons.1 hc).imp_right isDigit_of_mem_decimal
  · exact .inr (isDigit_of_mem_decimal hc)

theorem decimalInt_ne_nil (n : Int) : decimalInt n ≠ [] := by
  unfold decimalInt
  split
  · exact List.cons_ne_nil _ _
  · exact decimal_ne_nil _

/-- A decimal integer has no characters that mean something in a line. -/
theorem plain_of_mem_decimalInt {n : Int} {c : Char} (hc : c ∈ decimalInt n) :
    ¬isSpace c ∧ c ≠ ',' ∧ c ≠ '"' ∧ c ≠ '\\' ∧ c ≠ '#' := by
  rcases mem_decimalInt hc with rfl | hd
  · decide
  · refine ⟨not_isSpace_of_isAlphanum (by simp [Char.isAlphanum, hd]), ?_⟩
    refine ⟨?_, ?_, ?_, ?_⟩ <;> rintro rfl <;> exact absurd hd (by decide)

end SimpleBatch.Text
