import Mathlib.Data.Nat.Prime.Basic
import SimpleBatch.Proofs.Classification

/-!
# Reading back what is written

A number is written as a text (`Value.render`), and the text is read as a token
(`Value.ofToken`). The way back has three stations:

* `Format.nearest_shortest`: a magnitude is the nearest one to its shortest decimal,
  since the search for the decimal accepts no other, and ends at the exact one;
* `Decimal.isPlain_notate`: the positional notation of a decimal is a numeral, and
  denotes the decimal;
* `Value.readSingle?_render`: so the text of a finite floating-point number is read as
  that number, if it is read as a floating-point number.

A token that can be an integer is read as one, however. A floating-point number without
a fraction comes back as an integer then, and not always as the integer that it is: its
shortest decimal ends in zeros where it has more digits than it needs. But what is
nearest to that integer is the number again (`Value.toRat?_ofInt_of_read`).
-/

namespace SimpleBatch

open Text

theorem zpow_eq_div {b : Rat} (hb : b ≠ 0) (e : Int) : b ^ e = b ^ e.toNat / b ^ (-e).toNat := by
  rw [← zpow_natCast, ← zpow_natCast, ← zpow_sub₀ hb, Int.toNat_sub_toNat_neg]

/-! ## The shortest decimal -/

namespace Format

variable (f : Format)

/-- The numbers of a format are fractions with a power of two below. -/
theorem exists_den_value (n : Nat) : ∃ k, (f.value n).den = 2 ^ k := by
  obtain ⟨k, r, rfl, hr, hk⟩ := f.exists_eq_add n
  rw [f.value_add hr.le hk]
  generalize f.minExponent + k = e
  have hfraction : (r * 2 ^ e : Rat) = Rat.divInt (r * 2 ^ e.toNat) (2 ^ (-e).toNat) := by
    rw [zpow_eq_div two_ne_zero e, Rat.divInt_eq_div]
    push_cast
    rw [mul_div_assoc]
  have hdvd : (r * 2 ^ e : Rat).den ∣ 2 ^ (-e).toNat := by
    rw [← Int.natCast_dvd_natCast, hfraction, Nat.cast_pow]
    exact Rat.den_dvd _ _
  obtain ⟨j, -, hj⟩ := (Nat.dvd_prime_pow Nat.prime_two).1 hdvd
  exact ⟨j, hj⟩

theorem value_exactDecimal (n : Nat) : (f.exactDecimal n).value = f.value n := by
  obtain ⟨k, hk⟩ := f.exists_den_value n
  have hnum : ((f.value n).num.natAbs : Rat) = (f.value n).num := by
    rw [Nat.cast_natAbs, abs_of_nonneg (Rat.num_nonneg.2 (f.value_nonneg n))]
  have hten : (10 : Rat) ^ k = 5 ^ k * 2 ^ k := by
    rw [← mul_pow]
    norm_num
  have hfive : ((Nat.pow 5 k : Nat) : Rat) = 5 ^ k := Nat.cast_pow 5 k
  conv_rhs => rw [← Rat.num_div_den (f.value n), hk]
  rw [exactDecimal, Decimal.value, hk, Nat.log2_two_pow, zpow_neg, zpow_natCast, hten]
  push_cast
  rw [hnum, hfive]
  field_simp

theorem nearest_of_neighbour? {n : Nat} {e : Int} {d : Decimal} (h : f.neighbour? n e = some d) :
    f.nearest d.value = n := by
  unfold neighbour? at h
  extract_lets step below readsBack at h
  have hback {c : Nat} (hc : readsBack c) : f.nearest (Decimal.mk c e).value = n := beq_iff_eq.1 hc
  split_ifs at h with hbelow habove
  · cases h
    exact hback (Bool.and_eq_true_iff.1 hbelow).1
  · cases h
    exact hback habove

theorem nearest_shortestFrom (n : Nat) (e : Int) (grids : Nat) :
    f.nearest (f.shortestFrom n e grids).value = n := by
  induction grids generalizing e with
  | zero => rw [shortestFrom, value_exactDecimal, nearest_value]
  | succ grids ih =>
    rw [shortestFrom]
    cases h : f.neighbour? n e with
    | none => exact ih (e - 1)
    | some d => exact f.nearest_of_neighbour? h

/-- A magnitude is the nearest one to its shortest decimal. -/
theorem nearest_shortest (n : Nat) : f.nearest (f.shortest n).value = n := by
  unfold shortest
  split
  · next hn => simp [hn, Decimal.value, nearest_zero]
  · exact f.nearest_shortestFrom n _ _

end Format

/-! ## Positional notation -/

namespace Decimal

theorem ofDigitChars_decimal (n : Nat) : Nat.ofDigitChars 10 (decimal n) 0 = n := by
  rw [← numeralValue_eq fun _ => isDigit_of_mem_decimal]
  exact numeralValue_numeral (by decide) (by decide) n

theorem ofDigitChars_replicate (k : Nat) : Nat.ofDigitChars 10 (List.replicate k '0') 0 = 0 := by
  induction k with
  | zero => rfl
  | succ k ih =>
    rw [List.replicate_succ', ofDigitChars_append, ih]
    rfl

/-- The number of digits after a point. -/
def fractionValue (digits : List Char) : Rat :=
  Nat.ofDigitChars 10 digits 0 / 10 ^ digits.length

/-- Zeros at the end of a fraction do not count. -/
theorem fractionValue_append_replicate (digits : List Char) (k : Nat) :
    fractionValue (digits ++ List.replicate k '0') = fractionValue digits := by
  rw [fractionValue, ofDigitChars_append, ofDigitChars_replicate, fractionValue]
  simp [pow_add, mul_div_mul_right]

theorem exists_dropZeros (digits : List Char) :
    ∃ k, digits = dropZeros digits ++ List.replicate k '0' := by
  refine ⟨(digits.reverse.takeWhile (· = '0')).length, ?_⟩
  have hzeros : digits.reverse.takeWhile (· = '0') =
      List.replicate (digits.reverse.takeWhile (· = '0')).length '0' :=
    List.eq_replicate_iff.2 ⟨rfl, fun c hc => by simpa using List.mem_takeWhile_imp hc⟩
  rw [dropZeros, ← List.reverse_replicate, ← hzeros, ← List.reverse_append,
    List.takeWhile_append_dropWhile, List.reverse_reverse]

theorem fractionValue_dropZeros (digits : List Char) :
    fractionValue (dropZeros digits) = fractionValue digits := by
  obtain ⟨k, hk⟩ := exists_dropZeros digits
  conv_rhs => rw [hk, fractionValue_append_replicate]

theorem length_paddedDecimal {places m : Nat} (hplaces : 0 < places) (h : m < 10 ^ places) :
    (paddedDecimal places m).length = places := by
  have hle : (decimal m).length ≤ places := by
    rw [length_decimal]
    exact (Nat.length_toDigits_le_iff (by norm_num) hplaces).2 h
  rw [paddedDecimal, List.length_leftpad, max_eq_left hle]

theorem ofDigitChars_paddedDecimal (places m : Nat) :
    Nat.ofDigitChars 10 (paddedDecimal places m) 0 = m := by
  rw [paddedDecimal, List.leftpad, ofDigitChars_append, ofDigitChars_replicate,
    ofDigitChars_decimal, zero_mul, zero_add]

theorem isDigit_of_mem_paddedDecimal (places m : Nat) :
    ∀ c ∈ paddedDecimal places m, c.isDigit := by
  intro c hc
  rcases List.mem_append.1 hc with hc | hc
  · rw [List.eq_of_mem_replicate hc]
    decide
  · exact isDigit_of_mem_decimal hc

/-- The digits after the point of a decimal, without zeros at their end. -/
theorem fraction_spec {places m : Nat} (h : m < 10 ^ places) :
    let fraction := if places = 0 then [] else dropZeros (paddedDecimal places m)
    (∀ c ∈ fraction, c.isDigit) ∧ fractionValue fraction = m / 10 ^ places := by
  intro fraction
  by_cases hplaces : places = 0
  · obtain rfl : m = 0 := by simpa [hplaces] using h
    simp [fraction, hplaces, fractionValue]
  · have hfraction : fraction = dropZeros (paddedDecimal places m) := if_neg hplaces
    obtain ⟨k, hk⟩ := exists_dropZeros (paddedDecimal places m)
    rw [hfraction]
    constructor
    · intro c hc
      refine isDigit_of_mem_paddedDecimal places m c ?_
      rw [hk]
      exact List.mem_append_left _ hc
    · rw [fractionValue_dropZeros, fractionValue, ofDigitChars_paddedDecimal,
        length_paddedDecimal (Nat.pos_of_ne_zero hplaces) h]

theorem value_eq_div (d : Decimal) :
    d.value = (d.coefficient * 10 ^ d.exponent.toNat : Nat) / (10 ^ (-d.exponent).toNat : Nat) := by
  rw [value, zpow_eq_div (by norm_num)]
  push_cast
  rw [mul_div_assoc]

/-- The positional notation of a decimal denotes it. -/
theorem isPlain_notate (d : Decimal) : IsPlain d.notate d.value := by
  unfold notate
  extract_lets places scaled unit whole fraction
  have hunit : 0 < unit := Nat.pow_pos (by norm_num)
  have hwhole : Nat.ofDigitChars 10 whole 0 = scaled / unit := ofDigitChars_decimal _
  have hne : whole ≠ [] := decimal_ne_nil _
  have hdigits : ∀ c ∈ whole, c.isDigit := fun c => isDigit_of_mem_decimal
  obtain ⟨hall, hfraction⟩ : (∀ c ∈ fraction, c.isDigit) ∧
      fractionValue fraction = (scaled % unit : Nat) / 10 ^ places :=
    fraction_spec (Nat.mod_lt _ hunit)
  have hplaces : (10 ^ places : Rat) = unit := (Nat.cast_pow 10 places).symm
  have hvalue : d.value = scaled / unit := d.value_eq_div
  have hsplit : d.value = Nat.ofDigitChars 10 whole 0 + fractionValue fraction := by
    rw [hvalue, hwhole, hfraction, hplaces]
    clear_value unit scaled
    have hpos : (unit : Rat) ≠ 0 := by exact_mod_cast hunit.ne'
    have hdiv : (scaled : Rat) = unit * (scaled / unit : Nat) + (scaled % unit : Nat) :=
      mod_cast (Nat.div_add_mod scaled unit).symm
    field_simp
    exact hdiv
  rw [hsplit]
  clear_value whole fraction
  split_ifs with hempty
  · rw [List.isEmpty_iff.1 hempty]
    simpa [fractionValue] using IsPlain.whole hne hdigits
  · exact .point (.inl hne) hdigits hall

theorem IsPlain.not_isSpace {cs : List Char} {q : Rat} (h : IsPlain cs q) :
    ∀ c ∈ cs, ¬isSpace c := by
  have hdigit {c : Char} (hc : c.isDigit) : ¬isSpace c :=
    not_isSpace_of_isAlphanum (by simp [Char.isAlphanum, hc])
  intro c hc
  cases h with
  | whole _ hdigits => exact hdigit (hdigits c hc)
  | point _ hdigits hall =>
    rcases List.mem_append.1 hc with hc | hc
    · exact hdigit (hdigits c hc)
    · rcases List.mem_cons.1 hc with rfl | hc
      · decide
      · exact hdigit (hall c hc)

end Decimal

/-! ## Numbers -/

namespace Value

variable {t : String} {n : Int32} {x : Single} {q : Rat} {cs : List Char}

theorem isDecimal_withSign (h : Decimal.IsPlain cs q) (negative : Bool) :
    Decimal.IsDecimal (renderSingle.withSign negative cs) negative q := by
  cases negative
  · simpa [renderSingle.withSign] using Decimal.IsDecimal.mk .none h .none
  · simpa [renderSingle.withSign] using Decimal.IsDecimal.mk .minus h .none

theorem trim_withSign (h : Decimal.IsPlain cs q) (negative : Bool) :
    trim (renderSingle.withSign negative cs) = renderSingle.withSign negative cs := by
  have hspace : ∀ c ∈ renderSingle.withSign negative cs, ¬isSpace c := by
    cases negative
    · exact h.not_isSpace
    · exact List.forall_mem_cons.2 ⟨by decide, h.not_isSpace⟩
  exact trim_eq_self (fun c hc => hspace c (List.mem_of_mem_head? hc))
    fun c hc => hspace c (List.mem_of_mem_getLast? hc)

/-- What is written for a finite floating-point number is read back as that number. -/
theorem readSingle?_render (h : x.toRat? = some q) : readSingle? (float x).render = some x := by
  obtain ⟨negative, n, rfl, -⟩ := Binary.eq_finite_of_toRat? h
  have hplain := (Format.single.shortest n).isPlain_notate
  refine readSingle?_eq_some.2 ⟨_, negative, (Format.single.shortest n).value,
    stripped_iff.2 rfl, ?_, ?_⟩
  · rw [render, String.toList_ofList, renderSingle, trim_withSign hplain]
    exact isDecimal_withSign hplain negative
  · rw [Binary.round, Rat.abs_eq, abs_of_nonneg (Decimal.value_nonneg _),
      Format.nearest_shortest, Binary.ofMagnitude, dif_pos n.isLt]

/-- A text that can be read as an integer and as a floating-point number denotes the
    same floating-point number both ways. -/
theorem toRat?_ofInt_of_read (hn : readInteger? t = some n) (hx : readSingle? t = some x) :
    (Binary.ofInt n.toInt : Single).toRat? = x.toRat? := by
  obtain ⟨w, hstripped, hinteger⟩ := readInteger?_eq_some.1 hn
  obtain ⟨w', negative, q, hstripped', hdecimal, rfl⟩ := readSingle?_eq_some.1 hx
  obtain rfl := hstripped.unique hstripped'
  obtain ⟨negative', hsign, hdecimal'⟩ := hinteger.isDecimal
  obtain ⟨rfl, rfl⟩ := hdecimal.unique hdecimal'
  rw [Binary.round_abs, Binary.toRat?_round hsign (Format.nearest_toInt_lt n),
    Binary.toRat?_ofInt]

/-- A finite floating-point number is read back as itself or as an integer, which is
    the same number once it is converted. -/
theorem ofToken_render_finite (h : x.toRat? = some q) :
    ofToken (float x).render = float x ∨
      ∃ n, ofToken (float x).render = integer n ∧
        (Binary.ofInt n.toInt : Single).toRat? = some q := by
  have hsingle := readSingle?_render h
  cases hinteger : readInteger? (float x).render with
  | none => exact .inl (ofToken_of_readNumber? (readNumber?_of_readSingle? hinteger hsingle))
  | some n =>
    refine .inr ⟨n, ofToken_of_readNumber? (readNumber?_of_readInteger? hinteger), ?_⟩
    rw [toRat?_ofInt_of_read hinteger hsingle, h]

theorem ofToken_render_integer (n : Int32) : ofToken (integer n).render = integer n :=
  ofToken_of_readNumber? (readNumber?_of_readInteger? (readInteger?_ofInt n))

theorem ofToken_render_text (h : x.toRat? = none) :
    ofToken (float x).render = text (float x).render := by
  cases x with
  | nan => decide +kernel
  | infinite negative => cases negative <;> decide +kernel
  | finite negative n => cases h

/-- What is written for a number is read as one that is written the same. -/
theorem ofToken_render_ofToken (v : Value) (h : v.kind ≠ .text) :
    ofToken (ofToken v.render).render = ofToken v.render := by
  cases v with
  | integer n => rw [ofToken_render_integer, ofToken_render_integer]
  | float x =>
    cases hx : x.toRat? with
    | some q =>
      rcases ofToken_render_finite hx with hfloat | ⟨n, hinteger, -⟩
      · rw [hfloat, hfloat]
      · rw [hinteger, ofToken_render_integer]
    | none =>
      have htext := ofToken_render_text hx
      rw [htext]
      exact htext
  | text s => exact absurd rfl h

/-- Reading back what is written for a number.

    An integer comes back as it is. A finite floating-point number comes back as a
    number that is equal to it once it is converted; it can be an integer that is
    another one, as for `2 ^ 31` and for `123456792`. The other floating-point numbers
    come back as texts. What comes back stays the same from then on. -/
theorem ofToken_render :
    (∀ n, ofToken (integer n).render = integer n) ∧
    (∀ x q, x.toRat? = some q →
      ∃ y, (ofToken (float x).render).toSingle? = some y ∧ y.toRat? = some q) ∧
    (∀ z ∈ [2 ^ 31, 123456792], (Binary.ofInt z : Single).toRat? = some (z : Rat) ∧
      ∃ n, ofToken (float (.ofInt z)).render = integer n ∧ n.toInt ≠ z) ∧
    (∀ x, x.toRat? = none → ∃ s, ofToken (float x).render = text s) ∧
    (∀ v : Value, v.kind ≠ .text → ofToken (ofToken v.render).render = ofToken v.render) := by
  refine ⟨ofToken_render_integer, fun x q h => ?_, ?_, fun x h => ⟨_, ofToken_render_text h⟩,
    ofToken_render_ofToken⟩
  · rcases ofToken_render_finite h with hfloat | ⟨n, hinteger, hn⟩
    · exact ⟨x, by rw [hfloat, toSingle?], h⟩
    · exact ⟨_, by rw [hinteger, toSingle?], hn⟩
  · have hlarge : ofToken (float (.ofInt (2 ^ 31))).render = integer 2147483600 := by decide +kernel
    have hodd : ofToken (float (.ofInt 123456792)).render = integer 123456790 := by decide +kernel
    simp only [List.forall_mem_cons, List.not_mem_nil, false_implies, implies_true, and_true]
    exact ⟨⟨by decide +kernel, _, hlarge, by decide⟩, by decide +kernel, _, hodd, by decide⟩

end Value

end SimpleBatch
