import Mathlib.Data.List.Basic
import Mathlib.Data.List.Induction
import Mathlib.Tactic.Ring
import SimpleBatch.Operator.Conversion
import SimpleBatch.Proofs.Text

/-!
# Numerals of integers

A numeral in a base (`Text.IsNumeral`) has digits of that base only, starts with a zero
only if it is `0`, and denotes a number. These rules leave one numeral to every number
(`Text.IsNumeral.eq_numeral`), so two ways of writing a number without leading zeros
come to the same digits.

A hexadecimal digit holds as much as four binary ones. So a hexadecimal numeral with
every digit replaced by its bits denotes the same number in the base two
(`Text.numeralValue_flatMap_bits`), and is the binary numeral when the zeros in front of
it are dropped (`Text.IsNumeral.binary`).

An integer is written by the number that its 32 bits denote, which is larger by `2 ^ 32`
if the integer is negative (`Value.toNat_toBitVec`). So no two integers are written alike
(`Value.twos_complement_numerals`).
-/

namespace SimpleBatch

namespace Text

/-! ## Numerals of a base -/

/-- The digits of a base up to sixteen. -/
def digitChars (base : Nat) : List Char :=
  "0123456789ABCDEF".toList.take base

/-- Digits of a base that denote a number, without zeros in front of them. -/
structure IsNumeral (base : Nat) (digits : List Char) (n : Nat) : Prop where
  ne_nil : digits ≠ []
  digit : ∀ c ∈ digits, c ∈ digitChars base
  leading : digits.head? = some '0' → digits = ['0']
  value : numeralValue base digits = n

variable {base d n : Nat} {digits : List Char} {c : Char}

theorem mem_digitChars (hhi : base ≤ 16) :
    c ∈ digitChars base ↔ ∃ d < base, (Nat.digitChar d).toUpper = c := by
  have hall : ∀ b : Fin 17,
      digitChars b = (List.range b).map fun d => (Nat.digitChar d).toUpper := by decide
  rw [hall ⟨base, Nat.lt_succ_of_le hhi⟩]
  simp

theorem numeral_of_lt (h : n < base) : numeral base n = [(Nat.digitChar n).toUpper] := by
  rw [numeral, Nat.toDigits_of_lt_base h, List.map_singleton]

theorem numeral_concat (hlo : 1 < base) (hn : 0 < n) (hd : d < base) :
    numeral base n ++ [(Nat.digitChar d).toUpper] = numeral base (base * n + d) := by
  rw [← numeral_of_lt hd, numeral, numeral, numeral, ← List.map_append,
    Nat.toDigits_append_toDigits hlo hn hd]

theorem isNumeral_digit (hhi : base ≤ 16) (hd : d < base) :
    IsNumeral base [(Nat.digitChar d).toUpper] d where
  ne_nil := List.cons_ne_nil _ _
  digit := List.forall_mem_singleton.2 ((mem_digitChars hhi).2 ⟨d, hd, rfl⟩)
  leading h := congrArg (fun c => [c]) (Option.some.inj h)
  value := by simp [numeralValue, hexDigit?_toUpper_digitChar (Nat.lt_of_lt_of_le hd hhi)]

/-- A digit can follow a numeral, but for the one of zero. -/
theorem IsNumeral.concat (h : IsNumeral base digits n) (hhi : base ≤ 16) (hn : 0 < n)
    (hd : d < base) : IsNumeral base (digits ++ [(Nat.digitChar d).toUpper]) (base * n + d) where
  ne_nil := List.append_ne_nil_of_left_ne_nil h.ne_nil _
  digit := List.forall_mem_append.2 ⟨h.digit, (isNumeral_digit hhi hd).digit⟩
  leading hhead := by
    rw [List.head?_append_of_ne_nil _ h.ne_nil] at hhead
    have hzero : n = 0 := by
      rw [← h.value, h.leading hhead]
      rfl
    omega
  value := by
    rw [numeralValue_concat, h.value, hexDigit?_toUpper_digitChar (Nat.lt_of_lt_of_le hd hhi),
      Option.getD_some]

theorem isNumeral_numeral (hlo : 1 < base) (hhi : base ≤ 16) (n : Nat) :
    IsNumeral base (numeral base n) n := by
  induction n using Nat.strongRecOn with
  | ind n ih =>
    rcases Nat.lt_or_ge n base with hn | hn
    · rw [numeral_of_lt hn]
      exact isNumeral_digit hhi hn
    · have hpos : 0 < n / base := Nat.div_pos hn (by omega)
      have hdigit : n % base < base := Nat.mod_lt n (by omega)
      have hnumeral := (ih (n / base) (Nat.div_lt_self (by omega) hlo)).concat hhi hpos hdigit
      rwa [numeral_concat hlo hpos hdigit, Nat.div_add_mod] at hnumeral

/-- The numeral of a number is the only one. -/
theorem IsNumeral.eq_numeral (h : IsNumeral base digits n) (hlo : 1 < base) (hhi : base ≤ 16) :
    digits = numeral base n := by
  induction digits using List.reverseRecOn generalizing n with
  | nil => exact absurd rfl h.ne_nil
  | append_singleton digits c ih =>
    obtain ⟨hdigits, hc⟩ := List.forall_mem_append.1 h.digit
    obtain ⟨d, hd, rfl⟩ := (mem_digitChars hhi).1 (hc c List.mem_cons_self)
    have hvalue : base * numeralValue base digits + d = n := by
      rw [← h.value, numeralValue_concat,
        hexDigit?_toUpper_digitChar (Nat.lt_of_lt_of_le hd hhi), Option.getD_some]
    rcases List.eq_nil_or_concat digits with rfl | ⟨_, _, hconcat⟩
    · obtain rfl : d = n := by simpa [numeralValue] using hvalue
      rw [List.nil_append, numeral_of_lt hd]
    · -- More than one digit, so the first is no zero and the others are a numeral too.
      have hne : digits ≠ [] := by simp [hconcat]
      have hhead : digits.head? ≠ some '0' := by
        intro hhead
        have hzero := h.leading (by rwa [List.head?_append_of_ne_nil _ hne])
        simp [List.append_eq_singleton_iff, hne] at hzero
      have hnumeral := ih ⟨hne, hdigits, fun h0 => absurd h0 hhead, rfl⟩
      have hpos : 0 < numeralValue base digits := by
        refine Nat.pos_of_ne_zero fun h0 => hhead ?_
        rw [hnumeral, h0, numeral_of_lt (by omega)]
        rfl
      rw [← hvalue, ← numeral_concat hlo hpos hd, ← hnumeral]

theorem length_numeral_le {k : Nat} (hlo : 1 < base) (hk : 0 < k) (hn : n < base ^ k) :
    (numeral base n).length ≤ k := by
  rw [numeral, List.length_map]
  exact (Nat.length_toDigits_le_iff hlo hk).2 hn

/-! ## Digits as bits -/

/-- The four bits of a hexadecimal digit. -/
def bits (c : Char) : List Char :=
  [3, 2, 1, 0].map fun i => if ((hexDigit? c).getD 0).testBit i then '1' else '0'

/-- Digits without the zeros in front of them. A zero that is alone stays. -/
def dropLeadingZeros : List Char → List Char
  | c :: d :: digits => if c = '0' then dropLeadingZeros (d :: digits) else c :: d :: digits
  | digits => digits

theorem numeralValue_append (base : Nat) (digits digits' : List Char) :
    numeralValue base (digits ++ digits') =
      base ^ digits'.length * numeralValue base digits + numeralValue base digits' := by
  induction digits' using List.reverseRecOn with
  | nil => simp [numeralValue]
  | append_singleton digits' c ih =>
    rw [← List.append_assoc, numeralValue_concat, ih, numeralValue_concat, List.length_append,
      List.length_singleton]
    ring

theorem numeralValue_bits (hc : c ∈ digitChars 16) :
    numeralValue 2 (bits c) = (hexDigit? c).getD 0 := by
  have hall : ∀ d : Fin 16, numeralValue 2
      ([3, 2, 1, 0].map fun i => if d.val.testBit i then '1' else '0') = d := by decide
  obtain ⟨d, hd, rfl⟩ := (mem_digitChars Nat.le.refl).1 hc
  rw [bits, hexDigit?_toUpper_digitChar hd, Option.getD_some]
  exact hall ⟨d, hd⟩

theorem mem_bits {b : Char} (hb : b ∈ bits c) : b ∈ digitChars 2 := by
  obtain ⟨i, -, rfl⟩ := List.mem_map.1 hb
  split <;> decide

/-- Hexadecimal digits and their bits denote the same number. -/
theorem numeralValue_flatMap_bits (h : ∀ c ∈ digits, c ∈ digitChars 16) :
    numeralValue 2 (digits.flatMap bits) = numeralValue 16 digits := by
  induction digits using List.reverseRecOn with
  | nil => rfl
  | append_singleton digits c ih =>
    obtain ⟨hdigits, hc⟩ := List.forall_mem_append.1 h
    have hlength : (bits c).length = 4 := rfl
    rw [List.flatMap_append, List.flatMap_singleton, numeralValue_append, ih hdigits, hlength,
      numeralValue_bits (hc c List.mem_cons_self), numeralValue_concat]
    rfl

/-- A zero in front of digits does not count. -/
theorem numeralValue_zero_cons (base : Nat) (digits : List Char) :
    numeralValue base ('0' :: digits) = numeralValue base digits :=
  rfl

/-- Without the zeros in front of them, digits are the numeral of their number. -/
theorem isNumeral_dropLeadingZeros (hne : digits ≠ []) (h : ∀ c ∈ digits, c ∈ digitChars base) :
    IsNumeral base (dropLeadingZeros digits) (numeralValue base digits) := by
  fun_induction dropLeadingZeros digits with
  | case1 d digits ih =>
    rw [numeralValue_zero_cons]
    exact ih (List.cons_ne_nil _ _) (List.forall_mem_cons.1 h).2
  | case2 c d digits hc =>
    exact ⟨hne, h, fun hhead => absurd (Option.some.inj hhead) hc, rfl⟩
  | case3 digits hshort =>
    refine ⟨hne, h, fun hhead => ?_, rfl⟩
    obtain ⟨c, cs, rfl⟩ := List.exists_cons_of_ne_nil hne
    cases cs with
    | nil => exact congrArg (fun c => [c]) (Option.some.inj hhead)
    | cons d cs => exact absurd rfl (hshort c d cs)

/-- The bits of a hexadecimal numeral are the binary one. -/
theorem IsNumeral.binary (h : IsNumeral 16 digits n) :
    IsNumeral 2 (dropLeadingZeros (digits.flatMap bits)) n := by
  rw [← h.value, ← numeralValue_flatMap_bits h.digit]
  refine isNumeral_dropLeadingZeros (fun hnil => ?_) fun b hb => ?_
  · obtain ⟨c, cs, hcons⟩ := List.exists_cons_of_ne_nil h.ne_nil
    exact absurd (List.flatMap_eq_nil_iff.1 hnil c (by simp [hcons])) (List.cons_ne_nil _ _)
  · obtain ⟨c, -, hc⟩ := List.mem_flatMap.1 hb
    exact mem_bits hc

end Text

namespace Value

open Text

/-! ## Integers -/

/-- The bits of a negative integer denote a number that is larger by `2 ^ 32`. -/
theorem toNat_toBitVec (n : Int32) :
    (n.toBitVec.toNat : Int) = if n.toInt < 0 then n.toInt + 2 ^ 32 else n.toInt := by
  have hlt : n.toBitVec.toNat < 2 ^ 32 := n.toBitVec.isLt
  have hcond : n.toInt = _ := BitVec.toInt_eq_toNat_cond n.toBitVec
  split at hcond <;> split <;> omega

theorem inBase_injective {base : Nat} (hlo : 1 < base) (hhi : base ≤ 16) (command : Command) :
    Function.Injective fun n : Int32 => inBase command base (.integer n) := by
  intro n m h
  have hnumeral : numeral base n.toBitVec.toNat = numeral base m.toBitVec.toNat := by
    simpa [inBase, String.ofList_inj] using h
  have hvalue := congrArg (numeralValue base) hnumeral
  rw [numeralValue_numeral hlo hhi, numeralValue_numeral hlo hhi] at hvalue
  exact Int32.toBitVec_inj.1 (BitVec.eq_of_toNat_eq hvalue)

/-- The hexadecimal and the binary numeral of an integer are those of its 32 bits.

    Both denote the same number, which is the integer itself, or larger by `2 ^ 32` if
    the integer is negative, with at most 8 and 32 digits. The binary numeral is the
    hexadecimal one with every digit replaced by its bits, without the zeros in front.
    No two integers have the same numeral. -/
theorem twos_complement_numerals :
    (∀ n : Int32, ∃ (u : Nat) (hex bin : String),
      hexadecimal (.integer n) = .ok (.text hex) ∧ binary (.integer n) = .ok (.text bin) ∧
      (u : Int) = (if n.toInt < 0 then n.toInt + 2 ^ 32 else n.toInt) ∧
      IsNumeral 16 hex.toList u ∧ hex.length ≤ 8 ∧ IsNumeral 2 bin.toList u ∧ bin.length ≤ 32 ∧
      bin.toList = dropLeadingZeros (hex.toList.flatMap bits)) ∧
    Function.Injective (fun n : Int32 => hexadecimal (.integer n)) ∧
    Function.Injective (fun n : Int32 => binary (.integer n)) := by
  refine ⟨fun n => ?_, inBase_injective (by decide) (by decide) .hex,
    inBase_injective (by decide) (by decide) .bin⟩
  have hlt : n.toBitVec.toNat < 2 ^ 32 := n.toBitVec.isLt
  have hhex : IsNumeral 16 (numeral 16 n.toBitVec.toNat) n.toBitVec.toNat :=
    isNumeral_numeral (by decide) (by decide) _
  refine ⟨n.toBitVec.toNat, _, _, rfl, rfl, toNat_toBitVec n, ?_, ?_, ?_, ?_, ?_⟩
  · rwa [String.toList_ofList]
  · rw [String.length_ofList]
    exact length_numeral_le (by decide) (by decide) hlt
  · rw [String.toList_ofList]
    exact isNumeral_numeral (by decide) (by decide) _
  · rw [String.length_ofList]
    exact length_numeral_le (by decide) (by decide) hlt
  · rw [String.toList_ofList, String.toList_ofList]
    exact (hhex.binary.eq_numeral (by decide) (by decide)).symm

end Value

end SimpleBatch
