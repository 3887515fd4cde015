import Mathlib.Algebra.Group.Int.Defs
import Mathlib.Algebra.Group.Nat.Defs
import Mathlib.Control.Monad.Basic
import SimpleBatch.Operator.Arithmetic
import SimpleBatch.Operator.Conversion
import SimpleBatch.Operator.Text

/-!
# Indexes of texts

Three operators count the characters of a text, `charAt`, `substring` and `length`, and
each of them has its own check of what it is given. All three are about the parts of a
text (`Text.part`), and their laws are those of taking and dropping characters: a part
is as long as was asked for, a text is made of the two parts at any index, and a part of
a part is a part.

The indexes of a script are integers of 32 bits, those of a part are natural numbers. A
nonnegative integer is one and the same number on both sides (`Value.exists_ofNat`), and
the indexes of a text have 32 bits as long as its length has.

* `Value.substring_ofNat`, `Value.charAt_ofNat`: what the operators give inside a text;
* `Value.character_eq_ok`: a character is given by its code, and by no other value;
* `Value.indexing`: the laws of the indexes of a text, for all integers.
-/

namespace SimpleBatch

namespace Text

variable {s : String} {i n : Nat}

/-- The part of a text with `n` characters from the index `i` on. -/
def part (s : String) (i n : Nat) : String :=
  String.ofList ((s.toList.drop i).take n)

theorem length_part (h : i + n ≤ s.length) : (part s i n).length = n := by
  rw [part, String.length_ofList, List.length_take, List.length_drop, String.length_toList]
  omega

theorem part_to_end (s : String) (i : Nat) :
    part s i (s.length - i) = String.ofList (s.toList.drop i) := by
  have hlength : (s.toList.drop i).length = s.length - i := by
    rw [List.length_drop, String.length_toList]
  rw [part, List.take_of_length_le (Nat.le_of_eq hlength)]

theorem part_append_part (s : String) (i : Nat) :
    part s 0 i ++ part s i (s.length - i) = s := by
  rw [part_to_end, part, List.drop_zero, ← String.ofList_append, List.take_append_drop,
    String.ofList_toList]

theorem part_part (s : String) (i j n : Nat) :
    part (part s i (s.length - i)) j n = part s (i + j) n := by
  rw [part_to_end, part, String.toList_ofList, List.drop_drop, part]

theorem part_one {c : Char} (h : s.toList[i]? = some c) : part s i 1 = String.singleton c := by
  rw [part, List.take_one, List.head?_drop, h]
  rfl

end Text

namespace Value

open Text (part length_part part_append_part part_part part_one)

variable {v w : Value} {i n : Nat}

/-! ## The operators on natural numbers -/

/-- A natural number as an integer of 32 bits. -/
def ofNat (n : Nat) : Value :=
  integer (Int32.ofNat n)

/-- A nonnegative integer is a natural number of 31 bits. -/
theorem exists_ofNat {i : Int32} (h : 0 ≤ i) :
    ∃ k : Nat, k < 2 ^ 31 ∧ i = Int32.ofNat k := by
  have hlt := i.toInt_lt
  have hnonneg : 0 ≤ i.toInt := Int32.le_iff_toInt_le.1 h
  refine ⟨i.toInt.toNat, by omega, ?_⟩
  rw [← Int32.ofInt_eq_ofNat, Int.toNat_of_nonneg hnonneg, Int32.ofInt_toInt]

/-- A part of a text that lies in it. -/
theorem substring_ofNat (hi : i < 2 ^ 31) (hn : n < 2 ^ 31) (h : i + n ≤ v.render.length) :
    substring v (ofNat i) (ofNat n) = .ok (text (part v.render i n)) := by
  have hle : (i : Int) + n ≤ v.render.length := by exact_mod_cast h
  simp only [substring, ofNat, Int32.toInt_ofNat_of_lt hi, Int32.toInt_ofNat_of_lt hn,
    Int32.zero_le_ofNat_of_lt hi, Int32.zero_le_ofNat_of_lt hn, String.length_toList, hle,
    true_and, if_true, Int.toNat_natCast, part]

theorem charAt_ofNat {c : Char} (hi : i < 2 ^ 31) (h : v.render.toList[i]? = some c) :
    charAt v (ofNat i) = .ok (ofNat c.toNat) := by
  simp only [charAt, ofNat, Int32.toInt_ofNat_of_lt hi, Int32.zero_le_ofNat_of_lt hi, if_true,
    Int.toNat_natCast, h]

theorem toNat_lt (c : Char) : c.toNat < 2 ^ 31 := by
  have hvalid : c.toNat.isValidChar := c.valid
  unfold Nat.isValidChar at hvalid
  omega

/-- A code of a character, and nothing else, gives the text of that character. -/
theorem character_eq_ok : character v = .ok w ↔
    ∃ c : Char, v = ofNat c.toNat ∧ w = text (String.singleton c) := by
  constructor
  · intro h
    unfold character at h
    split at h
    · next k =>
      split at h
      · next hk =>
        obtain ⟨code, hlt, rfl⟩ := exists_ofNat hk.1
        rw [Int32.toInt_ofNat_of_lt hlt, Int.toNat_natCast] at h hk
        have hcode : (Char.ofNat code).toNat = code := by
          rw [Char.ofNat, dif_pos hk.2]
          rfl
        exact ⟨Char.ofNat code, by rw [hcode, ofNat], (Except.ok.inj h).symm⟩
      · cases h
    · cases h
  · rintro ⟨c, rfl, rfl⟩
    have hvalid : c.toNat.isValidChar := c.valid
    simp only [character, ofNat, Int32.toInt_ofNat_of_lt (toNat_lt c),
      Int32.zero_le_ofNat_of_lt (toNat_lt c), Int.toNat_natCast, hvalid, true_and, if_true,
      Char.ofNat_toNat]

/-! ## The laws -/

/-- The integers that are codes of characters. -/
def IsScalar (n : Int) : Prop :=
  0 ≤ n ∧ n < 0xD800 ∨ 0xDFFF < n ∧ n < 0x110000

theorem isScalar_iff {n : Int32} : IsScalar n.toInt ↔ 0 ≤ n ∧ n.toInt.toNat.isValidChar := by
  have hnonneg : 0 ≤ n ↔ 0 ≤ n.toInt := Int32.le_iff_toInt_le
  rw [hnonneg, IsScalar, Nat.isValidChar]
  omega

/-- The laws of the indexes of the text of a value. -/
structure Indexed (v : Value) : Prop where
  /-- A part inside the text is as long as was asked for. -/
  substring_inside : ∀ i n : Int32, 0 ≤ i → 0 ≤ n → i.toInt + n.toInt ≤ v.render.length →
    ∃ s, substring v (integer i) (integer n) = .ok s ∧ length s = integer n
  /-- There is no other part. -/
  substring_outside : ∀ i n : Int32,
    ¬(0 ≤ i ∧ 0 ≤ n ∧ i.toInt + n.toInt ≤ v.render.length) →
      substring v (integer i) (integer n) = .error (.substringOutside i n v.render.length)
  /-- A character inside the text is the part of length one. -/
  charAt_inside : ∀ i : Int32, 0 ≤ i → i.toInt < v.render.length →
    ∃ c, charAt v (integer i) = .ok c ∧ character c = substring v (integer i) (integer 1)
  /-- There is no other character. -/
  charAt_outside : ∀ i : Int32, ¬(0 ≤ i ∧ i.toInt < v.render.length) →
    charAt v (integer i) = .error (.indexOutside i v.render.length)
  /-- A text is made of its parts before and after an index. -/
  split : ∀ i ≤ v.render.length,
    (do add (← substring v (ofNat 0) (ofNat i))
          (← substring v (ofNat i) (ofNat (v.render.length - i)))) = .ok (text v.render)
  /-- A part of what is after an index is a part of the text. -/
  nested : ∀ i j n : Nat, i ≤ v.render.length → j + n ≤ v.render.length - i →
    (do substring (← substring v (ofNat i) (ofNat (v.render.length - i))) (ofNat j) (ofNat n)) =
      substring v (ofNat (i + j)) (ofNat n)

theorem charAt_of_kind (v : Value) {index : Value} (h : index.kind ≠ .integer) :
    charAt v index = .error (.operandKinds .strGet [v.kind, index.kind]) := by
  cases index with
  | integer i => exact absurd rfl h
  | float x => rfl
  | text s => rfl

theorem substring_of_kind (v : Value) {start count : Value}
    (h : start.kind ≠ .integer ∨ count.kind ≠ .integer) :
    substring v start count = .error (.operandKinds .subStr [start.kind, count.kind]) := by
  cases start with
  | integer i =>
    cases count with
    | integer n => exact absurd rfl (h.resolve_left (absurd rfl))
    | float x => rfl
    | text s => rfl
  | float x => rfl
  | text s => rfl

theorem indexed (hv : v.render.length ≤ 2 ^ 31 - 1) : Indexed v where
  substring_inside i n hi hn h := by
    obtain ⟨i, hi', rfl⟩ := exists_ofNat hi
    obtain ⟨n, hn', rfl⟩ := exists_ofNat hn
    rw [Int32.toInt_ofNat_of_lt hi', Int32.toInt_ofNat_of_lt hn'] at h
    have h : i + n ≤ v.render.length := by exact_mod_cast h
    refine ⟨_, substring_ofNat hi' hn' h, ?_⟩
    rw [length, render, length_part h]
  substring_outside i n h := by
    simp only [substring, String.length_toList]
    exact if_neg h
  charAt_inside i hi h := by
    obtain ⟨i, hi', rfl⟩ := exists_ofNat hi
    rw [Int32.toInt_ofNat_of_lt hi'] at h
    have h : i < v.render.length := by exact_mod_cast h
    obtain ⟨c, hc⟩ : ∃ c, v.render.toList[i]? = some c :=
      ⟨_, List.getElem?_eq_getElem (by rwa [String.length_toList])⟩
    refine ⟨_, charAt_ofNat hi' hc, ?_⟩
    rw [character_eq_ok.2 ⟨c, rfl, rfl⟩, ← part_one hc]
    exact (substring_ofNat hi' (by omega) h).symm
  charAt_outside i h := by
    have hnone : (if 0 ≤ i then v.render.toList[i.toInt.toNat]? else none) = none := by
      split
      · next hi =>
        have hle : (v.render.length : Int) ≤ i.toInt := Int.not_lt.1 fun hlt => h ⟨hi, hlt⟩
        rw [List.getElem?_eq_none_iff, String.length_toList]
        omega
      · rfl
    simp only [charAt, hnone, String.length_toList]
  split i hi := by
    rw [substring_ofNat (by omega) (by omega) (by omega),
      substring_ofNat (by omega) (by omega) (by omega)]
    exact congrArg (Except.ok ∘ text) (part_append_part v.render i)
  nested i j n hi hj := by
    have hlength : i + (v.render.length - i) ≤ v.render.length := by omega
    rw [substring_ofNat (by omega) (by omega) hlength,
      substring_ofNat (by omega) (by omega) (by omega), ← part_part]
    refine substring_ofNat (by omega) (by omega) ?_
    rwa [render, length_part hlength]

/-- The length of a text in two pieces is the sum of their lengths. -/
theorem length_add (a b : String) (h : a.length + b.length ≤ 2 ^ 31 - 1) :
    ∃ s k m n, add (text a) (text b) = .ok s ∧ length s = integer k ∧
      length (text a) = integer m ∧ length (text b) = integer n ∧
      k.toInt = m.toInt + n.toInt := by
  refine ⟨_, _, _, _, rfl, rfl, rfl, rfl, ?_⟩
  simp only [render, String.length_append]
  rw [Int32.toInt_ofNat_of_lt (by omega), Int32.toInt_ofNat_of_lt (by omega),
    Int32.toInt_ofNat_of_lt (by omega), Int.natCast_add]

theorem exists_character_iff :
    (∃ s, character v = .ok s) ↔ ∃ n, v = integer n ∧ IsScalar n.toInt := by
  constructor
  · rintro ⟨s, hs⟩
    obtain ⟨c, rfl, -⟩ := character_eq_ok.1 hs
    refine ⟨_, rfl, isScalar_iff.2 ⟨Int32.zero_le_ofNat_of_lt (toNat_lt c), ?_⟩⟩
    rw [Int32.toInt_ofNat_of_lt (toNat_lt c), Int.toNat_natCast]
    exact c.valid
  · rintro ⟨n, rfl, hn⟩
    exact ⟨_, if_pos (isScalar_iff.1 hn)⟩

/-- The character of a code has that code. -/
theorem charAt_character {n : Int32} (h : character (integer n) = .ok v) :
    charAt v (integer 0) = .ok (integer n) := by
  obtain ⟨c, hc, rfl⟩ := character_eq_ok.1 h
  rw [hc]
  exact charAt_ofNat (i := 0) (by decide) (by simp [render])

/-- The laws of the indexes of texts.

    Inside a text whose length has 32 bits, indexes and lengths are exact, and all other
    integers are refused; what is no integer is refused for any text. Joining texts adds
    their lengths, and the codes of characters are the Unicode scalar values. -/
theorem indexing :
    (∀ v : Value, v.render.length ≤ 2 ^ 31 - 1 → Indexed v) ∧
    (∀ v index : Value, index.kind ≠ .integer →
      charAt v index = .error (.operandKinds .strGet [v.kind, index.kind])) ∧
    (∀ v start count : Value, start.kind ≠ .integer ∨ count.kind ≠ .integer →
      substring v start count = .error (.operandKinds .subStr [start.kind, count.kind])) ∧
    (∀ a b : String, a.length + b.length ≤ 2 ^ 31 - 1 →
      ∃ s k m n, add (text a) (text b) = .ok s ∧ length s = integer k ∧
        length (text a) = integer m ∧ length (text b) = integer n ∧
        k.toInt = m.toInt + n.toInt) ∧
    (∀ v : Value, (∃ s, character v = .ok s) ↔ ∃ n, v = integer n ∧ IsScalar n.toInt) ∧
    ∀ (n : Int32) (s : Value), character (integer n) = .ok s →
      charAt s (integer 0) = .ok (integer n) :=
  ⟨fun _ => indexed, fun v _ => charAt_of_kind v, fun v _ _ => substring_of_kind v, length_add,
    fun _ => exists_character_iff, fun _ _ => charAt_character⟩

/-- A text of characters with one, two and four bytes: its last character, the empty part
    behind it, and a part whose end has no place in 32 bits. -/
theorem indexing_bytes :
    let v := text "aé😀"
    v.render.length ≤ 2 ^ 31 - 1 ∧ Indexed v ∧
      substring v (integer 2) (integer 1) = .ok (text "😀") ∧
      substring v (integer 3) (integer 0) = .ok (text "") ∧
      substring v (integer 2) (integer Int32.maxValue) =
        .error (.substringOutside 2 Int32.maxValue 3) := by
  intro v
  have hlength : v.render.length ≤ 2 ^ 31 - 1 := by decide
  exact ⟨hlength, indexing.1 v hlength, by decide +kernel, by decide +kernel, by decide +kernel⟩

end Value

end SimpleBatch
