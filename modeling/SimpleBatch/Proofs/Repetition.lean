import SimpleBatch.Proofs.Indexing

/-!
# Repetition of texts

A text times a positive integer is the text written that many times in a row, as long as
the result has at most `2 ^ 24` bytes. The repetition is built by doubling, but what it
gives is the plain sequence of copies (`Text.toList_repeated`), so it turns sums of counts
into joined texts and products into repeated repetitions (`Text.repeated_add`,
`Text.repeated_mul`).

The limit counts bytes, and the bytes of a repetition are a product as well. So whether a
text can be repeated depends on the product of its bytes with the count alone, and the
laws hold up to the limit (`Value.repeats`).
-/

namespace SimpleBatch

namespace Text

theorem flatten_replicate_append (cs : List Char) (m n : Nat) :
    (List.replicate m cs).flatten ++ (List.replicate n cs).flatten =
      (List.replicate (m + n) cs).flatten := by
  rw [← List.flatten_append, List.replicate_append_replicate]

/-- A repetition is a sequence of copies. -/
theorem toList_repeated (s : String) (n : Nat) :
    (repeated s n).toList = (List.replicate n s.toList).flatten := by
  fun_induction repeated s n with
  | case1 => rfl
  | case2 n _ half heven ih =>
    have hn : n / 2 + n / 2 = n := by omega
    rw [String.toList_append, ih, flatten_replicate_append, hn]
  | case3 n _ half hodd ih =>
    have hn : n / 2 + n / 2 + 1 = n := by omega
    calc (half ++ half ++ s).toList
      _ = (List.replicate (n / 2 + n / 2) s.toList).flatten ++ s.toList := by
        rw [String.toList_append, String.toList_append, ih, flatten_replicate_append]
      _ = (List.replicate (n / 2 + n / 2 + 1) s.toList).flatten := by
        rw [List.replicate_succ', List.flatten_append, List.flatten_singleton]
      _ = (List.replicate n s.toList).flatten := by rw [hn]

theorem repeated_one (s : String) : repeated s 1 = s := by
  refine String.toList_inj.1 ?_
  simp [toList_repeated]

theorem repeated_add (s : String) (m n : Nat) :
    repeated s (m + n) = repeated s m ++ repeated s n := by
  refine String.toList_inj.1 ?_
  rw [String.toList_append, toList_repeated, toList_repeated, toList_repeated,
    flatten_replicate_append]

theorem repeated_zero (s : String) : repeated s 0 = "" := by
  rw [repeated, if_pos rfl]

theorem repeated_mul (s : String) (m n : Nat) :
    repeated (repeated s m) n = repeated s (m * n) := by
  induction n with
  | zero => rw [Nat.mul_zero, repeated_zero, repeated_zero]
  | succ n ih => rw [repeated_add, repeated_one, ih, ← repeated_add, Nat.mul_succ]

theorem length_repeated (s : String) (n : Nat) : (repeated s n).length = s.length * n := by
  induction n with
  | zero =>
    rw [repeated_zero]
    rfl
  | succ n ih => rw [repeated_add, repeated_one, String.length_append, ih, Nat.mul_succ]

theorem utf8ByteSize_repeated (s : String) (n : Nat) :
    (repeated s n).utf8ByteSize = s.utf8ByteSize * n := by
  induction n with
  | zero =>
    rw [repeated_zero]
    rfl
  | succ n ih => rw [repeated_add, repeated_one, String.utf8ByteSize_append, ih, Nat.mul_succ]

end Text

namespace Value

open Text (repeated repeated_one repeated_add repeated_mul utf8ByteSize_repeated)

variable {s : String} {m n : Nat}

/-- The laws of the repetitions of a text. -/
structure Repeats (s : String) : Prop where
  /-- A text can be repeated a positive number of times, up to `2 ^ 24` bytes. -/
  ok_iff : ∀ n : Int32, (∃ v, mul (text s) (integer n) = .ok v) ↔
    1 ≤ n.toInt ∧ s.utf8ByteSize * n.toInt ≤ 16 * 1024 * 1024
  /-- It cannot be repeated any other number of times. -/
  few : ∀ n : Int32, n.toInt < 1 → mul (text s) (integer n) = .error .repeatCount
  /-- It cannot be repeated beyond the limit. -/
  many : ∀ n : Int32, 1 ≤ n.toInt → 16 * 1024 * 1024 < s.utf8ByteSize * n.toInt →
    mul (text s) (integer n) =
      .error (.repeatTooLong s.utf8ByteSize n.toInt.toNat (16 * 1024 * 1024))
  /-- A repetition has the bytes of all its copies. -/
  bytes : ∀ (n : Int32) (v : Value), mul (text s) (integer n) = .ok v →
    ∃ t, v = text t ∧ t.utf8ByteSize = s.utf8ByteSize * n.toInt
  /-- A text written once is the text. -/
  once : ∀ v, mul (text s) (integer 1) = .ok v → v = text s
  /-- A sum of counts gives the repetitions joined. -/
  sum : ∀ m n : Int32, 1 ≤ m.toInt → 1 ≤ n.toInt → m.toInt + n.toInt ≤ 2 ^ 31 - 1 →
    ∀ v, mul (text s) (integer (m + n)) = .ok v →
      ∃ x y, mul (text s) (integer m) = .ok x ∧ mul (text s) (integer n) = .ok y ∧ add x y = .ok v
  /-- A product of counts gives the repetition repeated; both are refused together. -/
  product : ∀ m n : Int32, 1 ≤ m.toInt → 1 ≤ n.toInt → m.toInt * n.toInt ≤ 2 ^ 31 - 1 →
    (∃ t, (do mul (← mul (text s) (integer m)) (integer n)) = .ok (text t) ∧
      mul (text s) (integer (m * n)) = .ok (text t)) ∨
    ∃ bytes count bytes' count', (do mul (← mul (text s) (integer m)) (integer n)) =
        .error (.repeatTooLong bytes count (16 * 1024 * 1024)) ∧
      mul (text s) (integer (m * n)) = .error (.repeatTooLong bytes' count' (16 * 1024 * 1024))

/-- A positive integer is a positive natural number of 31 bits. -/
theorem exists_count {n : Int32} (h : 1 ≤ n.toInt) :
    ∃ k : Nat, 1 ≤ k ∧ k < 2 ^ 31 ∧ n = Int32.ofNat k := by
  have hnonneg : 0 ≤ n := Int32.le_iff_toInt_le.2 (Int.le_trans (by decide) h)
  obtain ⟨k, hk, rfl⟩ := exists_ofNat hnonneg
  rw [Int32.toInt_ofNat_of_lt hk] at h
  exact ⟨k, by exact_mod_cast h, hk, rfl⟩

/-- A text times a positive number. -/
theorem mul_ofNat (s : String) (hpos : 1 ≤ n) (hn : n < 2 ^ 31) :
    mul (text s) (ofNat n) =
      if maxRepeatedBytes < s.utf8ByteSize * n then
        .error (.repeatTooLong s.utf8ByteSize n maxRepeatedBytes)
      else .ok (text (repeated s n)) := by
  have hone : ¬Int32.ofNat n < 1 := by
    rw [Int32.lt_iff_toInt_lt, Int32.toInt_ofNat_of_lt hn, Int32.toInt_one]
    omega
  simp only [mul, ofNat, repeatText, if_neg hone, Int32.toInt_ofNat_of_lt hn, Int.toNat_natCast]

theorem mul_of_lt_one (s : String) {n : Int32} (h : n.toInt < 1) :
    mul (text s) (integer n) = .error .repeatCount :=
  if_pos (Int32.lt_iff_toInt_lt.2 h)

theorem mul_ofNat_eq_ok {v : Value} (hpos : 1 ≤ n) (hn : n < 2 ^ 31) :
    mul (text s) (ofNat n) = .ok v ↔
      s.utf8ByteSize * n ≤ maxRepeatedBytes ∧ v = text (repeated s n) := by
  rw [mul_ofNat s hpos hn, ← Nat.not_lt]
  split
  · next h => simp [h]
  · next h => simp [h, eq_comm]

/-- A repetition repeated is the repetition by the product, up to the limit. -/
theorem mul_mul_of_le (hm : 1 ≤ m) (hn : 1 ≤ n) (h : m * n < 2 ^ 31)
    (hle : s.utf8ByteSize * (m * n) ≤ maxRepeatedBytes) :
    (do mul (← mul (text s) (ofNat m)) (ofNat n)) = .ok (text (repeated s (m * n))) := by
  have hmle : m ≤ m * n := Nat.le_mul_of_pos_right m hn
  have hnle : n ≤ m * n := Nat.le_mul_of_pos_left n hm
  have hfirst : mul (text s) (ofNat m) = .ok (text (repeated s m)) :=
    (mul_ofNat_eq_ok hm (by omega)).2 ⟨Nat.le_trans (Nat.mul_le_mul_left _ hmle) hle, rfl⟩
  have hsecond : mul (text (repeated s m)) (ofNat n) = .ok (text (repeated s (m * n))) := by
    refine (mul_ofNat_eq_ok hn (by omega)).2 ⟨?_, by rw [repeated_mul]⟩
    rwa [utf8ByteSize_repeated, Nat.mul_assoc]
  rw [hfirst]
  exact hsecond

/-- Beyond the limit a repetition cannot be repeated, or is refused before. -/
theorem mul_mul_of_lt (hm : 1 ≤ m) (hn : 1 ≤ n) (h : m * n < 2 ^ 31)
    (hlt : maxRepeatedBytes < s.utf8ByteSize * (m * n)) :
    ∃ bytes count, (do mul (← mul (text s) (ofNat m)) (ofNat n)) =
      .error (.repeatTooLong bytes count maxRepeatedBytes) := by
  have hmle : m ≤ m * n := Nat.le_mul_of_pos_right m hn
  have hnle : n ≤ m * n := Nat.le_mul_of_pos_left n hm
  rw [mul_ofNat s hm (by omega)]
  split
  · exact ⟨_, _, rfl⟩
  · rw [← Nat.mul_assoc, ← utf8ByteSize_repeated] at hlt
    exact ⟨_, n, (mul_ofNat _ hn (by omega)).trans (if_pos hlt)⟩

theorem bytes_le_iff {bytes count : Nat} :
    (bytes : Int) * count ≤ 16 * 1024 * 1024 ↔ bytes * count ≤ maxRepeatedBytes := by
  rw [← Int.natCast_mul, maxRepeatedBytes]
  omega

/-- Texts are repeated up to the limit and no further, and sums and products of counts
    join and repeat the repetitions. -/
theorem repeats (s : String) : Repeats s where
  ok_iff n := by
    by_cases hpos : 1 ≤ n.toInt
    · rw [and_iff_right hpos]
      obtain ⟨k, hk0, hk, rfl⟩ := exists_count hpos
      rw [← ofNat, Int32.toInt_ofNat_of_lt hk, bytes_le_iff]
      simp [mul_ofNat_eq_ok hk0 hk]
    · simp [mul_of_lt_one s (Int.not_le.1 hpos), hpos]
  few n h := mul_of_lt_one s h
  many n hpos h := by
    obtain ⟨k, hk0, hk, rfl⟩ := exists_count hpos
    rw [Int32.toInt_ofNat_of_lt hk, ← Int.not_le, bytes_le_iff, Nat.not_le] at h
    rw [← ofNat, mul_ofNat s hk0 hk, if_pos h, Int32.toInt_ofNat_of_lt hk, Int.toNat_natCast]
    rfl
  bytes n v h := by
    by_cases hpos : 1 ≤ n.toInt
    · obtain ⟨k, hk0, hk, rfl⟩ := exists_count hpos
      obtain ⟨-, rfl⟩ := (mul_ofNat_eq_ok hk0 hk).1 h
      refine ⟨_, rfl, ?_⟩
      rw [utf8ByteSize_repeated, Int32.toInt_ofNat_of_lt hk, Int.natCast_mul]
    · rw [mul_of_lt_one s (Int.not_le.1 hpos)] at h
      cases h
  once v h := by
    obtain ⟨-, rfl⟩ := (mul_ofNat_eq_ok (n := 1) (by decide) (by decide)).1 h
    rw [repeated_one]
  sum m n hm hn h v hv := by
    obtain ⟨m, hm0, hm31, rfl⟩ := exists_count hm
    obtain ⟨n, hn0, hn31, rfl⟩ := exists_count hn
    rw [Int32.toInt_ofNat_of_lt hm31, Int32.toInt_ofNat_of_lt hn31] at h
    rw [← Int32.ofNat_add] at hv
    obtain ⟨hle, rfl⟩ := (mul_ofNat_eq_ok (by omega) (by omega)).1 hv
    rw [Nat.mul_add] at hle
    refine ⟨_, _, (mul_ofNat_eq_ok hm0 hm31).2 ⟨by omega, rfl⟩,
      (mul_ofNat_eq_ok hn0 hn31).2 ⟨by omega, rfl⟩, ?_⟩
    rw [repeated_add]
    rfl
  product m n hm hn h := by
    obtain ⟨m, hm0, hm31, rfl⟩ := exists_count hm
    obtain ⟨n, hn0, hn31, rfl⟩ := exists_count hn
    rw [Int32.toInt_ofNat_of_lt hm31, Int32.toInt_ofNat_of_lt hn31, ← Int.natCast_mul] at h
    have hpos : 1 ≤ m * n := Nat.mul_pos hm0 hn0
    have hproduct : m * n < 2 ^ 31 := by omega
    rw [← Int32.ofNat_mul]
    by_cases hle : s.utf8ByteSize * (m * n) ≤ maxRepeatedBytes
    · exact .inl ⟨_, mul_mul_of_le hm0 hn0 hproduct hle,
        (mul_ofNat_eq_ok hpos hproduct).2 ⟨hle, rfl⟩⟩
    · have hlt := Nat.not_le.1 hle
      obtain ⟨bytes, count, herror⟩ := mul_mul_of_lt hm0 hn0 hproduct hlt
      exact .inr ⟨_, _, _, _, herror, (mul_ofNat s hpos hproduct).trans (if_pos hlt)⟩

/-- The empty text as often as possible, and a character of two bytes up to the limit and
    beyond it. -/
theorem repeats_limit :
    (∃ v, mul (text "") (integer Int32.maxValue) = .ok v) ∧
      (∃ v, mul (text "é") (integer 8388608) = .ok v) ∧
      mul (text "é") (integer 8388609) = .error (.repeatTooLong 2 8388609 (16 * 1024 * 1024)) :=
  ⟨((repeats "").ok_iff _).2 (by decide), ((repeats "é").ok_iff _).2 (by decide),
    (repeats "é").many _ (by decide) (by decide)⟩

end Value

end SimpleBatch
