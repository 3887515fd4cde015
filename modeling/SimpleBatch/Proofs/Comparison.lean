import Mathlib.Order.WithBotTop
import SimpleBatch.Operator.Test
import SimpleBatch.Proofs.Rounding

/-!
# Comparisons

Two integers are compared exactly, and any other two numbers as floating-point numbers:
an integer is rounded before it is compared. So what a comparison sees of two numbers is
an order (`Value.order?`) that need not be the one of the exact numbers
(`Value.number?`). The three tests agree on it, and it turns around with the operands.

Rounding keeps the order of numbers, and what it makes less was less before. Hence a
number that tests as less is less, and the rounding of integers can only make numbers
equal that are not.

* `Value.ordered_eq`, `Value.equal_eq`: the tests ask for the order;
* `Value.order?_swap`: the order turns around with the operands;
* `Value.exists_order`: a strict order is that of the exact numbers;
* `Value.comparisons`: the tests are coherent, for all values.
-/

namespace SimpleBatch

/-- The rational numbers and both infinities. -/
abbrev Extended := WithBotTop Rat

namespace Format

/-- The number of a format nearest to a number; an infinity stays as it is. -/
def roundedExtended (f : Format) : Extended → Extended :=
  WithBot.map (WithTop.map f.rounded)

theorem roundedExtended_mono (f : Format) : Monotone f.roundedExtended :=
  (Monotone.withTop_map fun _ _ => rounded_mono).withBot_map

end Format

namespace Binary

variable {f : Format} {x y : Binary f} {p q : Extended}

/-- The exact number of a floating-point number; a `nan` has none. -/
def number? : Binary f → Option Extended
  | nan => none
  | infinite negative => some (if negative then ⊥ else ⊤)
  | finite negative magnitude => some (signedValue negative magnitude : Rat)

theorem number?_of_toRat? {a : Rat} (h : x.toRat? = some a) : x.number? = some (a : Extended) := by
  obtain ⟨negative, n, rfl, rfl⟩ := eq_finite_of_toRat? h
  rfl

/-- Rounding keeps the numbers of a format and the infinities. -/
theorem roundedExtended_number (h : x.number? = some p) : f.roundedExtended p = p := by
  cases x with
  | nan => cases h
  | infinite negative =>
    cases h
    cases negative <;> rfl
  | finite negative n =>
    cases h
    have hnumber : f.IsNumber (signedValue negative n) :=
      isNumber_of_toRat? (x := finite negative n) rfl
    exact congrArg (fun r : Rat => (r : Extended)) (Format.rounded_eq_self hnumber)

/-- The exact number at a place among the numbers of a format, of which the infinities
    are the first and the last one. -/
def extendedAt (f : Format) (m : Int) : Extended :=
  if m ≤ -f.infinity then ⊥ else if f.infinity ≤ m then ⊤ else (atPlace f m : Rat)

theorem extendedAt_lt {m n : Int} (hm : -f.infinity ≤ m) (hn : n ≤ f.infinity) (h : m < n) :
    extendedAt f m < extendedAt f n := by
  have hn' : ¬n ≤ -f.infinity := by omega
  have hm' : ¬f.infinity ≤ m := by omega
  simp only [extendedAt, if_neg hn', if_neg hm']
  split
  · split
    · exact WithBot.bot_lt_coe _
    · exact WithBot.bot_lt_coe _
  · split
    · exact WithBot.coe_lt_coe.2 (WithTop.coe_lt_top _)
    · exact WithBotTop.coe_lt_coe.2 (atPlace_lt_iff.2 h)

theorem number?_eq (hf : 0 < f.infinity) (x : Binary f) :
    x.number? = x.place?.map (extendedAt f) := by
  cases x with
  | nan => rfl
  | infinite negative =>
    cases negative
    · simpa [number?, place?, extendedAt] using hf.ne'
    · simp [number?, place?, extendedAt]
  | finite negative n =>
    obtain ⟨m, hm, hvalue⟩ := exists_place (x := finite negative n) rfl
    have hbounds : -f.infinity < m ∧ m < f.infinity := by
      have hn := n.isLt
      cases hm
      split <;> omega
    rw [hm, Option.map_some, extendedAt, if_neg (not_le.2 hbounds.1), if_neg (not_le.2 hbounds.2),
      hvalue]
    rfl

theorem place_bounds {m : Int} (h : x.place? = some m) : -f.infinity ≤ m ∧ m ≤ f.infinity := by
  cases x with
  | nan => cases h
  | infinite negative =>
    cases h
    split <;> omega
  | finite negative n =>
    cases h
    have := n.isLt
    split <;> omega

/-- Floating-point numbers are compared by their places, which are in the order of the
    exact numbers. -/
theorem exists_compare (hf : 0 < f.infinity) (hx : x.number? = some p) (hy : y.number? = some q) :
    ∃ o, x.compare? y = some o ∧ (o = .lt → p < q) := by
  rw [number?_eq hf, Option.map_eq_some_iff] at hx hy
  obtain ⟨m, hm, rfl⟩ := hx
  obtain ⟨n, hn, rfl⟩ := hy
  refine ⟨compare m n, by rw [compare?, hm, hn], fun h => ?_⟩
  exact extendedAt_lt (place_bounds hm).1 (place_bounds hn).2 (compare_lt_iff_lt.1 h)

theorem compare?_swap (x y : Binary f) : y.compare? x = (x.compare? y).map Ordering.swap := by
  unfold compare?
  cases x.place? with
  | none => cases y.place? <;> rfl
  | some m =>
    cases y.place? with
    | none => rfl
    | some n => exact congrArg some Std.OrientedCmp.eq_swap

end Binary

namespace Value

variable {a b : Value} {p q : Extended}

/-- The exact number that a value is; a text and a `nan` are none. -/
def number? : Value → Option Extended
  | integer n => some (n.toInt : Rat)
  | float x => x.number?
  | text _ => none

/-- The order that comparisons see: that of integers, and otherwise that of the nearest
    floating-point numbers. -/
def order? : Value → Value → Option Ordering
  | integer m, integer n => some (compare m.toInt n.toInt)
  | a, b => do (← a.toSingle?).compare? (← b.toSingle?)

theorem exists_number (ht : a.kind ≠ .text) (hn : a ≠ float .nan) : ∃ p, a.number? = some p := by
  cases a with
  | integer n => exact ⟨_, rfl⟩
  | float x =>
    cases x with
    | nan => exact absurd rfl hn
    | infinite negative => exact ⟨_, rfl⟩
    | finite negative n => exact ⟨_, rfl⟩
  | text s => exact absurd rfl ht

theorem exists_toSingle_iff : (∃ x, a.toSingle? = some x) ↔ a.kind ≠ .text := by
  cases a <;> simp [toSingle?, kind]

/-! ## The tests ask for the order -/

theorem ordered_eq (command : Command) (order : Ordering) (ha : a.kind ≠ .text)
    (hb : b.kind ≠ .text) :
    ordered command order a b = .ok (ofBool (order? a b = some order)) := by
  obtain ⟨x, hx⟩ := exists_toSingle_iff.2 ha
  obtain ⟨y, hy⟩ := exists_toSingle_iff.2 hb
  fun_cases order? a b with
  | case1 m n => simp [ordered]
  | case2 => simp [ordered, hx, hy]

theorem equal_eq (ha : a.kind ≠ .text) (hb : b.kind ≠ .text) :
    equal a b = ofBool (order? a b = some .eq) := by
  obtain ⟨x, hx⟩ := exists_toSingle_iff.2 ha
  obtain ⟨y, hy⟩ := exists_toSingle_iff.2 hb
  fun_cases order? a b with
  | case1 m n => simp [equal, Int32.toInt_inj]
  | case2 => simp [equal, hx, hy, Binary.eq, beq_eq_decide]

/-- The order turns around with the operands. -/
theorem order?_swap (a b : Value) : order? b a = (order? a b).map Ordering.swap := by
  fun_cases order? a b with
  | case1 m n => exact congrArg some Std.OrientedCmp.eq_swap
  | case2 a b hne =>
    rw [order?]
    · cases a.toSingle? with
      | none => cases b.toSingle? <;> rfl
      | some x =>
        cases b.toSingle? with
        | none => rfl
        | some y => exact Binary.compare?_swap x y
    · exact fun n m hb ha => hne m n ha hb

theorem order?_nan (h : a = float .nan ∨ b = float .nan) : order? a b = none := by
  have hleft (b : Value) : order? (float .nan) b = none := by cases b <;> rfl
  rcases h with rfl | rfl
  · exact hleft b
  · rw [order?_swap, hleft, Option.map_none]

/-! ## Exact numbers -/

/-- A comparison sees of a number the nearest floating-point number. -/
theorem exists_rounded (h : a.number? = some p) :
    ∃ x, a.toSingle? = some x ∧ x.number? = some (Format.single.roundedExtended p) := by
  cases a with
  | integer n =>
    cases h
    exact ⟨_, rfl, Binary.number?_of_toRat? (Binary.toRat?_ofInt n)⟩
  | float x => exact ⟨x, rfl, h.trans (congrArg some (Binary.roundedExtended_number h).symm)⟩
  | text s => cases h

/-- The order that comparisons see. If it is strict, it is that of the exact numbers. -/
theorem exists_order (ha : a.number? = some p) (hb : b.number? = some q) :
    ∃ o, order? a b = some o ∧ (o = .lt → p < q) := by
  obtain ⟨x, hx, hp⟩ := exists_rounded ha
  obtain ⟨y, hy, hq⟩ := exists_rounded hb
  fun_cases order? a b with
  | case1 m n =>
    cases ha
    cases hb
    refine ⟨_, rfl, fun h => ?_⟩
    have hlt : m.toInt < n.toInt := compare_lt_iff_lt.1 h
    exact WithBotTop.coe_lt_coe.2 (Int.cast_lt.2 hlt)
  | case2 a b hne =>
    obtain ⟨o, ho, hlt⟩ := Binary.exists_compare (by decide) hp hq
    refine ⟨o, by simpa [hx, hy] using ho, fun h => ?_⟩
    -- Had the numbers the other order, rounding would have kept it.
    exact (Format.roundedExtended_mono _).reflect_lt (hlt h)

/-! ## Coherence -/

theorem ofBool_eq_one {t : Bool} : ofBool t = integer 1 ↔ t = true := by
  cases t <;> decide

/-- The three tests agree on one order. -/
theorem tests_of_order {o : Ordering} (ha : a.kind ≠ .text) (hb : b.kind ≠ .text)
    (ho : order? a b = some o) :
    less a b = .ok (ofBool (o = .lt)) ∧ equal a b = ofBool (o = .eq) ∧
      greater a b = .ok (ofBool (o = .gt)) := by
  rw [less, greater, ordered_eq _ _ ha hb, ordered_eq _ _ ha hb, equal_eq ha hb, ho]
  simp only [Option.some.injEq, and_self]

theorem tests_of_nan (ha : a.kind ≠ .text) (hb : b.kind ≠ .text)
    (h : a = float .nan ∨ b = float .nan) :
    less a b = .ok (integer 0) ∧ equal a b = integer 0 ∧ greater a b = .ok (integer 0) := by
  rw [less, greater, ordered_eq _ _ ha hb, ordered_eq _ _ ha hb, equal_eq ha hb, order?_nan h]
  exact ⟨rfl, rfl, rfl⟩

theorem ordered_of_text (command : Command) (order : Ordering)
    (h : a.kind = .text ∨ b.kind = .text) :
    ordered command order a b = .error (.operandKinds command [a.kind, b.kind]) := by
  unfold ordered
  split
  · rcases h with h | h <;> cases h
  · split
    · next hx hy =>
      exact absurd h (not_or.2 ⟨exists_toSingle_iff.1 ⟨_, hx⟩, exists_toSingle_iff.1 ⟨_, hy⟩⟩)
    · rfl

theorem ordered_eq_error_iff (command : Command) (order : Ordering) :
    ordered command order a b = .error (.operandKinds command [a.kind, b.kind]) ↔
      a.kind = .text ∨ b.kind = .text := by
  refine ⟨fun h => ?_, ordered_of_text command order⟩
  by_contra hne
  obtain ⟨ha, hb⟩ := not_or.1 hne
  rw [ordered_eq command order ha hb] at h
  cases h

theorem equal_of_text (h : a.kind = .text ∨ b.kind = .text) :
    equal a b = ofBool (a.render = b.render) := by
  unfold equal
  split
  · rcases h with h | h <;> cases h
  · split
    · next hx hy =>
      exact absurd h (not_or.2 ⟨exists_toSingle_iff.1 ⟨_, hx⟩, exists_toSingle_iff.1 ⟨_, hy⟩⟩)
    · rfl

/-- Comparisons are coherent.

    Exactly one of the three tests holds of two numbers; they turn around with the
    operands, and a number that tests as less is less. None of the tests holds with a
    `nan`. A text has no order, and is equal to what is written like it. -/
theorem comparisons (a b : Value) :
    (a.kind ≠ .text → b.kind ≠ .text → a ≠ float .nan → b ≠ float .nan →
      ∃ (p q : Extended) (o : Ordering), a.number? = some p ∧ b.number? = some q ∧
        less a b = .ok (ofBool (o = .lt)) ∧ equal a b = ofBool (o = .eq) ∧
        greater a b = .ok (ofBool (o = .gt)) ∧
        less a b = greater b a ∧ equal a b = equal b a ∧
        (less a b = .ok (integer 1) → p < q)) ∧
    (a.kind ≠ .text → b.kind ≠ .text → a = float .nan ∨ b = float .nan →
      less a b = .ok (integer 0) ∧ equal a b = integer 0 ∧ greater a b = .ok (integer 0)) ∧
    (less a b = .error (.operandKinds .isLt [a.kind, b.kind]) ↔
      a.kind = .text ∨ b.kind = .text) ∧
    (greater a b = .error (.operandKinds .isGt [a.kind, b.kind]) ↔
      a.kind = .text ∨ b.kind = .text) ∧
    (a.kind = .text ∨ b.kind = .text →
      equal a b = ofBool (a.render = b.render) ∧ equal a b = equal b a) := by
  refine ⟨fun hta htb hna hnb => ?_, tests_of_nan, ordered_eq_error_iff .., ordered_eq_error_iff ..,
    fun h => ?_⟩
  · obtain ⟨p, hp⟩ := exists_number hta hna
    obtain ⟨q, hq⟩ := exists_number htb hnb
    obtain ⟨o, ho, hlt⟩ := exists_order hp hq
    obtain ⟨hless, hequal, hgreater⟩ := tests_of_order hta htb ho
    have hswap : order? b a = some o.swap := by rw [order?_swap, ho, Option.map_some]
    obtain ⟨-, hequal', hgreater'⟩ := tests_of_order htb hta hswap
    refine ⟨p, q, o, hp, hq, hless, hequal, hgreater, ?_, ?_, fun h => hlt ?_⟩
    · rw [hless, hgreater']
      cases o <;> rfl
    · rw [hequal, hequal']
      cases o <;> rfl
    · rw [hless] at h
      exact of_decide_eq_true (ofBool_eq_one.1 (Except.ok.inj h))
  · refine ⟨equal_of_text h, ?_⟩
    rw [equal_of_text h, equal_of_text h.symm]
    exact congrArg ofBool (decide_eq_decide.2 eq_comm)

/-- An integer that is rounded down to be compared: it is less than a number above it, and
    equal to the one it is rounded to. -/
theorem comparisons_rounded :
    let a := integer 16777217
    let b := float (.ofInt 16777218)
    a.kind ≠ .text ∧ b.kind ≠ .text ∧ a ≠ float .nan ∧ b ≠ float .nan ∧
      less a b = .ok (integer 1) ∧
      (∃ p q : Extended, a.number? = some p ∧ b.number? = some q ∧ p < q) ∧
      equal a (float (.ofInt 16777216)) = integer 1 := by
  intro a b
  have ha : a ≠ float .nan := nofun
  have hb : b ≠ float .nan := by decide +kernel
  have hless : less a b = .ok (integer 1) := by decide +kernel
  obtain ⟨p, q, -, hp, hq, -, -, -, -, -, hlt⟩ := (comparisons a b).1 nofun nofun ha hb
  exact ⟨nofun, nofun, ha, hb, hless, ⟨p, q, hp, hq, hlt hless⟩, by decide +kernel⟩

end Value

end SimpleBatch
