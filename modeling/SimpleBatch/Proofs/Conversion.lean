import Mathlib.Algebra.Group.Int.Even
import SimpleBatch.Operator.Conversion
import SimpleBatch.Proofs.Rounding

/-!
# Conversions to integers

A floating-point number is converted to an integer in two steps. A way of rounding makes
it an integral number, which is floating-point as well, and that number is cut off at the
ends of the range of 32 bits. The first step is exact: a number is an integer already, or
it is so small that all integers of its size are numbers of the format. So the result is
the integer that the rounding gives for the exact number, but for the ends of the range.

An infinity is cut off like the power of two after the largest number. Hence the result
depends on nothing but the place of a number among all others, and keeps its order.

* `Binary.toRat?_integral_eq`: a number is made integral without a further rounding;
* `Value.toInt_toInt32_integral`: the result, by the place of a number;
* `Value.converts_toInteger`: a conversion by a way of rounding;
* `Value.conversions`: the three conversions, and how they lie to each other.
-/

namespace SimpleBatch

/-! ## Ways of rounding -/

/-- An integer is nearest to a number, and even if another one is as near. -/
structure IsNearestEven (q : Rat) (z : Int) : Prop where
  nearest : ∀ w : Int, |(z : Rat) - q| ≤ |(w : Rat) - q|
  even_of_tie : ∀ w : Int, w ≠ z → |(w : Rat) - q| = |(z : Rat) - q| → Even z

/-- Only from the middle between two integers two of them are nearest. -/
theorem fract_eq_of_tie {q : Rat} {w : Int} (hne : w ≠ roundEven q)
    (htie : |(w : Rat) - q| = |(roundEven q : Rat) - q|) : Int.fract q = 1 / 2 := by
  have hone : (1 : Rat) ≤ |(w : Rat) - roundEven q| := by
    exact_mod_cast Int.one_le_abs (sub_ne_zero.2 hne)
  have htriangle := abs_sub_le (w : Rat) q (roundEven q)
  rw [htie, abs_sub_comm q, abs_roundEven_sub] at htriangle
  have hleft := min_le_left (Int.fract q) (1 - Int.fract q)
  have hright := min_le_right (Int.fract q) (1 - Int.fract q)
  linarith

theorem even_roundEven {q : Rat} (h : Int.fract q = 1 / 2) : Even (roundEven q) := by
  have hrest : q - (q.floor : Rat) = 1 / 2 := h
  simp only [roundEven, hrest, lt_irrefl, if_false]
  split
  · next heven => exact Int.even_iff.2 heven
  · next hodd => exact Int.even_add_one.2 (mt Int.even_iff.1 hodd)

theorem isNearestEven_roundEven (q : Rat) : IsNearestEven q (roundEven q) where
  nearest := abs_roundEven_sub_le q
  even_of_tie _ hne htie := even_roundEven (fract_eq_of_tie hne htie)

theorem Rat.ceil_eq (q : Rat) : q.ceil = ⌈q⌉ :=
  Rat.ceil_eq_neg_floor_neg q

theorem isRounding_ceil : IsRounding Rat.ceil where
  mono p q h := by
    rw [Rat.ceil_eq, Rat.ceil_eq]
    exact Int.ceil_mono h
  intCast := Rat.ceil_intCast

/-- Every way of rounding lies between rounding down and rounding up. -/
theorem IsRounding.bounds {rule : Rat → Int} (hrule : IsRounding rule) (q : Rat) :
    ⌊q⌋ ≤ rule q ∧ rule q ≤ ⌈q⌉ := by
  have hlow := hrule.mono (Int.floor_le q)
  have hhigh := hrule.mono (Int.le_ceil q)
  rw [hrule.intCast] at hlow hhigh
  exact ⟨hlow, hhigh⟩

/-! ## Integral numbers -/

namespace Format

variable {f : Format} {q : Rat}

/-- A number of a format is an integer, or small enough to have a fraction. -/
theorem IsNumber.exists_intCast_or_le (h : f.IsNumber q) : (∃ z : Int, q = z) ∨ |q| ≤ f.binade := by
  obtain ⟨z, k, rfl, hz⟩ := h.exists_eq_mul
  rcases le_or_gt 0 (f.minExponent + k) with he | he
  · left
    obtain ⟨e, he⟩ := Int.eq_ofNat_of_zero_le he
    refine ⟨z * 2 ^ e, ?_⟩
    rw [he, zpow_natCast]
    push_cast
    rfl
  · right
    calc |(z : Rat) * 2 ^ (f.minExponent + k)| = z.natAbs * (2 : Rat) ^ (f.minExponent + k) :=
          abs_intCast_mul_zpow z _
      _ ≤ (2 * f.binade : Nat) * 2 ^ (-1 : Int) := by
          gcongr
          · exact one_le_two
          · omega
      _ = f.binade := by
          push_cast
          ring

end Format

namespace Binary

variable {x : Single} {a : Rat} {rule : Rat → Int}

/-- A number is made integral without a further rounding. -/
theorem toRat?_integral_eq (hrule : IsRounding rule) (hx : x.toRat? = some a) :
    (x.integral rule).toRat? = some (rule a : Rat) := by
  rcases (isNumber_of_toRat? hx).exists_intCast_or_le with ⟨z, rfl⟩ | hle
  · have hz : rule (z : Rat) = z := hrule.intCast z
    rw [toRat?_integral hrule hx (by rw [hz]; exact nearest_abs_lt hx), hz,
      Format.rounded_eq_self (isNumber_of_toRat? hx)]
  · have hbound := hrule.natAbs_le hle
    have hbinade : Format.single.binade = 2 ^ 23 := rfl
    have hnumber : Format.single.IsNumber (rule a) :=
      Format.isNumber_intCast (hbound.trans (by omega)) (by decide)
    have hfinite := Format.nearest_intCast_lt (hbound.trans (by omega))
    rw [toRat?_integral hrule hx hfinite, Format.rounded_eq_self hnumber]

/-- Infinity is at the place of the power of two after the largest number. -/
theorem atPlace_infinity (negative : Bool) :
    atPlace .single (if negative then -(Format.single.infinity : Int) else Format.single.infinity) =
      ((if negative then -2 ^ 128 else 2 ^ 128 : Int) : Rat) := by
  have hvalue : Format.single.value Format.single.infinity = 2 ^ 128 :=
    Format.single.value_infinity (by decide)
  have hpos : 0 < Format.single.infinity := by decide
  cases negative
  · norm_num [atPlace, hvalue]
  · norm_num [atPlace, hvalue, hpos]

theorem atPlace_mono {f : Format} {m n : Int} (h : m ≤ n) : atPlace f m ≤ atPlace f n :=
  not_lt.1 (mt atPlace_lt_iff.1 (not_lt.2 h))

theorem exists_place_le {f : Format} {x y : Binary f} (h : x.le y) :
    ∃ m n, x.place? = some m ∧ y.place? = some n ∧ m ≤ n := by
  cases hx : x.place? with
  | none => simp [le, compare?, hx] at h
  | some m =>
    cases hy : y.place? with
    | none => simp [le, compare?, hx, hy] at h
    | some n =>
      refine ⟨m, n, rfl, rfl, le_iff_lt_or_eq.2 ?_⟩
      simpa [le, compare?, hx, hy, compare_lt_iff_lt] using h

end Binary

namespace Value

open Binary

/-! ## The ends of the range -/

/-- The integer of 32 bits that is nearest to an integer. -/
def saturated (z : Int) : Int := max (-2 ^ 31) (min z (2 ^ 31 - 1))

theorem saturated_mono {y z : Int} (h : y ≤ z) : saturated y ≤ saturated z := by
  unfold saturated
  omega

theorem saturated_add_one_le (z : Int) : saturated (z + 1) ≤ saturated z + 1 := by
  unfold saturated
  omega

theorem toInt_ofIntClamp (z : Int) : (Int32.ofIntClamp z).toInt = saturated z := by
  have hmin : Int32.minValue.toInt = -2 ^ 31 := by decide
  have hmax : Int32.maxValue.toInt = 2 ^ 31 - 1 := by decide
  unfold Int32.ofIntClamp saturated
  split
  · split
    · rw [Int32.toInt_ofIntLE]
      omega
    · omega
  · omega

theorem truncated_intCast (z : Int) : truncated z = z := by
  rw [truncated, Rat.num_intCast, Rat.den_intCast, Nat.cast_one, Int.tdiv_one]

variable {x : Single} {rule : Rat → Int}

theorem toInt_toInt32 {z : Int} (hx : x.toRat? = some (z : Rat)) :
    x.toInt32.toInt = saturated z := by
  obtain ⟨s, n, rfl, hz⟩ := eq_finite_of_toRat? hx
  rw [toInt32, hz, truncated_intCast, toInt_ofIntClamp]

/-- What a number is converted to depends on its place only. -/
theorem toInt_toInt32_integral (hrule : IsRounding rule) {p : Int} (hx : x.place? = some p) :
    (x.integral rule).toInt32.toInt = saturated (rule (atPlace .single p)) := by
  cases x with
  | nan => cases hx
  | infinite negative =>
    cases hx
    rw [atPlace_infinity, hrule.intCast]
    have hmin : Int32.minValue.toInt = saturated (-2 ^ 128) := by decide
    have hmax : Int32.maxValue.toInt = saturated (2 ^ 128) := by decide
    cases negative
    · exact hmax
    · exact hmin
  | finite negative n =>
    obtain ⟨m, hm, hvalue⟩ := exists_place (x := finite negative n) rfl
    cases hx.symm.trans hm
    rw [hvalue]
    exact toInt_toInt32 (toRat?_integral_eq hrule rfl)

/-! ## Conversions -/

/-- A conversion of values to integers of 32 bits, by what it rounds numbers to. -/
structure Converts (convert : Value → Except Fault Value) (command : Command)
    (Rounds : Rat → Int → Prop) : Prop where
  /-- A finite number is rounded exactly, up to the ends of the range. -/
  finite : ∀ (x : Single) (q : Rat), x.toRat? = some q →
    ∃ (n : Int32) (z : Int), convert (float x) = .ok (integer n) ∧ Rounds q z ∧
      n.toInt = saturated z
  infinite : ∀ negative, convert (float (.infinite negative)) =
    .ok (integer (if negative then Int32.minValue else Int32.maxValue))
  nan : convert (float .nan) = .ok (integer 0)
  /-- Numbers are converted in their order. -/
  mono : ∀ x y : Single, x.le y → ∃ m n, convert (float x) = .ok (integer m) ∧
    convert (float y) = .ok (integer n) ∧ m ≤ n
  integer : ∀ n, convert (integer n) = .ok (integer n)
  text : ∀ s, convert (text s) = .error (.operandKinds command [.text])

theorem converts_toInteger (command : Command) (hrule : IsRounding rule) {Rounds : Rat → Int → Prop}
    (hrounds : ∀ q, Rounds q (rule q)) :
    Converts (toInteger command (integral rule)) command Rounds where
  finite x q hx := ⟨_, rule q, rfl, hrounds q, toInt_toInt32 (toRat?_integral_eq hrule hx)⟩
  infinite _ := rfl
  nan := rfl
  mono x y h := by
    obtain ⟨m, n, hm, hn, hle⟩ := exists_place_le h
    refine ⟨_, _, rfl, rfl, Int32.le_iff_toInt_le.2 ?_⟩
    rw [toInt_toInt32_integral hrule hm, toInt_toInt32_integral hrule hn]
    exact saturated_mono (hrule.mono (atPlace_mono hle))
  integer _ := rfl
  text _ := rfl

theorem exists_place_of_ne_nan (h : x ≠ .nan) : ∃ p, x.place? = some p := by
  cases x with
  | nan => exact absurd rfl h
  | infinite negative => exact ⟨_, rfl⟩
  | finite negative n => exact ⟨_, rfl⟩

/-- Floating-point numbers are converted to integers exactly.

    The three conversions give the greatest integer that is not greater, the nearest one
    and the least one that is not less, up to the ends of the range. They give zero for a
    `nan` and keep the order of all other numbers. Of such a number, the nearest integer
    lies between the other two, which differ by one at most. -/
theorem conversions :
    Converts floor .toInt (fun q z => z = ⌊q⌋) ∧ Converts round .rnd IsNearestEven ∧
    Converts ceil .ceil (fun q z => z = ⌈q⌉) ∧
    ∀ x : Single, x ≠ .nan → ∃ l m u : Int32, floor (float x) = .ok (integer l) ∧
      round (float x) = .ok (integer m) ∧ ceil (float x) = .ok (integer u) ∧
      l ≤ m ∧ m ≤ u ∧ u.toInt ≤ l.toInt + 1 := by
  refine ⟨converts_toInteger .toInt isRounding_floor fun _ => rfl,
    converts_toInteger .rnd isRounding_roundEven isNearestEven_roundEven,
    converts_toInteger .ceil isRounding_ceil Rat.ceil_eq, fun x hx => ?_⟩
  obtain ⟨p, hp⟩ := exists_place_of_ne_nan hx
  obtain ⟨hlow, hhigh⟩ := isRounding_roundEven.bounds (atPlace .single p)
  have hfloor := toInt_toInt32_integral isRounding_floor hp
  have hround := toInt_toInt32_integral isRounding_roundEven hp
  have hceil := toInt_toInt32_integral isRounding_ceil hp
  rw [Rat.ceil_eq] at hceil
  refine ⟨_, _, _, rfl, rfl, rfl, Int32.le_iff_toInt_le.2 ?_, Int32.le_iff_toInt_le.2 ?_, ?_⟩
  · exact hfloor.trans_le ((saturated_mono hlow).trans_eq hround.symm)
  · exact hround.trans_le ((saturated_mono hhigh).trans_eq hceil.symm)
  · have hstep := saturated_mono (Int.ceil_le_floor_add_one (atPlace .single p))
    exact hceil.trans_le ((hstep.trans (saturated_add_one_le _)).trans_eq
      (congrArg (· + 1) hfloor.symm))

/-- A number in the middle between two integers, and an infinity above it. -/
theorem conversions_tie :
    let x : Single := .ofRat (-5 / 2)
    x ≠ .nan ∧ x.toRat? = some (-5 / 2) ∧ x.le (.infinite false) ∧
      floor (float x) = .ok (integer (-3)) ∧ round (float x) = .ok (integer (-2)) ∧
      ceil (float x) = .ok (integer (-2)) ∧
      (∃ l m u : Int32, floor (float x) = .ok (integer l) ∧ round (float x) = .ok (integer m) ∧
        ceil (float x) = .ok (integer u) ∧ l ≤ m ∧ m ≤ u ∧ u.toInt ≤ l.toInt + 1) ∧
      ∃ m n, round (float x) = .ok (integer m) ∧
        round (float (.infinite false)) = .ok (integer n) ∧ m ≤ n := by
  intro x
  have hx : x ≠ .nan := by decide +kernel
  have hle : x.le (.infinite false) := by decide +kernel
  exact ⟨hx, by decide +kernel, hle, by decide +kernel, by decide +kernel, by decide +kernel,
    conversions.2.2.2 x hx, conversions.2.1.mono x _ hle⟩

end Value

end SimpleBatch
