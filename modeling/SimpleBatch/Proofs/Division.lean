import Mathlib.Algebra.Order.Group.Unbundled.Int
import SimpleBatch.Operator.Arithmetic

/-!
# Division of integers

The quotient of two integers is cut off toward zero, and the remainder is what the
quotient leaves of the dividend. One quotient has no place in 32 bits, that of the least
integer and `-1`: it wraps around to the least integer.

Sums and products count modulo `2 ^ 32`, so they do not tell the quotient that wraps
around from the exact one (`Value.div_mul_add_mod`). Hence quotient and remainder fit
together for all operands, without an exception (`Value.div_mod_fit`).
-/

namespace SimpleBatch.Value

variable {a b : Int32}

/-- The quotient `q` and the remainder `r` of two integers. -/
structure IsDivision (a b q r : Int32) : Prop where
  /-- The quotient times the divisor, and the remainder added to it, is the dividend. -/
  restores : (do add (← mul (integer q) (integer b)) (integer r)) = .ok (integer a)
  /-- The remainder is smaller than the divisor. -/
  abs_remainder_lt : |r.toInt| < |b.toInt|
  /-- The remainder has the sign of the dividend. -/
  sign_remainder : r = 0 ∨ r.toInt.sign = a.toInt.sign
  /-- The quotient is the exact one, cut off toward zero. -/
  quotient : ¬(a = Int32.minValue ∧ b = -1) → q.toInt = a.toInt.tdiv b.toInt
  /-- The quotient that has no place in 32 bits wraps around. -/
  quotient_wraps : a = Int32.minValue ∧ b = -1 → q = Int32.minValue

/-- An operator that is not defined for a divisor of zero, on integers. -/
theorem numeric_unlessZero (command : Command) (op : Int32 → Int32 → Int32)
    (onSingles : Single → Single → Single) (a b : Int32) :
    numeric command (unlessZero op) onSingles (integer a) (integer b) =
      if b = 0 then .error .divisionByZero else .ok (integer (op a b)) := by
  simp only [numeric, unlessZero]
  split <;> rfl

theorem div_integer (a b : Int32) :
    div (integer a) (integer b) =
      if b = 0 then .error .divisionByZero else .ok (integer (a / b)) :=
  numeric_unlessZero ..

theorem mod_integer (a b : Int32) :
    mod (integer a) (integer b) =
      if b = 0 then .error .divisionByZero else .ok (integer (a % b)) :=
  numeric_unlessZero ..

theorem add_mul_integer (q b r : Int32) :
    (do add (← mul (integer q) (integer b)) (integer r)) = .ok (integer (q * b + r)) :=
  rfl

theorem div_mul_add_mod (a b : Int32) : a / b * b + a % b = a := by
  have hexact : a.toInt.tdiv b.toInt * b.toInt + a.toInt.tmod b.toInt = a.toInt :=
    Int.tdiv_mul_add_tmod ..
  refine Int32.toInt.inj ?_
  -- The wrapped quotient stands under a product and a sum, which wrap around as well.
  simp only [Int32.toInt_add, Int32.toInt_mul, Int32.toInt_div, Int32.toInt_mod,
    Int.bmod_mul_bmod, Int.bmod_add_bmod, hexact]
  exact a.toInt_bmod

theorem abs_mod_lt (hb : b ≠ 0) : |(a % b).toInt| < |b.toInt| := by
  have hne : b.toInt.natAbs ≠ 0 := fun h => hb (Int32.toInt.inj (Int.natAbs_eq_zero.1 h))
  rw [Int32.toInt_mod, Int.abs_eq_natAbs, Int.abs_eq_natAbs, Int.natAbs_tmod]
  exact_mod_cast Nat.mod_lt _ (Nat.pos_of_ne_zero hne)

theorem sign_mod (a b : Int32) : a % b = 0 ∨ (a % b).toInt.sign = a.toInt.sign := by
  have hsign := Int.sign_tmod a.toInt b.toInt
  rw [← Int32.toInt_mod] at hsign
  split at hsign
  · exact .inl (Int32.toInt.inj (Int.sign_eq_zero_iff_zero.1 hsign))
  · exact .inr hsign

theorem toInt_div_of_not_wraps (h : ¬(a = Int32.minValue ∧ b = -1)) :
    (a / b).toInt = a.toInt.tdiv b.toInt := by
  rcases not_and_or.1 h with ha | hb
  · exact Int32.toInt_div_of_ne_left a b ha
  · exact Int32.toInt_div_of_ne_right a b hb

theorem isDivision_div_mod (a : Int32) (hb : b ≠ 0) : IsDivision a b (a / b) (a % b) where
  restores := by rw [add_mul_integer, div_mul_add_mod]
  abs_remainder_lt := abs_mod_lt hb
  sign_remainder := sign_mod a b
  quotient := toInt_div_of_not_wraps
  quotient_wraps := by
    rintro ⟨rfl, rfl⟩
    exact Int32.minValue_div_neg_one

/-- Quotient and remainder fit together.

    An integer cannot be divided by zero, neither for the quotient nor for the
    remainder. By any other integer it can be divided for both, and they make up the
    dividend again, also if the quotient wraps around. -/
theorem div_mod_fit (a b : Int32) :
    (div (integer a) (integer b) = .error .divisionByZero ↔ b = 0) ∧
    (mod (integer a) (integer b) = .error .divisionByZero ↔ b = 0) ∧
    (b ≠ 0 → ∃ q r, div (integer a) (integer b) = .ok (integer q) ∧
      mod (integer a) (integer b) = .ok (integer r) ∧ IsDivision a b q r) := by
  rw [div_integer, mod_integer]
  by_cases hb : b = 0
  · simp [hb]
  · simpa [hb] using isDivision_div_mod a hb

/-- The quotient that wraps around. -/
theorem div_mod_fit_wraps :
    div (integer Int32.minValue) (integer (-1)) = .ok (integer Int32.minValue) ∧
      mod (integer Int32.minValue) (integer (-1)) = .ok (integer 0) ∧
      IsDivision Int32.minValue (-1) Int32.minValue 0 := by
  obtain ⟨q, r, hq, hr, h⟩ := (div_mod_fit Int32.minValue (-1)).2.2 (by decide)
  have hq' : div (integer Int32.minValue) (integer (-1)) = .ok (integer Int32.minValue) := by decide
  have hr' : mod (integer Int32.minValue) (integer (-1)) = .ok (integer 0) := by decide
  cases hq.symm.trans hq'
  cases hr.symm.trans hr'
  exact ⟨hq', hr', h⟩

end SimpleBatch.Value
