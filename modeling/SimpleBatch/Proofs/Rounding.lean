import SimpleBatch.Binary.Basic
import SimpleBatch.Proofs.Nearest

/-!
# Rounding and arithmetic

Forgetting the sign of a zero, a finite number is a rational number, and an
operation on finite numbers is the exact operation followed by one rounding, as
long as the result stays in the range. Rounding is here a function on the rational
numbers, `Format.rounded`, for numbers of either sign and without an upper end:

* `Format.abs_rounded_sub_le`: it comes to a nearest number of the format;
* `Format.rounded_mono`, `Format.rounded_neg`: it keeps the order, and does the
  same on both sides of zero;
* `Format.rounded_eq_self`: it keeps the numbers of the format.

`Binary.toRat?_add` and its siblings say of each operation what it rounds, and
`Binary.lt_iff` and `Binary.le_iff` that numbers are compared as what they are.
-/

namespace SimpleBatch

theorem Rat.abs_eq (q : Rat) : q.abs = |q| := by
  unfold Rat.abs
  split
  · next h => exact (abs_of_nonneg h).symm
  · next h => exact (abs_of_neg (not_le.1 h)).symm

namespace Format

variable (f : Format)

/-- A rational number that is one of a format, of either sign and with no upper
    end. -/
def IsNumber (q : Rat) : Prop := ∃ n, f.value n = |q|

/-- The number of a format nearest to a rational number, with no upper end. -/
def rounded (q : Rat) : Rat :=
  if q < 0 then -f.value (f.nearest |q|) else f.value (f.nearest |q|)

variable {f} {p q : Rat}

theorem isNumber_value (n : Nat) : f.IsNumber (f.value n) :=
  ⟨n, (abs_of_nonneg (f.value_nonneg n)).symm⟩

theorem IsNumber.neg (h : f.IsNumber q) : f.IsNumber (-q) := by
  rwa [IsNumber, abs_neg]

/-- A number of a format is a significand with a sign, times a power of two. -/
theorem IsNumber.exists_eq_mul (h : f.IsNumber q) :
    ∃ (z : Int) (k : Nat), q = z * 2 ^ (f.minExponent + k) ∧ z.natAbs ≤ 2 * f.binade := by
  obtain ⟨n, hn⟩ := h
  obtain ⟨k, r, rfl, hr, hk⟩ := f.exists_eq_add n
  rw [f.value_add hr.le hk] at hn
  rcases abs_cases q with ⟨hq, -⟩ | ⟨hq, -⟩
  · exact ⟨r, k, by rw [Int.cast_natCast, hn, hq], by omega⟩
  · exact ⟨-r, k, by rw [Int.cast_neg, Int.cast_natCast, neg_mul, hn, hq, neg_neg], by omega⟩

theorem abs_intCast_mul_zpow (z e : Int) : |(z : Rat) * 2 ^ e| = z.natAbs * 2 ^ e := by
  have hpos : (0 : Rat) < 2 ^ e := zpow_pos two_pos e
  rw [abs_mul, abs_of_pos hpos, Nat.cast_natAbs, Int.cast_abs]

/-- A significand times a power of two is a number, if there is room for both. -/
theorem isNumber_mul_zpow {z e : Int} (hz : z.natAbs ≤ 2 * f.binade) (he : f.minExponent ≤ e) :
    f.IsNumber (z * 2 ^ e) := by
  obtain ⟨n, hn⟩ := f.exists_value_eq hz he
  exact ⟨n, hn.trans (abs_intCast_mul_zpow z e).symm⟩

theorem isNumber_pow (hf : f.minExponent ≤ 0) (e : Nat) : f.IsNumber (2 ^ e) := by
  have hone : (1 : Int).natAbs ≤ 2 * f.binade := by
    have := f.binade_pos
    omega
  simpa using isNumber_mul_zpow (e := e) hone (by omega)

/-- An integer is a number of a format if it has few enough bits. -/
theorem isNumber_intCast {z : Int} (hz : z.natAbs ≤ 2 * f.binade) (hf : f.minExponent ≤ 0) :
    f.IsNumber z := by
  simpa using isNumber_mul_zpow hz hf

theorem rounded_of_nonneg (h : 0 ≤ q) : f.rounded q = f.value (f.nearest q) := by
  rw [rounded, if_neg (not_lt.2 h), abs_of_nonneg h]

theorem nearest_zero : f.nearest 0 = 0 := by
  simpa [f.value_zero] using f.nearest_value 0

theorem rounded_zero : f.rounded 0 = 0 := by
  rw [rounded_of_nonneg le_rfl, nearest_zero, f.value_zero]

theorem rounded_neg (q : Rat) : f.rounded (-q) = -f.rounded q := by
  rcases lt_trichotomy q 0 with h | rfl | h
  · rw [rounded, if_neg (by linarith), rounded, if_pos h, abs_neg, neg_neg]
  · rw [neg_zero, rounded_zero, neg_zero]
  · rw [rounded, if_pos (by linarith), rounded, if_neg (by linarith), abs_neg]

theorem isNumber_rounded (q : Rat) : f.IsNumber (f.rounded q) := by
  unfold rounded
  split
  · exact (isNumber_value _).neg
  · exact isNumber_value _

/-- No number of the format is nearer than the one rounded to. -/
theorem abs_rounded_sub_le (hp : f.IsNumber p) (q : Rat) : |f.rounded q - q| ≤ |p - q| := by
  have key : ∀ {p q : Rat}, f.IsNumber p → 0 ≤ q → |f.rounded q - q| ≤ |p - q| := by
    rintro p q ⟨n, hn⟩ hq
    have h := f.abs_value_nearest_sub_le hq n
    rw [hn] at h
    rw [rounded_of_nonneg hq]
    -- On the other side of zero a number is farther away.
    refine h.trans ?_
    simpa [abs_of_nonneg hq] using abs_abs_sub_abs_le p q
  rcases le_total 0 q with hq | hq
  · exact key hp hq
  · have h := key hp.neg (neg_nonneg.2 hq)
    rwa [rounded_neg, neg_sub_neg, neg_sub_neg, abs_sub_comm, abs_sub_comm q] at h

theorem rounded_eq_self (h : f.IsNumber q) : f.rounded q = q := by
  have hle := abs_rounded_sub_le h q
  rw [sub_self, abs_zero, abs_nonpos_iff, sub_eq_zero] at hle
  exact hle

theorem rounded_mono (h : p ≤ q) : f.rounded p ≤ f.rounded q := by
  by_contra hlt
  have hlt := not_le.1 hlt
  have hp := add_le_of_abs_sub_le hlt (abs_rounded_sub_le (isNumber_rounded q) p)
  have hq := le_add_of_abs_sub_le hlt (abs_rounded_sub_le (isNumber_rounded p) q)
  have hpq : p = q := by linarith
  exact hlt.ne (hpq ▸ rfl)

theorem abs_rounded_le (hp : f.IsNumber p) (h : |q| ≤ p) : |f.rounded q| ≤ p := by
  obtain ⟨hlow, hhigh⟩ := abs_le.1 h
  refine abs_le.2 ⟨?_, ?_⟩
  · rw [← rounded_eq_self hp.neg]
    exact rounded_mono hlow
  · exact (rounded_mono hhigh).trans_eq (rounded_eq_self hp)

/-- Where all integers are numbers, rounding goes by at most one half. -/
theorem abs_rounded_sub_le_half (hf : f.minExponent ≤ 0) (h : |q| ≤ (2 * f.binade : Nat)) :
    |f.rounded q - q| ≤ 1 / 2 :=
  (abs_rounded_sub_le (isNumber_intCast (isRounding_roundEven.natAbs_le h) hf) q).trans
    (abs_roundEven_sub_le_half q)

theorem rounded_nonneg (h : 0 ≤ q) : 0 ≤ f.rounded q :=
  rounded_zero.symm.trans_le (rounded_mono h)

theorem rounded_nonpos (h : q ≤ 0) : f.rounded q ≤ 0 :=
  (rounded_mono h).trans_eq rounded_zero

end Format

namespace Binary

variable {f : Format} {x y : Binary f} {a b q : Rat} {negative : Bool}

/-! ## Signs -/

/-- A sign that a rational number can have; a zero can have both. -/
def HasSign (negative : Bool) (q : Rat) : Prop :=
  if negative then q ≤ 0 else 0 ≤ q

theorem hasSign_signedValue (negative : Bool) (n : Fin f.infinity) :
    HasSign negative (signedValue negative n) := by
  have := f.value_nonneg n
  cases negative <;> simpa [HasSign, signedValue] using this

theorem HasSign.mul {s t : Bool} (ha : HasSign s a) (hb : HasSign t b) :
    HasSign (s ^^ t) (a * b) := by
  cases s <;> cases t
  · exact mul_nonneg ha hb
  · exact mul_nonpos_of_nonneg_of_nonpos ha hb
  · exact mul_nonpos_of_nonpos_of_nonneg ha hb
  · exact mul_nonneg_of_nonpos_of_nonpos ha hb

theorem HasSign.inv (ha : HasSign negative a) : HasSign negative a⁻¹ := by
  cases negative
  · exact inv_nonneg.2 ha
  · exact inv_nonpos.2 ha

theorem HasSign.rule {rule : Rat → Int} (hrule : IsRounding rule) (ha : HasSign negative a) :
    HasSign negative (rule a : Int) := by
  have hzero : rule 0 = 0 := hrule.intCast 0
  cases negative
  · exact Int.cast_nonneg (hzero.symm.trans_le (hrule.mono ha))
  · exact Int.cast_nonpos.2 ((hrule.mono ha).trans_eq hzero)

theorem hasSign_lt_zero (q : Rat) : HasSign (q < 0) q := by
  by_cases hlt : q < 0
  · simpa [HasSign, hlt] using hlt.le
  · simpa [HasSign, hlt] using not_lt.1 hlt

theorem hasSign_sum (s t : Bool) (q : Rat) :
    HasSign (if q = 0 then s && t else q < 0) q := by
  by_cases hq : q = 0
  · simp [hq, HasSign]
  · rw [if_neg hq]
    exact hasSign_lt_zero q

/-! ## Rounded results -/

/-- A finite number is a signed magnitude. -/
theorem eq_finite_of_toRat? (h : x.toRat? = some a) :
    ∃ negative n, x = finite negative n ∧ signedValue negative n = a := by
  cases x with
  | nan => cases h
  | infinite => cases h
  | finite negative n => exact ⟨negative, n, rfl, Option.some.inj h⟩

theorem isNumber_of_toRat? (h : x.toRat? = some a) : f.IsNumber a := by
  obtain ⟨negative, n, -, rfl⟩ := eq_finite_of_toRat? h
  cases negative
  · exact Format.isNumber_value n
  · exact (Format.isNumber_value n).neg

theorem abs_signedValue (negative : Bool) (n : Fin f.infinity) :
    |signedValue negative n| = f.value n := by
  cases negative <;> simp [signedValue, abs_of_nonneg (f.value_nonneg n)]

theorem nearest_abs_lt (h : x.toRat? = some a) : f.nearest |a| < f.infinity := by
  obtain ⟨negative, n, -, rfl⟩ := eq_finite_of_toRat? h
  rw [abs_signedValue, f.nearest_value]
  exact n.isLt

/-- The number of a signed magnitude is rounded to that magnitude. -/
theorem round_signedValue (negative : Bool) (n : Fin f.infinity) :
    round negative (signedValue negative n) = finite negative n := by
  rw [round, Rat.abs_eq, abs_signedValue, f.nearest_value, ofMagnitude, dif_pos n.isLt]

/-- Finite numbers lie below the power of two that infinity stands for. -/
theorem abs_lt_of_toRat? (hf : 0 < f.exponentBits) (h : x.toRat? = some a) :
    |a| < 2 ^ 2 ^ (f.exponentBits - 1) := by
  obtain ⟨negative, n, -, rfl⟩ := eq_finite_of_toRat? h
  have hn := f.value_strictMono n.isLt
  rwa [f.value_infinity hf, zpow_natCast, ← abs_signedValue negative] at hn

/-- A number is rounded to a finite one if its magnitude is below infinity. -/
theorem toRat?_round (hs : HasSign negative q) (h : f.nearest |q| < f.infinity) :
    (round negative q : Binary f).toRat? = some (f.rounded q) := by
  rw [round, Rat.abs_eq, ofMagnitude, dif_pos h, toRat?, signedValue]
  congr 1
  cases negative
  · have hq : ¬q < 0 := not_lt.2 hs
    simp [Format.rounded, hq]
  · rcases (show q ≤ 0 from hs).eq_or_lt with rfl | hq
    · simp [Format.rounded_zero, Format.nearest_zero, f.value_zero]
    · simp [Format.rounded, hq]

/-- Beyond the range, a number is rounded to an infinity. -/
theorem round_eq_infinite (h : ¬f.nearest |q| < f.infinity) :
    (round negative q : Binary f) = infinite negative := by
  rw [round, Rat.abs_eq, ofMagnitude, dif_neg h]

theorem toRat?_ofRat (h : f.nearest |q| < f.infinity) :
    (ofRat q : Binary f).toRat? = some (f.rounded q) :=
  toRat?_round (hasSign_lt_zero q) h

/-- An integer of 32 bits is rounded without leaving the range. -/
theorem toRat?_ofInt (n : Int32) :
    (ofInt n.toInt : Single).toRat? = some (Format.single.rounded n.toInt) :=
  toRat?_ofRat (Format.nearest_toInt_lt n)

/-- An integer of up to 24 bits is not rounded at all. -/
theorem toRat?_ofInt_of_le {z : Int} (h : z.natAbs ≤ 2 ^ 24) :
    (ofInt z : Single).toRat? = some (z : Rat) := by
  have hnumber : Format.single.IsNumber z := Format.isNumber_intCast h (by decide)
  have hfinite := Format.nearest_intCast_lt (h.trans (by decide))
  rw [ofInt, toRat?_ofRat hfinite, Format.rounded_eq_self hnumber]

theorem round_abs (negative : Bool) (q : Rat) :
    (round negative |q| : Binary f) = round negative q := by
  rw [round, round, Rat.abs_eq, Rat.abs_eq, abs_abs]

theorem toRat?_neg (hx : x.toRat? = some a) : x.neg.toRat? = some (-a) := by
  obtain ⟨s, n, rfl, rfl⟩ := eq_finite_of_toRat? hx
  cases s <;> simp [neg, toRat?, signedValue]

theorem toRat?_add (hx : x.toRat? = some a) (hy : y.toRat? = some b)
    (h : f.nearest |a + b| < f.infinity) : (x.add y).toRat? = some (f.rounded (a + b)) := by
  obtain ⟨s, m, rfl, rfl⟩ := eq_finite_of_toRat? hx
  obtain ⟨t, n, rfl, rfl⟩ := eq_finite_of_toRat? hy
  exact toRat?_round (hasSign_sum s t _) h

theorem toRat?_sub (hx : x.toRat? = some a) (hy : y.toRat? = some b)
    (h : f.nearest |a - b| < f.infinity) : (x.sub y).toRat? = some (f.rounded (a - b)) := by
  rw [sub_eq_add_neg] at h ⊢
  exact toRat?_add hx (toRat?_neg hy) h

theorem toRat?_mul (hx : x.toRat? = some a) (hy : y.toRat? = some b)
    (h : f.nearest |a * b| < f.infinity) : (x.mul y).toRat? = some (f.rounded (a * b)) := by
  obtain ⟨s, m, rfl, rfl⟩ := eq_finite_of_toRat? hx
  obtain ⟨t, n, rfl, rfl⟩ := eq_finite_of_toRat? hy
  exact toRat?_round ((hasSign_signedValue s m).mul (hasSign_signedValue t n)) h

theorem toRat?_div (hx : x.toRat? = some a) (hy : y.toRat? = some b) (hb : b ≠ 0)
    (h : f.nearest |a / b| < f.infinity) : (x.div y).toRat? = some (f.rounded (a / b)) := by
  obtain ⟨s, m, rfl, rfl⟩ := eq_finite_of_toRat? hx
  obtain ⟨t, n, rfl, rfl⟩ := eq_finite_of_toRat? hy
  have hn : n.val ≠ 0 := by
    intro hn
    apply hb
    simp [signedValue, hn, f.value_zero]
  have hdiv : (finite s m).div (finite t n) =
      round (s ^^ t) (signedValue s m / signedValue t n) := if_neg hn
  rw [div_eq_mul_inv] at h hdiv ⊢
  rw [hdiv]
  exact toRat?_round ((hasSign_signedValue s m).mul (hasSign_signedValue t n).inv) h

theorem toRat?_integral {rule : Rat → Int} (hrule : IsRounding rule) (hx : x.toRat? = some a)
    (h : f.nearest |(rule a : Rat)| < f.infinity) :
    (x.integral rule).toRat? = some (f.rounded (rule a)) := by
  obtain ⟨s, n, rfl, rfl⟩ := eq_finite_of_toRat? hx
  exact toRat?_round ((hasSign_signedValue s n).rule hrule) h

theorem toRat?_floor (hx : x.toRat? = some a) (h : f.nearest |(⌊a⌋ : Rat)| < f.infinity) :
    x.floor.toRat? = some (f.rounded ⌊a⌋) :=
  toRat?_integral isRounding_floor hx h

theorem toRat?_convert {g : Format} (hx : x.toRat? = some a) (h : g.nearest |a| < g.infinity) :
    (x.convert g).toRat? = some (g.rounded a) := by
  obtain ⟨s, n, rfl, rfl⟩ := eq_finite_of_toRat? hx
  exact toRat?_round (hasSign_signedValue s n) h

/-- A finite number is converted to the nearest number of another format, and
    beyond its range to an infinity. -/
theorem convert_cases {g : Format} (hg : 0 < g.infinity) (hx : x.toRat? = some a) :
    (x.convert g).toRat? = some (g.rounded a) ∨ 0 < a ∧ x.convert g = infinite false ∨
      a < 0 ∧ x.convert g = infinite true := by
  by_cases h : g.nearest |a| < g.infinity
  · exact .inl (toRat?_convert hx h)
  right
  have ha : a ≠ 0 := by
    rintro rfl
    rw [abs_zero, Format.nearest_zero] at h
    exact h hg
  obtain ⟨s, n, rfl, rfl⟩ := eq_finite_of_toRat? hx
  have hinfinite : (finite s n).convert g = infinite s := round_eq_infinite h
  have hs := hasSign_signedValue s n
  cases s
  · exact .inl ⟨lt_of_le_of_ne hs ha.symm, hinfinite⟩
  · exact .inr ⟨lt_of_le_of_ne hs ha, hinfinite⟩

/-! ## Order -/

/-- The rational number at a place among the numbers of a format. -/
def atPlace (f : Format) (p : Int) : Rat :=
  if p < 0 then -f.value p.natAbs else f.value p.natAbs

theorem atPlace_lt_iff {p q : Int} : atPlace f p < atPlace f q ↔ p < q := by
  have hmono : StrictMono (atPlace f) := by
    refine strictMono_int_of_lt_succ fun p => ?_
    unfold atPlace
    rcases lt_trichotomy p (-1) with hp | rfl | hp
    · rw [if_pos (by omega), if_pos (by omega), neg_lt_neg_iff, f.value_strictMono.lt_iff_lt]
      omega
    · have := f.value_strictMono Nat.zero_lt_one
      simpa [f.value_zero] using this
    · rw [if_neg (by omega), if_neg (by omega), f.value_strictMono.lt_iff_lt]
      omega
  exact hmono.lt_iff_lt

theorem exists_place (hx : x.toRat? = some a) : ∃ p, x.place? = some p ∧ atPlace f p = a := by
  obtain ⟨s, n, rfl, rfl⟩ := eq_finite_of_toRat? hx
  refine ⟨_, rfl, ?_⟩
  cases s
  · simp [atPlace, signedValue]
  · rcases Nat.eq_zero_or_pos n.val with hn | hn
    · simp [atPlace, signedValue, hn, f.value_zero]
    · simp [atPlace, signedValue, hn]

/-- Finite numbers are compared as rational numbers. -/
theorem lt_iff (hx : x.toRat? = some a) (hy : y.toRat? = some b) : x.lt y ↔ a < b := by
  obtain ⟨m, hm, rfl⟩ := exists_place hx
  obtain ⟨n, hn, rfl⟩ := exists_place hy
  rw [atPlace_lt_iff]
  simp [lt, compare?, hm, hn, compare_lt_iff_lt]

theorem le_iff (hx : x.toRat? = some a) (hy : y.toRat? = some b) : x.le y ↔ a ≤ b := by
  obtain ⟨m, hm, rfl⟩ := exists_place hx
  obtain ⟨n, hn, rfl⟩ := exists_place hy
  rw [← not_lt, atPlace_lt_iff, not_lt]
  simp [le, compare?, hm, hn, compare_lt_iff_lt, le_iff_lt_or_eq]

theorem le_infinite (hx : x.toRat? = some a) : x.le (infinite false) := by
  obtain ⟨s, n, rfl, -⟩ := eq_finite_of_toRat? hx
  have hn := n.isLt
  cases s
  · simp [le, compare?, place?, compare_lt_iff_lt]
  · simp [le, compare?, place?, compare_lt_iff_lt]
    omega

theorem infinite_le (hx : x.toRat? = some a) : (infinite true).le x := by
  obtain ⟨s, n, rfl, -⟩ := eq_finite_of_toRat? hx
  have hn := n.isLt
  cases s
  · simp [le, compare?, place?, compare_lt_iff_lt]
    omega
  · simp [le, compare?, place?, compare_lt_iff_lt]

theorem toRat?_zero (h : 0 < f.infinity) : (zero : Binary f).toRat? = some 0 := by
  simp [zero, ofMagnitude, h, toRat?, signedValue, f.value_zero]

end Binary

end SimpleBatch
