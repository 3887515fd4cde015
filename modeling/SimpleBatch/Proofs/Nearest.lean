import Mathlib.Algebra.Order.Field.Power
import Mathlib.Algebra.Order.Round
import Mathlib.Data.Nat.Log
import Mathlib.Data.Rat.Floor
import Mathlib.Tactic.Linarith
import Mathlib.Tactic.Positivity
import SimpleBatch.Binary.Format

/-!
# Nearest magnitudes

The magnitudes of a format are laid out in *binades*: up to the first power of
two they are the multiples of the least positive number, and between any two
later powers of two there are as many of them, evenly spaced. So a magnitude is
an exponent and a significand (`Format.exists_eq_add`), its number is their
product (`Format.value_add`), and the numbers grow with the magnitudes
(`Format.value_strictMono`).

Rounding looks only at the multiples of one power of two. It comes to the nearest
of all magnitudes nevertheless (`Format.abs_value_nearest_sub_le`), as those on
finer grids lie below the binade of the number. All else follows from this:

* `Format.nearest_value`: a magnitude is nearest to its own number;
* `Format.nearest_mono`: rounding keeps the order;
* `Format.nearest_lt_infinity`: numbers in the range round to finite ones.
-/

namespace SimpleBatch

/-! ## Rounding to integers -/

/-- A number that is not nearer to the smaller of two is not below their middle. -/
theorem add_le_of_abs_sub_le {a b x : Rat} (hab : a < b) (h : |b - x| ≤ |a - x|) :
    a + b ≤ 2 * x := by
  have hsq := sq_le_sq.2 h
  nlinarith

theorem le_add_of_abs_sub_le {a b x : Rat} (hab : a < b) (h : |a - x| ≤ |b - x|) :
    2 * x ≤ a + b := by
  have hsq := sq_le_sq.2 h
  nlinarith

theorem abs_roundEven_sub (q : Rat) :
    |(roundEven q : Rat) - q| = min (Int.fract q) (1 - Int.fract q) := by
  have hrest : q - (q.floor : Rat) = Int.fract q := rfl
  have h0 := Int.fract_nonneg q
  have h1 := Int.fract_lt_one q
  have hbelow : |(q.floor : Rat) - q| = Int.fract q := by
    rw [abs_sub_comm, hrest, abs_of_nonneg h0]
  have habove : |((q.floor + 1 : Int) : Rat) - q| = 1 - Int.fract q := by
    have : ((q.floor + 1 : Int) : Rat) - q = 1 - Int.fract q := by
      rw [← hrest]
      push_cast
      ring
    rw [this, abs_of_nonneg (by linarith)]
  unfold roundEven
  simp only [hrest]
  split_ifs with hlt hgt heven
  · rw [hbelow, min_eq_left (by linarith)]
  · rw [habove, min_eq_right (by linarith)]
  · rw [hbelow, min_eq_left (by linarith)]
  · rw [habove, min_eq_right (by linarith)]

/-- No integer is nearer than the one rounded to. -/
theorem abs_roundEven_sub_le (q : Rat) (z : Int) : |(roundEven q : Rat) - q| ≤ |(z : Rat) - q| := by
  have h := round_le q z
  rwa [abs_sub_round_eq_min, ← abs_roundEven_sub, abs_sub_comm q] at h

theorem abs_roundEven_sub_le_half (q : Rat) : |(roundEven q : Rat) - q| ≤ 1 / 2 := by
  have h := abs_roundEven_sub_le q (round q)
  have := abs_sub_round q
  rw [abs_sub_comm] at this
  linarith

theorem roundEven_intCast (z : Int) : roundEven z = z := by
  have h := abs_roundEven_sub_le z z
  rw [sub_self, abs_zero, abs_nonpos_iff, sub_eq_zero] at h
  exact_mod_cast h

theorem roundEven_mono {p q : Rat} (h : p ≤ q) : roundEven p ≤ roundEven q := by
  by_contra hlt
  have hstep : (roundEven q : Rat) + 1 ≤ roundEven p := by exact_mod_cast not_le.1 hlt
  have hp := abs_le.1 (abs_roundEven_sub_le_half p)
  have hq := abs_le.1 (abs_roundEven_sub_le_half q)
  have hpq : p = q := by linarith
  rw [hpq] at hlt
  exact hlt le_rfl

/-- A way of rounding to integers: it keeps the order, and the integers. -/
structure IsRounding (rule : Rat → Int) : Prop where
  mono : ∀ ⦃p q⦄, p ≤ q → rule p ≤ rule q
  intCast : ∀ z : Int, rule z = z

theorem isRounding_floor : IsRounding Rat.floor :=
  ⟨Int.floor_mono (R := Rat), Int.floor_intCast (R := Rat)⟩

theorem isRounding_roundEven : IsRounding roundEven :=
  ⟨fun _ _ => roundEven_mono, roundEven_intCast⟩

theorem IsRounding.natAbs_le {rule : Rat → Int} (hrule : IsRounding rule) {q : Rat} {n : Nat}
    (h : |q| ≤ n) : (rule q).natAbs ≤ n := by
  obtain ⟨hlow, hhigh⟩ := abs_le.1 h
  have hle : rule q ≤ n := by
    have := hrule.mono hhigh
    rwa [← Int.cast_natCast, hrule.intCast] at this
  have hge : -(n : Int) ≤ rule q := by
    have := hrule.mono hlow
    rwa [← Int.cast_natCast, ← Int.cast_neg, hrule.intCast] at this
  omega

/-- The binary exponent of a positive number. -/
theorem binaryExponent_spec {q : Rat} (hq : 0 < q) :
    (2 : Rat) ^ binaryExponent q ≤ q ∧ q < 2 ^ (binaryExponent q + 1) := by
  have hnum : 0 < q.num := Rat.num_pos.2 hq
  have hden : (0 : Rat) < q.den := Nat.cast_pos.2 q.den_pos
  have hq' : q * q.den = q.num.natAbs := by
    rw [Rat.mul_den_eq_num, ← Int.cast_natCast, Int.natAbs_of_nonneg hnum.le]
  set a := q.num.natAbs.log2 with ha
  set b := q.den.log2 with hb
  have hna : (2 : Rat) ^ a ≤ q.num.natAbs := by
    exact_mod_cast Nat.log2_self_le (Int.natAbs_ne_zero.2 hnum.ne')
  have hna' : (q.num.natAbs : Rat) < 2 ^ (a + 1) := by exact_mod_cast Nat.lt_log2_self
  have hdb : (2 : Rat) ^ b ≤ q.den := by exact_mod_cast Nat.log2_self_le q.den_ne_zero
  have hdb' : (q.den : Rat) < 2 ^ (b + 1) := by exact_mod_cast Nat.lt_log2_self
  have hlow : (2 : Rat) ^ ((a : Int) - b - 1) ≤ q := by
    refine le_of_mul_le_mul_right ?_ hden
    calc (2 : Rat) ^ ((a : Int) - b - 1) * q.den
      _ ≤ 2 ^ ((a : Int) - b - 1) * 2 ^ (b + 1) := by gcongr
      _ = 2 ^ a := by
        rw [← zpow_natCast, ← zpow_natCast, ← zpow_add₀ two_ne_zero]
        congr 1
        push_cast
        ring
      _ ≤ q * q.den := hq' ▸ hna
  have hhigh : q < 2 ^ ((a : Int) - b + 1) := by
    refine lt_of_mul_lt_mul_right ?_ hden.le
    calc q * q.den < 2 ^ (a + 1) := hq' ▸ hna'
      _ = 2 ^ ((a : Int) - b + 1) * 2 ^ b := by
        rw [← zpow_natCast, ← zpow_natCast, ← zpow_add₀ two_ne_zero]
        congr 1
        push_cast
        ring
      _ ≤ 2 ^ ((a : Int) - b + 1) * q.den := by gcongr
  unfold binaryExponent
  simp only [← ha, ← hb]
  split_ifs with hlt
  · exact ⟨hlow, by simpa using hlt⟩
  · exact ⟨not_lt.1 hlt, hhigh⟩

/-! ## Magnitudes -/

namespace Format

variable (f : Format)

theorem binade_pos : 0 < f.binade :=
  Nat.pow_pos two_pos

theorem binade_eq : (f.binade : Rat) = 2 ^ (f.fractionBits : Int) := by
  rw [zpow_natCast]
  exact_mod_cast rfl

/-- The magnitudes with the exponent `k` above the least one. -/
theorem value_add {k r : Nat} (hr : r ≤ 2 * f.binade) (hk : k = 0 ∨ f.binade ≤ r) :
    f.value (k * f.binade + r) = r * (2 : Rat) ^ (f.minExponent + k) := by
  have hB := f.binade_pos
  unfold value
  split_ifs with hlt
  · have hk0 : k = 0 := by
      rcases hk with hk | hk
      · exact hk
      · omega
    simp [hk0]
  · have hr' : f.binade ≤ r := by
      rcases hk with rfl | hk
      · simpa using hlt
      · exact hk
    obtain ⟨s, rfl⟩ := Nat.exists_eq_add_of_le hr'
    have hsplit : k * f.binade + (f.binade + s) = s + f.binade * (k + 1) := by ring
    rw [hsplit, Nat.add_mul_mod_self_left, Nat.add_mul_div_left _ _ hB]
    rcases (show s ≤ f.binade by omega).lt_or_eq with hs | rfl
    · rw [Nat.mod_eq_of_lt hs, Nat.div_eq_of_lt hs]
      simp
    · rw [Nat.mod_self, Nat.div_self hB, show 1 + (k + 1) - 1 = k + 1 by omega, Nat.cast_succ,
        ← add_assoc, zpow_add_one₀ two_ne_zero]
      push_cast
      ring

/-- Every magnitude is one with an exponent and a significand. -/
theorem exists_eq_add (n : Nat) :
    ∃ k r, n = k * f.binade + r ∧ r < 2 * f.binade ∧ (k = 0 ∨ f.binade ≤ r) := by
  have hB := f.binade_pos
  have hn := Nat.div_add_mod' n f.binade
  have hm := Nat.mod_lt n hB
  rcases hq : n / f.binade with _ | k
  · rw [hq] at hn
    exact ⟨0, n % f.binade, by omega, by omega, .inl rfl⟩
  · rw [hq, Nat.add_one_mul] at hn
    exact ⟨k, f.binade + n % f.binade, by omega, by omega, .inr (by omega)⟩

theorem value_strictMono : StrictMono f.value := by
  refine strictMono_nat_of_lt_succ fun n => ?_
  obtain ⟨k, r, rfl, hr, hk⟩ := f.exists_eq_add n
  rw [f.value_add hr.le hk, add_assoc, f.value_add (by omega) (by omega)]
  have := zpow_pos (two_pos (α := Rat)) (f.minExponent + k)
  gcongr
  omega

theorem value_zero : f.value 0 = 0 := by
  simp [value, f.binade_pos]

theorem value_nonneg (n : Nat) : 0 ≤ f.value n :=
  f.value_zero ▸ f.value_strictMono.monotone (Nat.zero_le n)

/-- The numbers of magnitudes are the multiples of a power of two by a significand. -/
theorem exists_value_eq {r : Nat} {e : Int} (hr : r ≤ 2 * f.binade) (he : f.minExponent ≤ e) :
    ∃ n, f.value n = r * (2 : Rat) ^ e := by
  obtain ⟨k, rfl⟩ := Int.le.dest he
  -- By induction on the exponent, as a small significand can be doubled.
  induction k generalizing r with
  | zero => exact ⟨0 * f.binade + r, f.value_add hr (.inl rfl)⟩
  | succ k ih =>
    by_cases hlt : r < f.binade
    · obtain ⟨n, hn⟩ := ih (r := 2 * r) (by omega) (by omega)
      refine ⟨n, hn.trans ?_⟩
      rw [Nat.cast_succ, ← add_assoc, zpow_add_one₀ two_ne_zero]
      push_cast
      ring
    · exact ⟨(k + 1) * f.binade + r, f.value_add hr (.inr (not_lt.1 hlt))⟩

/-! ## The nearest magnitude -/

/-- How the nearest magnitude is found: in the binade of the number, or below the
    first one, by rounding to a significand. -/
theorem nearest_spec {q : Rat} (hq : 0 < q) :
    ∃ k r : Nat, f.nearest q = k * f.binade + r ∧ r ≤ 2 * f.binade ∧ (k = 0 ∨ f.binade ≤ r) ∧
      (k = 0 ∨ (f.binade : Rat) * 2 ^ (f.minExponent + k) ≤ q) ∧
      (r : Int) = roundEven (q / 2 ^ (f.minExponent + k)) := by
  obtain ⟨hlow, hhigh⟩ := binaryExponent_spec hq
  obtain ⟨k, hk⟩ := Int.le.dest (le_max_left f.minExponent (binaryExponent q - f.fractionBits))
  set e := f.minExponent + (k : Int) with he
  have hpos : (0 : Rat) < 2 ^ e := zpow_pos two_pos e
  have hsig : q / 2 ^ e ≤ (2 * f.binade : Nat) := by
    rw [div_le_iff₀ hpos]
    push_cast
    rw [binade_eq, ← zpow_one_add₀ two_ne_zero, ← zpow_add₀ two_ne_zero]
    refine hhigh.le.trans (zpow_le_zpow_right₀ one_le_two ?_)
    omega
  have hnorm : k = 0 ∨ (f.binade : Rat) * 2 ^ e ≤ q := by
    refine or_iff_not_imp_left.2 fun hk0 => ?_
    rw [binade_eq, ← zpow_add₀ two_ne_zero]
    refine (zpow_le_zpow_right₀ one_le_two ?_).trans hlow
    omega
  have h0 : 0 ≤ roundEven (q / 2 ^ e) := by
    have := roundEven_mono (div_pos hq hpos).le
    rwa [← Int.cast_zero, roundEven_intCast] at this
  obtain ⟨r, hr⟩ := Int.eq_ofNat_of_zero_le h0
  refine ⟨k, r, ?_, ?_, ?_, hnorm, hr.symm⟩
  · unfold nearest
    rw [if_neg (not_le.2 hq)]
    have he' : e - f.minExponent = (k : Int) := by omega
    simp only [← hk, hr, he']
    exact_mod_cast Int.toNat_natCast (k * f.binade + r)
  · have := roundEven_mono hsig
    rw [← Int.cast_natCast, roundEven_intCast, hr] at this
    exact_mod_cast this
  · refine hnorm.imp_right fun h => ?_
    have := roundEven_mono ((le_div_iff₀ hpos).2 h)
    rw [← Int.cast_natCast, roundEven_intCast, hr] at this
    exact_mod_cast this

/-- No magnitude is nearer than the nearest one. -/
theorem abs_value_nearest_sub_le {q : Rat} (hq : 0 ≤ q) (n : Nat) :
    |f.value (f.nearest q) - q| ≤ |f.value n - q| := by
  rcases hq.eq_or_lt with rfl | hq
  · simp [nearest, value_zero]
  obtain ⟨k, r, hnearest, hr, hkr, hnorm, hround⟩ := f.nearest_spec hq
  rw [hnearest, f.value_add hr hkr]
  set u := (2 : Rat) ^ (f.minExponent + k) with hu
  have hpos : 0 < u := zpow_pos two_pos _
  have hgrid (z : Int) : |(r : Rat) * u - q| ≤ |z * u - q| := by
    have hscale (x : Rat) : |x * u - q| = |x - q / u| * u := by
      rw [← abs_of_pos hpos, ← abs_mul, abs_of_pos hpos, sub_mul, div_mul_cancel₀ _ hpos.ne']
    have h := abs_roundEven_sub_le (q / u) z
    rw [← hround, Int.cast_natCast] at h
    rw [hscale, hscale]
    gcongr
  obtain ⟨k', r', rfl, hr', hkr'⟩ := f.exists_eq_add n
  rw [f.value_add hr'.le hkr']
  by_cases hkk : k ≤ k'
  · -- The magnitude lies on the grid that was rounded to.
    obtain ⟨j, rfl⟩ := Nat.exists_eq_add_of_le hkk
    have hz : (r' : Rat) * 2 ^ (f.minExponent + (k + j : Nat)) =
        ((r' * 2 ^ j : Nat) : Int) * u := by
      rw [hu, Nat.cast_add, ← add_assoc, zpow_add₀ two_ne_zero _ (j : Int), zpow_natCast]
      push_cast
      ring
    rw [hz]
    exact hgrid _
  · -- The magnitude lies below the binade of the number, whose least one is nearer.
    have hq' : (f.binade : Rat) * u ≤ q := hnorm.resolve_left (by omega)
    have hle : (r' : Rat) * 2 ^ (f.minExponent + k') ≤ f.binade * u := by
      calc (r' : Rat) * 2 ^ (f.minExponent + k')
        _ ≤ (2 * f.binade : Nat) * 2 ^ (f.minExponent + k') := by gcongr
        _ = f.binade * 2 ^ (f.minExponent + k' + 1) := by
            rw [zpow_add_one₀ two_ne_zero]
            push_cast
            ring
        _ ≤ f.binade * u := by
            have hexp : f.minExponent + k' + 1 ≤ f.minExponent + k := by omega
            exact mul_le_mul_of_nonneg_left (zpow_le_zpow_right₀ one_le_two hexp)
              (Nat.cast_nonneg _)
    refine (hgrid f.binade).trans ?_
    rw [Int.cast_natCast, abs_of_nonpos (by linarith), abs_of_nonpos (by linarith)]
    linarith

/-- A magnitude is nearest to its number. -/
@[simp]
theorem nearest_value (n : Nat) : f.nearest (f.value n) = n := by
  have h := f.abs_value_nearest_sub_le (f.value_nonneg n) n
  rw [sub_self, abs_zero, abs_nonpos_iff, sub_eq_zero] at h
  exact f.value_strictMono.injective h

/-- A greater number has no smaller nearest magnitude. -/
theorem nearest_mono {p q : Rat} (h : p ≤ q) : f.nearest p ≤ f.nearest q := by
  rcases le_or_gt p 0 with hp | hp
  · simp [nearest, hp]
  by_contra hlt
  have hpn := f.abs_value_nearest_sub_le hp.le (f.nearest q)
  have hqn := f.abs_value_nearest_sub_le (hp.le.trans h) (f.nearest p)
  have hv := f.value_strictMono (not_le.1 hlt)
  -- Each of the two would lie on its side of the middle between the magnitudes.
  have hp' := add_le_of_abs_sub_le hv hpn
  have hq' := le_add_of_abs_sub_le hv hqn
  have hpq : p = q := by linarith
  exact hlt (hpq ▸ le_rfl)

theorem nearest_le_of_le_value {q : Rat} {n : Nat} (h : q ≤ f.value n) : f.nearest q ≤ n :=
  (f.nearest_mono h).trans_eq (f.nearest_value n)

theorem le_nearest_of_value_le {q : Rat} {n : Nat} (h : f.value n ≤ q) : n ≤ f.nearest q :=
  (f.nearest_value n).symm.trans_le (f.nearest_mono h)

/-! ## The ends of the range -/

/-- A number below half of the least positive one rounds to zero. -/
theorem nearest_eq_zero {q : Rat} (h0 : 0 ≤ q) (h : q < 2 ^ (f.minExponent - 1)) :
    f.nearest q = 0 := by
  by_contra hne
  have hone : f.value 1 = 2 ^ f.minExponent := by
    have hB := f.binade_pos
    simpa using f.value_add (k := 0) (r := 1) (by omega) (.inl rfl)
  have hle : 2 ^ f.minExponent ≤ f.value (f.nearest q) :=
    hone.symm.trans_le (f.value_strictMono.monotone (Nat.one_le_iff_ne_zero.2 hne))
  have hnear := f.abs_value_nearest_sub_le h0 0
  have hdouble : (2 : Rat) ^ f.minExponent = 2 ^ (f.minExponent - 1) * 2 := by
    rw [← zpow_add_one₀ two_ne_zero, sub_add_cancel]
  rw [f.value_zero, zero_sub, abs_neg, abs_of_nonneg h0, abs_of_nonneg (by linarith)] at hnear
  linarith

/-- Infinity stands for the power of two after the largest number. -/
theorem value_infinity (h : 0 < f.exponentBits) :
    f.value f.infinity = 2 ^ ((2 ^ (f.exponentBits - 1) : Nat) : Int) := by
  have hpow : 2 ^ f.exponentBits = 2 * 2 ^ (f.exponentBits - 1) :=
    (mul_pow_sub_one h.ne' 2).symm
  have hone : 1 ≤ 2 ^ (f.exponentBits - 1) := Nat.one_le_two_pow
  set t := 2 ^ (f.exponentBits - 1) with ht
  have hinf : f.infinity = (2 * t - 2) * f.binade + f.binade := by
    have hsum : 2 * t - 1 = 2 * t - 2 + 1 := by omega
    rw [infinity, Nat.pow_eq, hpow, hsum, Nat.add_one_mul]
  have hexp : (f.fractionBits : Int) + (f.minExponent + (2 * t - 2 : Nat)) = t := by
    have hmin : f.minExponent = 2 - (t : Int) - f.fractionBits := rfl
    omega
  rw [hinf, f.value_add (by omega) (.inr le_rfl), binade_eq, ← zpow_add₀ two_ne_zero, hexp]

/-- Numbers up to a power of two in the range round to finite ones. -/
theorem nearest_lt_infinity {q : Rat} {e : Int} (hq : q ≤ 2 ^ e) (hlow : f.minExponent ≤ e)
    (hhigh : e < (2 ^ (f.exponentBits - 1) : Nat)) (h : 0 < f.exponentBits) :
    f.nearest q < f.infinity := by
  obtain ⟨n, hn⟩ := f.exists_value_eq (r := 1) (by have := f.binade_pos; omega) hlow
  rw [Nat.cast_one, one_mul] at hn
  refine (f.nearest_le_of_le_value (hq.trans_eq hn.symm)).trans_lt ?_
  rw [← f.value_strictMono.lt_iff_lt, hn, f.value_infinity h]
  exact zpow_lt_zpow_right₀ one_lt_two hhigh

/-- Integers of up to 31 bits are in the range of 32 bits. -/
theorem nearest_intCast_lt {z : Int} (h : z.natAbs ≤ 2 ^ 31) :
    single.nearest |(z : Rat)| < single.infinity := by
  refine single.nearest_lt_infinity (e := 31) ?_ (by decide) (by decide) (by decide)
  rw [← Int.cast_abs, ← Nat.cast_natAbs]
  exact_mod_cast h

theorem nearest_toInt_lt (n : Int32) : single.nearest |(n.toInt : Rat)| < single.infinity := by
  have hlow := n.le_toInt
  have hhigh := n.toInt_lt
  exact nearest_intCast_lt (by omega)

end Format

end SimpleBatch
