import SimpleBatch.Operator.Arithmetic
import SimpleBatch.Proofs.Rounding

/-!
# The modulus of floating-point numbers

A modulus is computed with 64 bits. The quotient is rounded, and then rounded down
to a whole number; its product with the divisor is rounded, and so is what the
product leaves of the dividend (`Value.rest`). If the rest is on the wrong side of
zero, the divisor is added once, and the result is narrowed to 32 bits.

Adding the divisor once is enough as long as the quotient is at most `2 ^ 53`, up to
where all integers are numbers (`Value.neg_le_rest`). Rounding the quotient then
moves it by at most one half, so the product exceeds the dividend by at most half a
divisor. Rounding the product may double that, but no more: the dividend is a number
itself, and the product is rounded to a nearest one.

* `Value.mod_range`: up to that quotient the modulus lies between zero and the
  divisor;
* `Value.mod_out_of_range`: with a larger quotient it need not.
-/

namespace SimpleBatch

open Format

namespace Format

/-- A number of a format is one of any format that is wider. -/
theorem IsNumber.of_le {f g : Format} {q : Rat} (hfraction : f.fractionBits ≤ g.fractionBits)
    (hexponent : g.minExponent ≤ f.minExponent) (h : f.IsNumber q) : g.IsNumber q := by
  obtain ⟨n, hn⟩ := h
  obtain ⟨k, r, rfl, hr, hk⟩ := f.exists_eq_add n
  have hbinade : f.binade ≤ g.binade := Nat.pow_le_pow_right two_pos hfraction
  obtain ⟨m, hm⟩ := g.exists_value_eq (r := r) (e := f.minExponent + k) (by omega) (by omega)
  exact ⟨m, by rw [hm, ← hn, f.value_add hr.le hk]⟩

/-- The numbers of 32 bits are among those of 64 bits. -/
theorem isNumber_double {q : Rat} (h : single.IsNumber q) : double.IsNumber q :=
  h.of_le (by decide) (by decide)

/-- With 64 bits numbers round to finite ones far beyond the range of 32 bits. -/
theorem nearest_double_lt {q : Rat} (h : q ≤ 2 ^ 200) : double.nearest q < double.infinity :=
  double.nearest_lt_infinity (e := 200) (by exact_mod_cast h) (by decide) (by decide) (by decide)

theorem abs_rounded_double_le {q : Rat} {e : Nat} (h : |q| ≤ 2 ^ e) : |double.rounded q| ≤ 2 ^ e :=
  abs_rounded_le (isNumber_pow (by decide) e) h

end Format

namespace Value

/-! ## The rest, as a rational number -/

/-- The quotient rounded down, computed with 64 bits. -/
def quotient (a b : Rat) : Int := ⌊double.rounded (a / b)⌋

/-- What is left of `a`, computed with 64 bits. -/
def rest (a b : Rat) : Rat := double.rounded (a - double.rounded (quotient a b * b))

theorem rest_neg_neg (a b : Rat) : rest (-a) (-b) = -rest a b := by
  rw [rest, quotient, neg_div_neg_eq, ← quotient, mul_neg, rounded_neg, neg_sub_neg, ← neg_sub,
    rounded_neg, rest]

variable {a b : Rat}

/-- The rest is at most one divisor below zero, if the quotient is not so large that
    rounding it can move it by more than one half. -/
theorem neg_le_rest (ha : double.IsNumber a) (hb : double.IsNumber b) (hpos : 0 < b)
    (h : |a| ≤ 2 ^ 53 * b) : -b ≤ rest a b := by
  have hdiv : |a / b| ≤ (2 * double.binade : Nat) := by
    rw [abs_div, abs_of_pos hpos, div_le_iff₀ hpos]
    exact h
  have hquotient : (quotient a b : Rat) ≤ a / b + 1 / 2 := by
    have := (abs_le.1 (abs_rounded_sub_le_half (by decide) hdiv)).2
    have := Int.floor_le (double.rounded (a / b))
    rw [quotient]
    linarith
  have hproduct : quotient a b * b ≤ a + b / 2 := by
    calc quotient a b * b ≤ (a / b + 1 / 2) * b := by gcongr
      _ = a + b / 2 := by
        rw [add_mul, div_mul_cancel₀ _ hpos.ne']
        ring
  -- The dividend is a number itself, so rounding the product moves it no farther
  -- than to the dividend, or as far on the other side.
  have hrounded : double.rounded (quotient a b * b) ≤ a + b := by
    have hnear := abs_rounded_sub_le ha (quotient a b * b)
    rcases abs_cases (a - quotient a b * b) with ⟨habs, -⟩ | ⟨habs, -⟩
    · have := (abs_le.1 hnear).2
      linarith
    · have := (abs_le.1 hnear).2
      linarith
  calc -b = double.rounded (-b) := (rounded_eq_self hb.neg).symm
    _ ≤ rest a b := rounded_mono (by linarith)

/-! ## The rest, as a number of 64 bits -/

theorem abs_div_le (hb : b ≠ 0) (h : |a| ≤ 2 ^ 53 * |b|) : |a / b| ≤ 2 ^ 53 := by
  rwa [abs_div, div_le_iff₀ (abs_pos.2 hb)]

theorem natAbs_quotient_le (hb : b ≠ 0) (h : |a| ≤ 2 ^ 53 * |b|) :
    (quotient a b).natAbs ≤ 2 ^ 53 := by
  obtain ⟨hlow, hhigh⟩ := abs_le.1 (abs_rounded_double_le (abs_div_le hb h))
  have hge : -2 ^ 53 ≤ quotient a b := Int.le_floor.2 (by exact_mod_cast hlow)
  have hle : quotient a b ≤ 2 ^ 53 := by exact_mod_cast (Int.floor_le _).trans hhigh
  omega

variable {x y : Double}

theorem toRat?_rest (hx : x.toRat? = some a) (hy : y.toRat? = some b) (hb0 : b ≠ 0)
    (ha : |a| ≤ 2 ^ 128) (hb : |b| ≤ 2 ^ 128) (h : |a| ≤ 2 ^ 53 * |b|) :
    (x.sub ((x.div y).floor.mul y)).toRat? = some (rest a b) ∧ |rest a b| ≤ 2 ^ 182 := by
  have hk := natAbs_quotient_le hb0 h
  have hkn : double.IsNumber (quotient a b) := isNumber_intCast hk (by decide)
  have hkq : |(quotient a b : Rat)| ≤ 2 ^ 53 := by
    rw [← Int.cast_abs, ← Nat.cast_natAbs]
    exact_mod_cast hk
  have hx1 : (x.div y).toRat? = some (double.rounded (a / b)) :=
    Binary.toRat?_div hx hy hb0 (nearest_double_lt ((abs_div_le hb0 h).trans (by norm_num)))
  have hx2 : (x.div y).floor.toRat? = some (quotient a b : Rat) := by
    rw [← rounded_eq_self hkn]
    exact Binary.toRat?_floor hx1 (nearest_double_lt (hkq.trans (by norm_num)))
  have hprod : |quotient a b * b| ≤ 2 ^ 181 := by
    rw [abs_mul]
    calc |(quotient a b : Rat)| * |b| ≤ 2 ^ 53 * 2 ^ 128 := by gcongr
      _ = 2 ^ 181 := by norm_num
  have hx3 := Binary.toRat?_mul hx2 hy (nearest_double_lt (hprod.trans (by norm_num)))
  have hdiff : |a - double.rounded (quotient a b * b)| ≤ 2 ^ 182 := by
    calc |a - double.rounded (quotient a b * b)| ≤ |a| + |double.rounded (quotient a b * b)| :=
          abs_sub _ _
      _ ≤ 2 ^ 128 + 2 ^ 181 := add_le_add ha (abs_rounded_double_le hprod)
      _ ≤ 2 ^ 182 := by norm_num
  exact ⟨Binary.toRat?_sub hx hx3 (nearest_double_lt (hdiff.trans (by norm_num))),
    abs_rounded_double_le hdiff⟩

/-! ## Narrowing -/

variable {r : Double} {m n : Single} {ρ : Rat}

/-- A rest that is not negative is narrowed to a number from zero up to the divisor. -/
theorem narrow_nonneg (hr : r.toRat? = some ρ) (hρ : 0 ≤ ρ) (hn : n.toRat? = some b)
    (hb : 0 < b) :
    ∃ q, (if n.le (r.convert .single) then Binary.zero else r.convert .single).toRat? = some q ∧
      0 ≤ q ∧ q < b := by
  by_cases hle : n.le (r.convert .single)
  · exact ⟨0, by rw [if_pos hle, Binary.toRat?_zero (by decide)], le_rfl, hb⟩
  rw [if_neg hle]
  rcases Binary.convert_cases (g := single) (by decide) hr with h | ⟨-, h⟩ | ⟨hlt, -⟩
  · rw [Binary.le_iff hn h] at hle
    exact ⟨_, h, rounded_nonneg hρ, not_le.1 hle⟩
  · rw [h] at hle
    exact absurd (Binary.le_infinite hn) hle
  · exact absurd hρ (not_le.2 hlt)

theorem narrow_nonpos (hr : r.toRat? = some ρ) (hρ : ρ ≤ 0) (hn : n.toRat? = some b)
    (hb : b < 0) :
    ∃ q, (if (r.convert .single).le n then Binary.zero else r.convert .single).toRat? = some q ∧
      b < q ∧ q ≤ 0 := by
  by_cases hle : (r.convert .single).le n
  · exact ⟨0, by rw [if_pos hle, Binary.toRat?_zero (by decide)], hb, le_rfl⟩
  rw [if_neg hle]
  rcases Binary.convert_cases (g := single) (by decide) hr with h | ⟨hlt, -⟩ | ⟨-, h⟩
  · rw [Binary.le_iff h hn] at hle
    exact ⟨_, h, not_le.1 hle, rounded_nonpos hρ⟩
  · exact absurd hρ (not_le.2 hlt)
  · rw [h] at hle
    exact absurd (Binary.infinite_le hn) hle

/-! ## The modulus -/

/-- A number of 32 bits is the same with 64 bits. -/
theorem toRat?_widen (hm : m.toRat? = some a) :
    (m.convert .double).toRat? = some a ∧ double.IsNumber a ∧ |a| ≤ 2 ^ 128 := by
  have hlt := Binary.abs_lt_of_toRat? (by decide) hm
  have hexponent : 2 ^ (single.exponentBits - 1) = 128 := rfl
  rw [hexponent] at hlt
  have ha := isNumber_double (Binary.isNumber_of_toRat? hm)
  refine ⟨?_, ha, hlt.le⟩
  rw [Binary.toRat?_convert hm (nearest_double_lt (hlt.le.trans (by norm_num))), rounded_eq_self ha]

/-- The computation of the modulus, followed on rational numbers: the rest, and the
    rest with the divisor added once. -/
theorem modSingle_eq (hm : m.toRat? = some a) (hn : n.toRat? = some b) (hb : b ≠ 0)
    (h : |a| ≤ 2 ^ 53 * |b|) :
    ∃ r s : Double, r.toRat? = some (rest a b) ∧ s.toRat? = some (double.rounded (rest a b + b)) ∧
      modSingle m n =
        if 0 < b then
          let t := (if rest a b < 0 then s else r).convert single
          if n.le t then Binary.zero else t
        else
          let t := (if 0 < rest a b then s else r).convert single
          if t.le n then Binary.zero else t := by
  obtain ⟨hx, -, ha128⟩ := toRat?_widen hm
  obtain ⟨hy, -, hb128⟩ := toRat?_widen hn
  obtain ⟨hr, hr182⟩ := toRat?_rest hx hy hb ha128 hb128 h
  have hzero : (Binary.zero : Double).toRat? = some 0 := Binary.toRat?_zero (by decide)
  have hsum : |rest a b + b| ≤ 2 ^ 200 := by
    calc |rest a b + b| ≤ |rest a b| + |b| := abs_add_le _ _
      _ ≤ 2 ^ 182 + 2 ^ 128 := add_le_add hr182 hb128
      _ ≤ 2 ^ 200 := by norm_num
  have hs := Binary.toRat?_add hr hy (nearest_double_lt hsum)
  refine ⟨_, _, hr, hs, ?_⟩
  unfold modSingle
  simp only [Binary.lt_iff hzero hy, Binary.lt_iff hy hzero, Binary.lt_iff hr hzero,
    Binary.lt_iff hzero hr]
  rcases hb.lt_or_gt with hneg | hpos
  · rw [if_neg hneg.not_gt, if_pos hneg, if_neg hneg.not_gt]
  · rw [if_pos hpos, if_pos hpos]

theorem modSingle_of_pos (hm : m.toRat? = some a) (hn : n.toRat? = some b) (hb : 0 < b)
    (h : |a| ≤ 2 ^ 53 * b) : ∃ q, (modSingle m n).toRat? = some q ∧ 0 ≤ q ∧ q < b := by
  obtain ⟨-, ha, -⟩ := toRat?_widen hm
  obtain ⟨-, hb', -⟩ := toRat?_widen hn
  obtain ⟨r, s, hr, hs, heq⟩ := modSingle_eq hm hn hb.ne' (by rwa [abs_of_pos hb])
  have hrest := neg_le_rest ha hb' hb h
  rw [heq, if_pos hb]
  by_cases hlt : rest a b < 0
  · rw [if_pos hlt]
    exact narrow_nonneg hs (rounded_nonneg (by linarith)) hn hb
  · rw [if_neg hlt]
    exact narrow_nonneg hr (not_lt.1 hlt) hn hb

theorem modSingle_of_neg (hm : m.toRat? = some a) (hn : n.toRat? = some b) (hb : b < 0)
    (h : |a| ≤ 2 ^ 53 * -b) : ∃ q, (modSingle m n).toRat? = some q ∧ b < q ∧ q ≤ 0 := by
  obtain ⟨-, ha, -⟩ := toRat?_widen hm
  obtain ⟨-, hb', -⟩ := toRat?_widen hn
  obtain ⟨r, s, hr, hs, heq⟩ := modSingle_eq hm hn hb.ne (by rwa [abs_of_neg hb])
  have hrest : rest a b ≤ -b := by
    have := neg_le_rest ha.neg hb'.neg (neg_pos.2 hb) (by rwa [abs_neg])
    rw [rest_neg_neg] at this
    linarith
  rw [heq, if_neg hb.not_gt]
  by_cases hlt : 0 < rest a b
  · rw [if_pos hlt]
    exact narrow_nonpos hs (rounded_nonpos (by linarith)) hn hb
  · rw [if_neg hlt]
    exact narrow_nonpos hr (not_lt.1 hlt) hn hb

/-- An operator computes in floating point as soon as one operand is no integer. -/
theorem mod_eq_modSingle {u v : Value} (hu : u.toSingle? = some m) (hv : v.toSingle? = some n)
    (hf : u.kind = .float ∨ v.kind = .float) : mod u v = .ok (float (modSingle m n)) := by
  cases u with
  | integer i =>
    cases v with
    | integer j => simp [kind] at hf
    | float y => cases hu; cases hv; rfl
    | text s => cases hv
  | float x =>
    cases v with
    | integer j => cases hu; cases hv; rfl
    | float y => cases hu; cases hv; rfl
    | text s => cases hv
  | text s => cases hu

/-- The modulus lies between zero and the divisor.

    Let a floating-point number and another number be finite, the second one not
    zero and at most `2 ^ 53` times in the first. Their modulus is a finite number
    from zero up to a positive divisor, or from zero down to a negative one, and it
    does not reach the divisor. -/
theorem mod_range {u v : Value} (hu : u.toSingle? = some m) (hv : v.toSingle? = some n)
    (hf : u.kind = .float ∨ v.kind = .float) (hm : m.toRat? = some a) (hn : n.toRat? = some b)
    (hb : b ≠ 0) (h : |a| ≤ 2 ^ 53 * |b|) :
    ∃ r q, mod u v = .ok (float r) ∧ r.toRat? = some q ∧
      (0 < b → 0 ≤ q ∧ q < b) ∧ (b < 0 → b < q ∧ q ≤ 0) := by
  have hmod := mod_eq_modSingle hu hv hf
  rcases hb.lt_or_gt with hneg | hpos
  · obtain ⟨q, hq, hrange⟩ := modSingle_of_neg hm hn hneg (by rwa [← abs_of_neg hneg])
    exact ⟨_, q, hmod, hq, fun hpos => absurd hpos hneg.not_gt, fun _ => hrange⟩
  · obtain ⟨q, hq, hrange⟩ := modSingle_of_pos hm hn hpos (by rwa [abs_of_pos hpos] at h)
    exact ⟨_, q, hmod, hq, fun _ => hrange, fun hneg => absurd hneg hpos.not_gt⟩

/-- An integer and a small negative divisor, which is in it more than `2 ^ 52` times. -/
theorem mod_range_small :
    let n : Single := .ofRat (-25 / 2 ^ 54)
    (integer 7).toSingle? = some (.ofInt 7) ∧ (float n).toSingle? = some n ∧
      (Binary.ofInt 7 : Single).toRat? = some 7 ∧ n.toRat? = some (-25 / 2 ^ 54) ∧
      (2 : Rat) ^ 52 * |-25 / 2 ^ 54| < |7| ∧ |(7 : Rat)| ≤ 2 ^ 53 * |-25 / 2 ^ 54| ∧
      ∃ r q, mod (integer 7) (float n) = .ok (float r) ∧ r.toRat? = some q ∧
        -25 / 2 ^ 54 < q ∧ q ≤ 0 := by
  intro n
  have hseven : (Binary.ofInt 7 : Single).toRat? = some 7 := by decide +kernel
  have hn : n.toRat? = some (-25 / 2 ^ 54) := by decide +kernel
  have hle : |(7 : Rat)| ≤ 2 ^ 53 * |-25 / 2 ^ 54| := by decide +kernel
  obtain ⟨r, q, hr, hq, -, hrange⟩ := mod_range (u := integer 7) (v := float n) rfl rfl (.inr rfl)
    hseven hn (by norm_num) hle
  exact ⟨rfl, rfl, hseven, hn, by decide +kernel, hle, r, q, hr, hq, hrange (by norm_num)⟩

/-- With a larger quotient the modulus can be on the other side of zero, for two
    floating-point numbers and for an integer and a floating-point number. -/
theorem mod_out_of_range :
    (∃ m n r : Single, m.toRat? = some (7 * 2 ^ 55) ∧ n.toRat? = some 25 ∧
      mod (float m) (float n) = .ok (float r) ∧ r.toRat? = some (-7)) ∧
    ∃ n r : Single, n.toRat? = some (25 / 2 ^ 55) ∧
      mod (integer 7) (float n) = .ok (float r) ∧ r.toRat? = some (-7 / 2 ^ 55) := by
  refine ⟨⟨.ofInt (7 * 2 ^ 55), .ofInt 25, .ofInt (-7), ?_, ?_, ?_, ?_⟩,
    .ofRat (25 / 2 ^ 55), .ofRat (-7 / 2 ^ 55), ?_, ?_, ?_⟩ <;> decide +kernel

end Value

end SimpleBatch
