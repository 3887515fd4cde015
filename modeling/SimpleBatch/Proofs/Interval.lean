import SimpleBatch.Proofs.Draw

/-!
# Random numbers between bounds

A floating-point number between two bounds is the lower bound and a part of their
difference, with a rounding at each of three steps. It stays between the bounds
nevertheless, as long as the difference is in the range of the format.

It cannot fall below the lower bound, as no rounding makes a part of the difference
negative. For the upper bound it is enough that the part does not exceed the exact
difference, since the bounds themselves are not changed by the last rounding
(`Format.rounded_mul_le_sub`). It could only exceed it if the difference was rounded up.
A difference that is rounded at all is so large that even the greatest factor, which is
one less a unit of the last bit, takes it below the middle to the number before it
(`Format.nearest_mul_le`); and that number is not above the exact difference.

A difference that is rounded to infinity leaves nothing between the bounds.

* `Generator.singleBetween_mem`, `Generator.toRat?_singleBetween_eq_none`: what is drawn
  with a difference in the range, and with one beyond it;
* `Generator.draws_between`: numbers between bounds, and when a script gets them;
* `Generator.draws_unbounded`: bounds between which nothing is drawn.
-/

namespace SimpleBatch

/-! ## Neighbours of a number -/

namespace Format

variable {f : Format} {a b p q u : Rat} {n : Nat}

/-- From the first power of two on, neighbours lie closer than the number divided by
    the number of magnitudes between powers of two. -/
theorem binade_mul_sub_lt (h : f.binade ≤ n) :
    f.binade * (f.value (n + 1) - f.value n) < f.value (n + 1) := by
  obtain ⟨k, r, rfl, hr, hk⟩ := f.exists_eq_add n
  have hbr : f.binade ≤ r := by
    rcases hk with rfl | hk
    · simpa using h
    · exact hk
  have hpos : (0 : Rat) < 2 ^ (f.minExponent + k) := zpow_pos two_pos _
  rw [f.value_add hr.le hk, add_assoc, f.value_add (by omega) (by omega), ← sub_mul, ← mul_assoc]
  gcongr
  have hcast : (f.binade : Rat) < (r + 1 : Nat) := by exact_mod_cast Nat.lt_succ_of_le hbr
  push_cast at hcast ⊢
  linarith

/-- A factor that is less than one by at least half of the last bit takes a number to
    the one before it, or below. -/
theorem nearest_mul_le (h : f.binade ≤ n) (h0 : 0 ≤ u) (h1 : u ≤ 1 - 1 / (2 * f.binade)) :
    f.nearest (f.value (n + 1) * u) ≤ n := by
  by_contra hlt
  set d := f.value (n + 1)
  have hd : 0 ≤ d := f.value_nonneg _
  have hB : (0 : Rat) < f.binade := by exact_mod_cast f.binade_pos
  have hup : d ≤ f.value (f.nearest (d * u)) := f.value_strictMono.monotone (by omega)
  have hlow : f.value n < f.value (f.nearest (d * u)) := f.value_strictMono (by omega)
  have hmiddle := add_le_of_abs_sub_le hlow (f.abs_value_nearest_sub_le (mul_nonneg hd h0) n)
  have hproduct : 2 * f.binade * (d * u) ≤ 2 * f.binade * d - d := by
    calc 2 * f.binade * (d * u) ≤ 2 * f.binade * (d * (1 - 1 / (2 * f.binade))) := by gcongr
      _ = 2 * f.binade * d - d := by
        field_simp
  have hgap := binade_mul_sub_lt h
  nlinarith

/-- A difference of numbers is a multiple of the least positive one, and so a small one
    is a number. -/
theorem isNumber_sub (ha : f.IsNumber a) (hb : f.IsNumber b)
    (h : |b - a| ≤ (2 * f.binade : Nat) * 2 ^ f.minExponent) : f.IsNumber (b - a) := by
  obtain ⟨y, j, rfl, -⟩ := ha.exists_eq_mul
  obtain ⟨z, k, rfl, -⟩ := hb.exists_eq_mul
  have hpos : (0 : Rat) < 2 ^ f.minExponent := zpow_pos two_pos _
  have hsub : (z : Rat) * 2 ^ (f.minExponent + k) - y * 2 ^ (f.minExponent + j) =
      ((z * 2 ^ k - y * 2 ^ j : Int) : Rat) * 2 ^ f.minExponent := by
    rw [zpow_add₀ two_ne_zero, zpow_add₀ two_ne_zero, zpow_natCast, zpow_natCast]
    push_cast
    ring
  rw [hsub] at h ⊢
  generalize z * 2 ^ k - y * 2 ^ j = d at h ⊢
  rw [abs_intCast_mul_zpow] at h
  have hle : d.natAbs ≤ 2 * f.binade := by exact_mod_cast le_of_mul_le_mul_right h hpos
  exact isNumber_mul_zpow hle le_rfl

/-! ## Parts of a difference -/

/-- If a difference is rounded up, then to the number after one that does not exceed it,
    and not to one of the least numbers. -/
theorem exists_nearest_eq_succ (ha : f.IsNumber a) (hb : f.IsNumber b) (hle : a ≤ b)
    (hup : b - a < f.rounded (b - a)) :
    ∃ n, f.nearest (b - a) = n + 1 ∧ f.binade ≤ n ∧ f.value n ≤ b - a := by
  have h0 : 0 ≤ b - a := sub_nonneg.2 hle
  rw [rounded_of_nonneg h0] at hup
  rcases hn : f.nearest (b - a) with _ | n
  · rw [hn, f.value_zero] at hup
    exact absurd h0 (not_le.2 hup)
  refine ⟨n, rfl, ?_, ?_⟩
  · -- The least numbers are so dense that the difference would be one of them.
    by_contra hlt
    have hvalue : f.value (f.nearest (b - a)) ≤ (2 * f.binade : Nat) * 2 ^ f.minExponent := by
      have hmono : f.value (f.nearest (b - a)) ≤ f.value (0 * f.binade + 2 * f.binade) :=
        f.value_strictMono.monotone (by omega)
      rwa [f.value_add le_rfl (.inl rfl), Nat.cast_zero, add_zero] at hmono
    have hnumber := isNumber_sub ha hb (by rw [abs_of_nonneg h0]; exact hup.le.trans hvalue)
    have hself := rounded_eq_self hnumber
    rw [rounded_of_nonneg h0] at hself
    exact hup.ne hself.symm
  · by_contra hlt
    have hlt := not_le.1 hlt
    have hnear := f.abs_value_nearest_sub_le h0 n
    have hsucc := f.value_strictMono (Nat.lt_succ_self n)
    rw [hn, abs_of_pos (by linarith), abs_of_pos (by linarith)] at hnear
    linarith

/-- A part of a rounded difference, rounded once more, does not exceed the difference. -/
theorem rounded_mul_le_sub (ha : f.IsNumber a) (hb : f.IsNumber b) (hle : a ≤ b) (h0 : 0 ≤ u)
    (h1 : u ≤ 1 - 1 / (2 * f.binade)) : f.rounded (f.rounded (b - a) * u) ≤ b - a := by
  have hd : 0 ≤ f.rounded (b - a) := rounded_nonneg (sub_nonneg.2 hle)
  rcases le_or_gt (f.rounded (b - a)) (b - a) with hdown | hup
  · have hB : (0 : Rat) ≤ 1 / (2 * f.binade) := by positivity
    calc f.rounded (f.rounded (b - a) * u) ≤ f.rounded (f.rounded (b - a)) :=
          rounded_mono (mul_le_of_le_one_right hd (by linarith))
      _ = f.rounded (b - a) := rounded_eq_self (isNumber_rounded _)
      _ ≤ b - a := hdown
  · obtain ⟨n, hn, hbinade, hvalue⟩ := exists_nearest_eq_succ ha hb hle hup
    rw [rounded_of_nonneg (mul_nonneg hd h0), rounded_of_nonneg (sub_nonneg.2 hle), hn]
    calc f.value (f.nearest (f.value (n + 1) * u)) ≤ f.value n :=
          f.value_strictMono.monotone (nearest_mul_le hbinade h0 h1)
      _ ≤ b - a := hvalue

/-- The difference of two numbers is in the range of 32 bits below the middle between
    the largest number and infinity. -/
theorem nearest_single_lt_iff (h : 0 ≤ q) :
    single.nearest q < single.infinity ↔ q < 2 ^ 128 - 2 ^ 103 := by
  constructor
  · intro hfinite
    by_contra hle
    have hmiddle : single.nearest (2 ^ 128 - 2 ^ 103) = single.infinity := by decide +kernel
    exact absurd hfinite (not_lt.2 (hmiddle.symm.trans_le (single.nearest_mono (not_lt.1 hle))))
  · intro hlt
    by_contra hinfinite
    have hlast : single.value (single.infinity - 1) = 2 ^ 128 - 2 ^ 104 := by decide +kernel
    have hvalue : single.value single.infinity = 2 ^ 128 := by decide +kernel
    have hup := single.value_strictMono.monotone (not_lt.1 hinfinite)
    have hlow : single.value (single.infinity - 1) < single.value (single.nearest q) :=
      (single.value_strictMono (by decide)).trans_le hup
    have hmiddle := add_le_of_abs_sub_le hlow (single.abs_value_nearest_sub_le h _)
    rw [hvalue] at hup
    rw [hlast] at hmiddle
    linarith

end Format

/-! ## Beyond the range -/

namespace Binary

variable {f : Format} {x y : Binary f} {a b : Rat}

theorem sub_eq_infinite (hx : x.toRat? = some b) (hy : y.toRat? = some a) (hlt : a < b)
    (h : ¬f.nearest |b - a| < f.infinity) : x.sub y = infinite false := by
  obtain ⟨s, m, rfl, rfl⟩ := eq_finite_of_toRat? hx
  obtain ⟨t, n, hneg, hn⟩ := eq_finite_of_toRat? (toRat?_neg hy)
  rw [sub_eq_add_neg, ← hn] at h
  have hpos : 0 < signedValue s m + signedValue t n := by linarith
  rw [sub, hneg, add, if_neg hpos.ne', round_eq_infinite h]
  simpa using hpos.le

/-- What is not finite is not made finite by a factor. -/
theorem toRat?_mul_eq_none (hx : x.toRat? = none) (y : Binary f) : (x.mul y).toRat? = none := by
  cases x with
  | nan => rfl
  | infinite s =>
    cases y with
    | nan => rfl
    | infinite t => rfl
    | finite t n =>
      rw [mul]
      split <;> rfl
  | finite s m => cases hx

theorem toRat?_add_eq_none (x : Binary f) (hy : y.toRat? = none) : (x.add y).toRat? = none := by
  cases y with
  | nan => cases x <;> rfl
  | infinite t =>
    cases x with
    | nan => rfl
    | infinite s =>
      rw [add]
      split <;> rfl
    | finite s m => rfl
  | finite t n => cases hy

/-- No finite number is above the last magnitude. -/
theorem abs_le_last (hx : x.toRat? = some a) : |a| ≤ f.value (f.infinity - 1) := by
  obtain ⟨n, hn⟩ := isNumber_of_toRat? hx
  have hlt := nearest_abs_lt hx
  rw [← hn, f.nearest_value] at hlt
  rw [← hn]
  exact f.value_strictMono.monotone (by omega)

end Binary

namespace Generator

open Format Binary

variable {lo hi : Single} {a b : Rat}

theorem singleBetween_eq (g : Generator) (lo hi : Single) :
    g.singleBetween lo hi = (lo.add ((hi.sub lo).mul g.unit.1), g.next.2) := rfl

/-! ## Numbers between bounds -/

/-- With a difference in the range, a number between the bounds is drawn. -/
theorem singleBetween_mem (hlo : lo.toRat? = some a) (hhi : hi.toRat? = some b) (hle : a ≤ b)
    (hfinite : single.nearest (b - a) < single.infinity) (g : Generator) :
    ∃ q, (g.singleBetween lo hi).1.toRat? = some q ∧ a ≤ q ∧ q ≤ b := by
  have ha := isNumber_of_toRat? hlo
  have hb := isNumber_of_toRat? hhi
  have h0 : 0 ≤ b - a := sub_nonneg.2 hle
  have hu := toRat?_unit g
  obtain ⟨hu0, hu1⟩ := unit_bounds g
  set u : Rat := (g.next.1 >>> 40).toNat / 2 ^ 24
  have hlast : u ≤ 1 - 1 / (2 * single.binade) := hu1.trans_eq (by norm_num [binade, single])
  set d := single.rounded (b - a) with hd
  have hd0 : 0 ≤ d := rounded_nonneg h0
  have hsub : (hi.sub lo).toRat? = some d := toRat?_sub hhi hlo (by rwa [abs_of_nonneg h0])
  have hmul : ((hi.sub lo).mul g.unit.1).toRat? = some (single.rounded (d * u)) := by
    refine toRat?_mul hsub hu (lt_of_le_of_lt ?_ hfinite)
    rw [abs_of_nonneg (mul_nonneg hd0 hu0), ← single.nearest_value (single.nearest (b - a)),
      ← rounded_of_nonneg h0]
    exact single.nearest_mono (mul_le_of_le_one_right hd0 (by linarith))
  have hpart0 : 0 ≤ single.rounded (d * u) := rounded_nonneg (mul_nonneg hd0 hu0)
  have hpart1 : single.rounded (d * u) ≤ b - a := rounded_mul_le_sub ha hb hle hu0 hlast
  have hsum : single.nearest |a + single.rounded (d * u)| < single.infinity := by
    have habs : |a + single.rounded (d * u)| ≤ max |a| |b| :=
      abs_le_max_abs_abs (by linarith) (by linarith)
    refine (single.nearest_mono habs).trans_lt ?_
    rcases max_choice |a| |b| with h | h
    · rw [h]
      exact nearest_abs_lt hlo
    · rw [h]
      exact nearest_abs_lt hhi
  refine ⟨_, toRat?_add hlo hmul hsum, ?_, ?_⟩
  · exact (rounded_eq_self ha).symm.trans_le (rounded_mono (by linarith))
  · exact (rounded_mono (by linarith)).trans_eq (rounded_eq_self hb)

/-- With a difference beyond the range, no finite number is drawn. -/
theorem toRat?_singleBetween_eq_none (hlo : lo.toRat? = some a) (hhi : hi.toRat? = some b)
    (hle : a ≤ b) (hinfinite : ¬single.nearest (b - a) < single.infinity) (g : Generator) :
    (g.singleBetween lo hi).1.toRat? = none := by
  have hlt : a < b := by
    refine lt_of_le_of_ne hle ?_
    rintro rfl
    rw [sub_self, nearest_zero] at hinfinite
    exact hinfinite (by decide)
  have hsub := sub_eq_infinite hhi hlo hlt (by rwa [abs_of_pos (sub_pos.2 hlt)])
  rw [singleBetween_eq, hsub]
  exact toRat?_add_eq_none lo (toRat?_mul_eq_none rfl _)

/-! ## Bounds of a script -/

/-- A random number is floating-point as soon as one of the bounds is. -/
theorem random_eq_singleBetween {u v : Value} (hu : u.toSingle? = some lo)
    (hv : v.toSingle? = some hi) (hf : u.kind = .float ∨ v.kind = .float) (g : Generator) :
    Value.random u v g = .ok (.float (g.singleBetween lo hi).1, (g.singleBetween lo hi).2) := by
  unfold Value.random
  split
  · rcases hf with hf | hf <;> cases hf
  · rw [hu, hv]

theorem abs_le_of_integer {v : Value} {x : Single} {q : Rat} (hv : v.kind = .integer)
    (hx : v.toSingle? = some x) (hq : x.toRat? = some q) : |q| ≤ 2 ^ 31 := by
  cases v with
  | integer n =>
    cases hx
    obtain rfl := Option.some.inj ((toRat?_ofInt n).symm.trans hq)
    refine abs_rounded_le (isNumber_pow (by decide) 31) (abs_le.2 ⟨?_, ?_⟩)
    · exact_mod_cast n.le_toInt
    · exact_mod_cast n.toInt_lt.le
  | float y => cases hv
  | text s => cases hv

/-- An integer is so much smaller than the largest floating-point numbers that its
    difference to them is in the range. -/
theorem sub_lt_of_integer {u v : Value} (hu : u.toSingle? = some lo) (hv : v.toSingle? = some hi)
    (hlo : lo.toRat? = some a) (hhi : hi.toRat? = some b)
    (h : u.kind = .integer ∨ v.kind = .integer) : b - a < 2 ^ 128 - 2 ^ 103 := by
  have hlast : single.value (single.infinity - 1) = 2 ^ 128 - 2 ^ 104 := by decide +kernel
  have ha := abs_le_last hlo
  have hb := abs_le_last hhi
  rw [hlast] at ha hb
  have hmargin : (2 : Rat) ^ 31 + (2 ^ 128 - 2 ^ 104) < 2 ^ 128 - 2 ^ 103 := by norm_num
  have hsub : b - a ≤ |b| + |a| := (le_abs_self _).trans (abs_sub b a)
  rcases h with h | h
  · have := abs_le_of_integer h hu hlo
    linarith
  · have := abs_le_of_integer h hv hhi
    linarith

/-- Floating-point numbers are drawn between their bounds, if their difference is in the
    range.

    Between two finite bounds, and whatever the generator, a finite number that is not
    outside of them is drawn just if their exact difference is less than the middle
    between the largest number and infinity. So a script with a floating-point bound gets
    a number between its bounds, as they are rounded to floating-point numbers, if one of
    them is an integer or if they are not farther apart than that. -/
theorem draws_between (hlo : lo.toRat? = some a) (hhi : hi.toRat? = some b) (hle : a ≤ b) :
    (∀ g : Generator, (∃ q, (g.singleBetween lo hi).1.toRat? = some q ∧ a ≤ q ∧ q ≤ b) ↔
      b - a < 2 ^ 128 - 2 ^ 103) ∧
    ∀ (σ : Type) (m : Machine σ) (x y : Value) (rest : List Value) (u v : Value) (slot : Nat),
      m.memory.resolve .native x = .ok u → m.memory.resolve .native y = .ok v →
      u.kind = .float ∨ v.kind = .float → u.toSingle? = some lo → v.toSingle? = some hi →
      u.kind = .integer ∨ v.kind = .integer ∨ b - a < 2 ^ 128 - 2 ^ 103 →
      m.memory.destination rest.head? = .ok slot →
      ∃ (r : Single) (q : Rat) (generator : Generator), r.toRat? = some q ∧ a ≤ q ∧ q ≤ b ∧
        Machine.draw (x :: y :: rest) m =
          (.ok (), { m with memory := m.memory.put slot (.float r), generator }) := by
  have hrange := nearest_single_lt_iff (sub_nonneg.2 hle)
  refine ⟨fun g => ?_, fun σ m x y rest u v slot hx hy hf hu hv hnear hslot => ?_⟩
  · rw [← hrange]
    refine ⟨fun ⟨q, hq, _⟩ => ?_, fun hfinite => singleBetween_mem hlo hhi hle hfinite g⟩
    by_contra hinfinite
    cases hq.symm.trans (toRat?_singleBetween_eq_none hlo hhi hle hinfinite g)
  · have hlt : b - a < 2 ^ 128 - 2 ^ 103 := by
      rcases hnear with h | h | h
      · exact sub_lt_of_integer hu hv hlo hhi (.inl h)
      · exact sub_lt_of_integer hu hv hlo hhi (.inr h)
      · exact h
    obtain ⟨q, hq, hbounds⟩ := singleBetween_mem hlo hhi hle (hrange.2 hlt) m.generator
    have hdrawn : m.memory.drawn m.generator (x :: y :: rest) =
        .ok (.float (m.generator.singleBetween lo hi).1,
          (m.generator.singleBetween lo hi).2) := by
      simp [Memory.drawn, hx, hy, random_eq_singleBetween hu hv hf]
    exact ⟨_, q, _, hq, hbounds.1, hbounds.2, Machine.draw_of_drawn hdrawn hslot⟩

/-- Bounds whose difference is rounded up. -/
theorem draws_between_rounded_up :
    let m : Machine Unit := ⟨.start [] {}, true, .ofSeed 99, ()⟩
    let lo : Single := .ofRat (-3 / 4)
    let hi : Single := .ofInt 16777215
    lo.toRat? = some (-3 / 4) ∧ hi.toRat? = some 16777215 ∧
      (16777215 : Rat) - -3 / 4 < single.rounded (16777215 - -3 / 4) ∧
      (∃ q, (m.generator.singleBetween lo hi).1.toRat? = some q ∧ -3 / 4 ≤ q ∧ q ≤ 16777215) ∧
      ∃ (r : Single) (q : Rat) (generator : Generator), r.toRat? = some q ∧ -3 / 4 ≤ q ∧
        q ≤ 16777215 ∧ Machine.draw [.float lo, .integer 16777215] m =
          (.ok (), { m with memory := m.memory.put 100 (.float r), generator }) := by
  intro m lo hi
  have hlo : lo.toRat? = some (-3 / 4) := by decide +kernel
  have hhi : hi.toRat? = some 16777215 := by decide +kernel
  have hle : (-3 / 4 : Rat) ≤ 16777215 := by norm_num
  obtain ⟨hbetween, hdraw⟩ := draws_between hlo hhi hle
  refine ⟨hlo, hhi, by decide +kernel, (hbetween m.generator).2 (by norm_num), ?_⟩
  exact hdraw Unit m (.float lo) (.integer 16777215) [] _ _ 100 rfl rfl (.inl rfl) rfl rfl
    (.inr (.inl rfl)) rfl

/-- Between the least and the largest number infinity is drawn. -/
theorem draws_unbounded :
    let lo : Single := .ofRat (-(2 ^ 128 - 2 ^ 104))
    let hi : Single := .ofRat (2 ^ 128 - 2 ^ 104)
    lo.toRat? = some (-(2 ^ 128 - 2 ^ 104)) ∧ hi.toRat? = some (2 ^ 128 - 2 ^ 104) ∧ lo.le hi ∧
      ((ofSeed 1).singleBetween lo hi).1 = .infinite false ∧
      Value.random (.float lo) (.float hi) (.ofSeed 1) =
        .ok (.float (.infinite false), (ofSeed 1).next.2) := by
  decide +kernel

end Generator

end SimpleBatch
