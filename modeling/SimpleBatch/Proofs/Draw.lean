import SimpleBatch.Proofs.Checked.Operator

/-!
# Random numbers in a range

A random integer in a range is its least integer and the rest that a draw leaves when it
is divided by the number of integers. That number is less than `2 ^ 32`, so nothing on the
way leaves the 64 bits it is computed with, and the sum is again one of 32 bits. Every
integer of the range comes from some draw: the one that is larger by the number of
integers leaves it, and is not zero, which no draw is.

A random number in `[0, 1)` is a draw of 24 bits, divided by `2 ^ 24`. These are as many
bits as a significand has, so neither the draw nor the quotient is rounded.

* `Generator.integerBetween_mem`, `Generator.exists_integerBetween_eq`: the integers that
  are drawn from a range are those in it;
* `Generator.toRat?_unit`: the number in `[0, 1)`, exactly;
* `Machine.draw_of_drawn`: what is drawn is put into the slot of the destination;
* `Generator.draws_in_range`: a script gets numbers in the range it asks for.
-/

namespace SimpleBatch

namespace Generator

/-! ## Integers -/

variable {lo hi : Int32}

theorem integerBetween_of_le (h : hi ≤ lo) (g : Generator) : g.integerBetween lo hi = (lo, g) :=
  if_pos h

theorem integerBetween_of_lt (h : lo < hi) (g : Generator) :
    g.integerBetween lo hi =
      (Int32.ofInt (lo.toInt + (g.next.1.toNat % (hi.toInt - lo.toInt).toNat : Nat)), g.next.2) :=
  if_neg (Int32.not_le.2 h)

/-- What is added to the least integer does not lead out of 32 bits. -/
theorem toInt_ofInt_add_mod (h : lo < hi) (n : Nat) :
    (Int32.ofInt (lo.toInt + (n % (hi.toInt - lo.toInt).toNat : Nat))).toInt =
      lo.toInt + (n % (hi.toInt - lo.toInt).toNat : Nat) ∧
      n % (hi.toInt - lo.toInt).toNat < (hi.toInt - lo.toInt).toNat := by
  rw [Int32.lt_iff_toInt_lt] at h
  have hlo := lo.le_toInt
  have hhi := hi.toInt_lt
  have hmod : n % (hi.toInt - lo.toInt).toNat < (hi.toInt - lo.toInt).toNat :=
    Nat.mod_lt _ (by omega)
  exact ⟨Int32.toInt_ofInt_of_le (by omega) (by omega), hmod⟩

theorem integerBetween_mem (h : lo < hi) (g : Generator) :
    lo ≤ (g.integerBetween lo hi).1 ∧ (g.integerBetween lo hi).1 < hi := by
  obtain ⟨htoInt, hmod⟩ := toInt_ofInt_add_mod h g.next.1.toNat
  rw [integerBetween_of_lt h, Int32.le_iff_toInt_le, Int32.lt_iff_toInt_lt]
  dsimp only
  rw [htoInt]
  omega

/-- Every integer of a range can be drawn. -/
theorem exists_integerBetween_eq {n : Int32} (hlo : lo ≤ n) (hhi : n < hi) :
    ∃ g : Generator, g.state ≠ 0 ∧ (g.integerBetween lo hi).1 = n := by
  have h : lo < hi := Int32.lt_of_le_of_lt hlo hhi
  have hlo' := lo.le_toInt
  have hhi' := hi.toInt_lt
  rw [Int32.le_iff_toInt_le] at hlo
  rw [Int32.lt_iff_toInt_lt] at hhi
  -- The draw that leaves the distance of `n` from the least integer.
  let d := (n.toInt - lo.toInt).toNat + (hi.toInt - lo.toInt).toNat
  have hsize : UInt64.size = 2 ^ 64 := rfl
  have hd : (UInt64.ofNat d).toNat = d := UInt64.toNat_ofNat_of_lt' (by omega)
  have hd0 : UInt64.ofNat d ≠ 0 := by
    intro h0
    have hzero : d = 0 := hd.symm.trans (congrArg UInt64.toNat h0)
    omega
  obtain ⟨g, hg, hnext⟩ := exists_next_eq hd0
  refine ⟨g, hg, Int32.toInt.inj ?_⟩
  rw [integerBetween_of_lt h]
  dsimp only
  rw [(toInt_ofInt_add_mod h _).1, hnext, hd, Nat.add_mod_right, Nat.mod_eq_of_lt (by omega)]
  omega

/-! ## Numbers between zero and one -/

theorem unit_eq (g : Generator) :
    g.unit = ((Binary.ofInt (g.next.1 >>> 40).toNat).div (Binary.ofInt 0x1000000), g.next.2) :=
  rfl

/-- A number in `[0, 1)` is drawn without rounding. -/
theorem toRat?_unit (g : Generator) :
    g.unit.1.toRat? = some (((g.next.1 >>> 40).toNat : Rat) / 2 ^ 24) := by
  have hlt := toNat_shiftRight_lt g.next.1
  obtain ⟨n, hn⟩ : ∃ n, (g.next.1 >>> 40).toNat = n := ⟨_, rfl⟩
  rw [hn] at hlt ⊢
  have hnumber : Format.single.IsNumber ((n : Rat) / 2 ^ 24) := by
    have hscaled := Format.isNumber_mul_zpow (f := .single) (z := n) (e := -24) hlt.le (by decide)
    rwa [zpow_neg, ← div_eq_mul_inv, Int.cast_natCast] at hscaled
  have hfinite : Format.single.nearest |(n : Rat) / 2 ^ 24| < Format.single.infinity := by
    refine Format.single.nearest_lt_infinity (e := 0) ?_ (by decide) (by decide) (by decide)
    rw [abs_of_nonneg (by positivity), zpow_zero, div_le_one (by positivity)]
    exact_mod_cast hlt.le
  have hnumerator : (Binary.ofInt n : Single).toRat? = some (n : Rat) :=
    Binary.toRat?_ofInt_of_le (z := n) hlt.le
  have hdenominator : (Binary.ofInt 0x1000000 : Single).toRat? = some (2 ^ 24) := by
    rw [Binary.toRat?_ofInt_of_le (by decide)]
    norm_num
  have hdiv := Binary.toRat?_div hnumerator hdenominator (by positivity) hfinite
  rw [Format.rounded_eq_self hnumber] at hdiv
  rw [unit_eq, hn]
  exact hdiv

theorem unit_bounds (g : Generator) :
    0 ≤ ((g.next.1 >>> 40).toNat : Rat) / 2 ^ 24 ∧
      ((g.next.1 >>> 40).toNat : Rat) / 2 ^ 24 ≤ 1 - 1 / 2 ^ 24 := by
  have hle : ((g.next.1 >>> 40).toNat : Rat) ≤ 2 ^ 24 - 1 := by
    have hlt := toNat_shiftRight_lt g.next.1
    have hone : ((g.next.1 >>> 40).toNat : Rat) + 1 ≤ 2 ^ 24 := by exact_mod_cast hlt
    linarith
  refine ⟨by positivity, ?_⟩
  calc ((g.next.1 >>> 40).toNat : Rat) / 2 ^ 24 ≤ (2 ^ 24 - 1) / 2 ^ 24 := by gcongr
    _ = 1 - 1 / 2 ^ 24 := by norm_num

end Generator

/-! ## Random numbers of a script -/

/-- What is drawn is put into the slot of the destination. -/
theorem Machine.draw_of_drawn {σ : Type} {m : Machine σ} {args : List Value} {value : Value}
    {generator : Generator} {slot : Nat}
    (hdrawn : m.memory.drawn m.generator args = .ok (value, generator))
    (hslot : m.memory.destination (Memory.drawDestination args) = .ok slot) :
    draw args m = (.ok (), { m with memory := m.memory.put slot value, generator }) := by
  rw [draw_apply, hdrawn]
  simp [assign_apply, Memory.assign_eq, hslot]

namespace Generator

/-- Random numbers are in the range that is asked for.

    An integer of a range that is not empty is drawn in one step, without leaving the
    bits it is computed with, and each of them can be drawn; an empty range gives its
    first bound, without a step. A number in `[0, 1)` is drawn in one step as well, and
    is exactly the upper 24 bits of a draw as a fraction. So in every machine, whatever
    was drawn before, a script gets what it asks for into the slot of its destination. -/
theorem draws_in_range :
    (∀ (g : Generator) (lo hi : Int32), lo < hi →
      ∃ n, g.integerBetween lo hi = (n, g.next.2) ∧ lo ≤ n ∧ n < hi ∧
        Checked.integerBetween lo hi g = some (n, g.next.2)) ∧
    (∀ lo hi n : Int32, lo ≤ n → n < hi →
      ∃ g : Generator, g.state ≠ 0 ∧ (g.integerBetween lo hi).1 = n) ∧
    (∀ (g : Generator) (lo hi : Int32), hi ≤ lo → g.integerBetween lo hi = (lo, g)) ∧
    (∀ g : Generator, ∃ (x : Single) (q : Rat), g.unit = (x, g.next.2) ∧ x.toRat? = some q ∧
      q = (g.next.1 >>> 40).toNat / 2 ^ 24 ∧ 0 ≤ q ∧ q ≤ 1 - 1 / 2 ^ 24) ∧
    (∀ (σ : Type) (m : Machine σ) (a b : Value) (rest : List Value) (lo hi : Int32) (slot : Nat),
      m.memory.resolve .native a = .ok (.integer lo) →
      m.memory.resolve .native b = .ok (.integer hi) →
      m.memory.destination rest.head? = .ok slot →
      ∃ n generator, (lo ≤ n ∧ n < hi ∨ hi ≤ lo ∧ n = lo) ∧
        Machine.draw (a :: b :: rest) m =
          (.ok (), { m with memory := m.memory.put slot (.integer n), generator })) ∧
    ∀ (σ : Type) (m : Machine σ) (args : List Value) (slot : Nat), args.length ≤ 1 →
      m.memory.destination args.head? = .ok slot →
      ∃ (x : Single) (q : Rat) (generator : Generator), x.toRat? = some q ∧ 0 ≤ q ∧ q < 1 ∧
        Machine.draw args m =
          (.ok (), { m with memory := m.memory.put slot (.float x), generator }) := by
  refine ⟨fun g lo hi h => ?_, fun lo hi n => exists_integerBetween_eq,
    fun g lo hi h => integerBetween_of_le h g, fun g => ?_,
    fun σ m a b rest lo hi slot ha hb hslot => ?_, fun σ m args slot hargs hslot => ?_⟩
  · obtain ⟨hlo, hhi⟩ := integerBetween_mem h g
    have hnext : g.integerBetween lo hi = ((g.integerBetween lo hi).1, g.next.2) := by
      rw [integerBetween_of_lt h]
    exact ⟨_, hnext, hlo, hhi, by rw [Checked.integerBetween_eq, ← hnext]⟩
  · exact ⟨_, _, rfl, toRat?_unit g, rfl, unit_bounds g⟩
  · have hdrawn : m.memory.drawn m.generator (a :: b :: rest) =
        .ok (.integer (m.generator.integerBetween lo hi).1,
          (m.generator.integerBetween lo hi).2) := by
      simp [Memory.drawn, ha, hb, Value.random]
    refine ⟨_, _, ?_, Machine.draw_of_drawn hdrawn hslot⟩
    rcases Int32.lt_or_le lo hi with h | h
    · exact .inl (integerBetween_mem h _)
    · exact .inr ⟨h, by rw [integerBetween_of_le h]⟩
  · obtain ⟨hdrawn, hdestination⟩ : m.memory.drawn m.generator args =
          .ok (.float m.generator.unit.1, m.generator.unit.2) ∧
        Memory.drawDestination args = args.head? := by
      rcases args with _ | ⟨c, _ | ⟨d, rest⟩⟩
      · exact ⟨rfl, rfl⟩
      · exact ⟨rfl, rfl⟩
      · simp at hargs
    obtain ⟨hlow, hhigh⟩ := unit_bounds m.generator
    refine ⟨_, _, _, toRat?_unit m.generator, hlow, ?_, Machine.draw_of_drawn hdrawn ?_⟩
    · exact hhigh.trans_lt (by norm_num)
    · rwa [hdestination]

/-- The widest range, and no range. -/
theorem draws_in_range_widest :
    let m : Machine Unit := ⟨.start [] {}, true, .ofSeed 99, ()⟩
    let lo := Int32.minValue
    let hi := Int32.maxValue
    lo < hi ∧ (∃ n, m.generator.integerBetween lo hi = (n, m.generator.next.2) ∧ lo ≤ n ∧ n < hi ∧
        Checked.integerBetween lo hi m.generator = some (n, m.generator.next.2)) ∧
      (∃ g : Generator, g.state ≠ 0 ∧ (g.integerBetween lo hi).1 = -1) ∧
      m.generator.integerBetween hi lo = (hi, m.generator) ∧
      (∃ n generator, (lo ≤ n ∧ n < hi ∨ hi ≤ lo ∧ n = lo) ∧
        Machine.draw [.integer lo, .integer hi, .integer 10] m =
          (.ok (), { m with memory := m.memory.put 10 (.integer n), generator })) ∧
      ∃ (x : Single) (q : Rat) (generator : Generator), x.toRat? = some q ∧ 0 ≤ q ∧ q < 1 ∧
        Machine.draw [] m =
          (.ok (), { m with memory := m.memory.put 100 (.float x), generator }) := by
  intro m lo hi
  obtain ⟨hrange, hexists, hempty, -, hdraw, hunit⟩ := draws_in_range
  have h : lo < hi := by decide
  refine ⟨h, hrange m.generator lo hi h, hexists lo hi (-1) (by decide) (by decide),
    hempty m.generator hi lo (by decide), ?_, ?_⟩
  · exact hdraw Unit m (.integer lo) (.integer hi) [.integer 10] lo hi 10 rfl rfl rfl
  · exact hunit Unit m [] 100 (by decide) rfl

end Generator

end SimpleBatch
