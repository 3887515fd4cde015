import Mathlib.Data.Set.Function
import Mathlib.Data.UInt
import SimpleBatch.Generator

/-!
# The states of a generator

A step adds to a state three times what a shift makes of it. The addition is bit by
bit, and a shift of a sum is the sum of the shifts. So two states that come to the same
sum differ by one that the shift brings back to itself. There is none but zero, as a
shift moves bits out of the state: each of the three additions is injective, and so is
the step. Zero stays zero, and hence all other states are permuted.

A draw of any kind takes one step, or none if it is from an empty range of integers.
However numbers are drawn, the state is thus a number of steps away from the first one.

* `Generator.bijOn_step`: a step permutes the states other than zero;
* `Generator.output_injective`: a state can be told from the number drawn with it;
* `Generator.state_after`: a state after draws, as a number of steps;
* `Generator.never_degenerates`: no draws lead to zero, and none bring two generators
  together.
-/

namespace SimpleBatch.Generator

/-! ## The step -/

/-- Adding to a state what a shift makes of it is injective, if the shift brings no
    state but zero back to itself. -/
theorem injective_xor_shift {shift : UInt64 → UInt64}
    (hxor : ∀ s t, shift (s ^^^ t) = shift s ^^^ shift t) (hzero : ∀ s, shift s = s → s = 0) :
    Function.Injective fun s => s ^^^ shift s := by
  intro s t h
  have hsum : shift (s ^^^ t) ^^^ (s ^^^ t) = 0 := by
    calc shift (s ^^^ t) ^^^ (s ^^^ t) = (s ^^^ shift s) ^^^ (t ^^^ shift t) := by
          rw [hxor]
          ac_rfl
      _ = 0 := UInt64.xor_eq_zero_iff.2 h
  exact UInt64.xor_eq_zero_iff.1 (hzero _ (UInt64.xor_eq_zero_iff.1 hsum))

theorem eq_zero_of_shiftRight_eq {k s : UInt64} (hk : 0 < k.toNat % 64) (h : s >>> k = s) :
    s = 0 := by
  have hnat := congrArg UInt64.toNat h
  rw [UInt64.toNat_shiftRight, Nat.shiftRight_eq_div_pow] at hnat
  by_contra hs
  have hpos : 0 < s.toNat := Nat.pos_of_ne_zero fun h0 => hs (UInt64.toNat.inj h0)
  exact (Nat.div_lt_self hpos (Nat.one_lt_two_pow hk.ne')).ne hnat

theorem eq_zero_of_shiftLeft_eq {s : UInt64} (h : s <<< 25 = s) : s = 0 := by
  have hnat := congrArg UInt64.toNat h
  have hk : (25 : UInt64).toNat % 64 = 25 := rfl
  rw [UInt64.toNat_shiftLeft, hk, Nat.shiftLeft_eq] at hnat
  -- So an odd multiple of the state is a multiple of the modulus.
  have hdvd : 2 ^ 64 ∣ s.toNat * (2 ^ 25 - 1) := by
    rw [Nat.mul_sub, Nat.mul_one]
    refine Nat.dvd_of_mod_eq_zero (Nat.sub_mod_eq_zero_of_mod_eq ?_)
    rw [hnat, Nat.mod_eq_of_lt s.toNat_lt]
  have hcoprime : Nat.Coprime (2 ^ 64) (2 ^ 25 - 1) := by decide
  have hs := Nat.eq_zero_of_dvd_of_lt (hcoprime.dvd_of_dvd_mul_right hdvd) s.toNat_lt
  exact UInt64.toNat.inj hs

theorem step_injective : Function.Injective step := by
  have hright (k : UInt64) (hk : 0 < k.toNat % 64) :
      Function.Injective fun s : UInt64 => s ^^^ (s >>> k) :=
    injective_xor_shift (fun _ _ => UInt64.shiftRight_xor) fun _ => eq_zero_of_shiftRight_eq hk
  have hleft : Function.Injective fun s : UInt64 => s ^^^ (s <<< 25) :=
    injective_xor_shift (fun _ _ => UInt64.shiftLeft_xor) fun _ => eq_zero_of_shiftLeft_eq
  exact (hright 27 (by decide)).comp (hleft.comp (hright 12 (by decide)))

instance : Finite UInt64 := Finite.of_injective _ UInt64.toFin_injective

/-- A step permutes the states other than zero. -/
theorem bijOn_step : Set.BijOn step {0}ᶜ {0}ᶜ := by
  have hzero (s : UInt64) : step s = 0 ↔ s = 0 := step_injective.eq_iff' rfl
  refine ⟨fun s hs => mt (hzero s).1 hs, step_injective.injOn, fun t ht => ?_⟩
  obtain ⟨s, rfl⟩ := Finite.surjective_of_injective step_injective t
  exact ⟨s, mt (hzero s).2 ht, rfl⟩

/-- The factor of a number that is drawn is odd, and so has an inverse. -/
theorem output_mul (s : UInt64) : output s * 0x59071D96D81ECD35 = s := by
  rw [output, UInt64.mul_assoc]
  exact UInt64.mul_one s

theorem output_zero : output 0 = 0 := by decide

theorem output_injective : Function.Injective output :=
  Function.LeftInverse.injective (g := (· * 0x59071D96D81ECD35)) output_mul

/-- Every number but zero is drawn from some state other than zero. -/
theorem exists_next_eq {n : UInt64} (hn : n ≠ 0) : ∃ g : Generator, g.state ≠ 0 ∧ g.next.1 = n := by
  obtain ⟨t, rfl⟩ := Finite.surjective_of_injective output_injective n
  have ht : t ≠ 0 := (output_injective.ne_iff' output_zero).1 hn
  obtain ⟨s, hs, rfl⟩ := bijOn_step.surjOn ht
  exact ⟨⟨s⟩, hs, rfl⟩

/-- The upper 24 bits of a number. -/
theorem toNat_shiftRight_lt (n : UInt64) : (n >>> 40).toNat < 2 ^ 24 := by
  have hk : (40 : UInt64).toNat % 64 = 40 := rfl
  have hlt := n.toNat_lt
  rw [UInt64.toNat_shiftRight, hk, Nat.shiftRight_eq_div_pow]
  omega

/-! ## Draws -/

/-- A kind of draw. -/
inductive Draw where
  /-- A number of 64 bits. -/
  | next
  /-- A floating-point number in `[0, 1)`. -/
  | unit
  /-- An integer in a range. -/
  | integer (lo hi : Int32)
  /-- A floating-point number between two bounds. -/
  | single (lo hi : Single)

/-- The generator after a draw. -/
def Draw.run (g : Generator) : Draw → Generator
  | next => g.next.2
  | unit => g.unit.2
  | integer lo hi => (g.integerBetween lo hi).2
  | single lo hi => (g.singleBetween lo hi).2

/-- The number of steps of a draw. -/
def Draw.steps : Draw → Nat
  | integer lo hi => if hi ≤ lo then 0 else 1
  | _ => 1

/-- The generator after a number of draws. -/
def after (g : Generator) (ds : List Draw) : Generator :=
  ds.foldl Draw.run g

/-- The number of steps of a number of draws. -/
def steps (ds : List Draw) : Nat :=
  (ds.map Draw.steps).sum

theorem Draw.state_run (g : Generator) (d : Draw) : (d.run g).state = step^[d.steps] g.state := by
  cases d with
  | next => rfl
  | unit => rfl
  | integer lo hi =>
    rw [run, integerBetween, steps]
    split <;> rfl
  | single lo hi => rfl

/-- Draws take a number of steps that does not depend on the state. -/
theorem state_after (g : Generator) (ds : List Draw) :
    (g.after ds).state = step^[steps ds] g.state := by
  induction ds generalizing g with
  | nil => rfl
  | cons d ds ih =>
    calc ((d.run g).after ds).state = step^[steps ds] (step^[d.steps] g.state) := by
          rw [ih, d.state_run]
      _ = step^[steps (d :: ds)] g.state := by
          rw [← Function.iterate_add_apply, steps, steps, List.map_cons, List.sum_cons, add_comm]

theorem state_after_ne_zero {g : Generator} (hg : g.state ≠ 0) (ds : List Draw) :
    (g.after ds).state ≠ 0 := by
  rw [state_after]
  exact bijOn_step.mapsTo.iterate _ hg

theorem state_ofSeed_ne_zero (seed : UInt64) : (ofSeed seed).state ≠ 0 := by
  simp [ofSeed, UInt64.or_eq_zero_iff]

theorem next_ne_zero {g : Generator} (hg : g.state ≠ 0) : g.next.1 ≠ 0 := by
  have hstep : step g.state ≠ 0 := bijOn_step.mapsTo hg
  exact (output_injective.ne_iff' output_zero).2 hstep

theorem next_injective : Function.Injective fun g : Generator => g.next.1 := by
  intro g h heq
  have hstate := step_injective (output_injective heq)
  cases g
  cases h
  exact congrArg mk hstate

/-- A generator never degenerates.

    From every seed, whatever is drawn, the state is not zero and neither is the next
    number. A step permutes the states other than zero, and the number drawn tells the
    state it is drawn with. So two generators in different states are in different states
    after as many steps, and the next numbers drawn from them are different. -/
theorem never_degenerates :
    (∀ (seed : UInt64) (ds : List Draw), ((ofSeed seed).after ds).state ≠ 0 ∧
      ((ofSeed seed).after ds).next.1 ≠ 0) ∧
    Set.BijOn step {0}ᶜ {0}ᶜ ∧ Function.Injective output ∧
    (∀ g : Generator, g.next = (output (step g.state), ⟨step g.state⟩)) ∧
    ∀ (g h : Generator) (ds es : List Draw), steps ds = steps es → g ≠ h →
      g.after ds ≠ h.after es ∧ (g.after ds).next.1 ≠ (h.after es).next.1 := by
  refine ⟨fun seed ds => ?_, bijOn_step, output_injective, fun _ => rfl,
    fun g h ds es hsteps hne => ?_⟩
  · have hs := state_after_ne_zero (state_ofSeed_ne_zero seed) ds
    exact ⟨hs, next_ne_zero hs⟩
  · have hafter : g.after ds ≠ h.after es := by
      intro heq
      have hstate := congrArg state heq
      rw [state_after, state_after, hsteps] at hstate
      have hsame := step_injective.iterate _ hstate
      cases g
      cases h
      exact hne (congrArg mk hsame)
    exact ⟨hafter, next_injective.ne hafter⟩

/-- Two generators after two steps each, one of which has also drawn from an empty
    range. -/
theorem never_degenerates_two_steps :
    let ds := [Draw.integer 5 2, .unit, .single (.ofInt 0) (.ofInt 1)]
    let es := [Draw.next, .integer 0 6]
    steps ds = steps es ∧ ofSeed 0 ≠ ofSeed 2 ∧ (ofSeed 0).after ds ≠ (ofSeed 2).after es ∧
      ((ofSeed 0).after ds).next.1 ≠ ((ofSeed 2).after es).next.1 := by
  intro ds es
  have hsteps : steps ds = steps es := by decide
  have hne : ofSeed 0 ≠ ofSeed 2 := by decide
  exact ⟨hsteps, hne, never_degenerates.2.2.2.2 _ _ ds es hsteps hne⟩

end SimpleBatch.Generator
