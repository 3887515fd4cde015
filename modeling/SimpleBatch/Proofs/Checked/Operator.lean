import SimpleBatch.Proofs.Checked.Memory
import SimpleBatch.Proofs.Conversion
import SimpleBatch.Proofs.Generator
import SimpleBatch.Proofs.Modulus

/-!
# Operators with checks

What a command computes from its operands, with a check at every access and at every cast
that narrows: one to fewer bits, or from floating point to an integer. A number has to be
kept by such a cast. An integer that becomes floating-point among other such numbers is
widened, and the distance of a shift keeps all of its bits.

Most of these checks pass on all operands: a character and a part are taken out of a text
where they are, a code has less than 32 bits, the arithmetic behind a random integer stays
within 64 bits, and the draw behind a random floating-point number has 24.

Three casts do not keep every number that a command gives them (`Cast`):

* the length of a text is taken modulo `2 ^ 32`;
* a number that is made integral is cut off at the ends of the range of integers;
* a modulus of floating-point numbers is computed with 64 bits, and rounded to 32.

For each of them it is left open whether it is checked: one in `strict` has to keep the
number, and any other goes on with what is left of it. So one statement covers both what
fails if such a cast is checked, and that nothing else does, before or after it.

* `Checked.Misfit`: the operands on which a command gives a cast a number that it does
  not keep, said without the cast;
* `Checked.failsIff_apply`: an operator fails a check just on such operands;
* `Checked.failsIff_operate`: so does a command that applies one to arguments;
* `Checked.passes_drawn`: a random number passes all checks.
-/

namespace SimpleBatch

namespace Checked

/-! ## Checks that may fail -/

/-- A check fails just if a condition holds, and otherwise the computation comes to a
    value. -/
structure FailsIff {α : Type} (bad : Prop) (o : Option α) (a : α) : Prop where
  fails : bad → o = none
  passes : ¬bad → o = some a

namespace FailsIff

variable {α β : Type} {bad bad' : Prop} {o : Option α} {a : α}

theorem of_eq_some (hbad : ¬bad) (h : o = some a) : FailsIff bad o a :=
  ⟨(absurd · hbad), fun _ => h⟩

theorem congr (h : FailsIff bad o a) (hiff : bad' ↔ bad) : FailsIff bad' o a :=
  ⟨fun hbad => h.fails (hiff.1 hbad), fun hbad => h.passes (mt hiff.2 hbad)⟩

/-- What comes after a computation fails its own checks. -/
theorem bind {f : α → Option β} {b : β} (h : FailsIff bad o a) (hf : FailsIff bad' (f a) b) :
    FailsIff (bad ∨ bad') (o.bind f) b where
  fails hbad := by
    by_cases ho : bad
    · rw [h.fails ho, Option.bind_none]
    · rw [h.passes ho, Option.bind_some, hf.fails (hbad.resolve_left ho)]
  passes hbad := by
    obtain ⟨ho, hfa⟩ := not_or.1 hbad
    rw [h.passes ho, Option.bind_some, hf.passes hfa]

theorem bind_some {f : α → Option β} {b : β} (h : FailsIff bad o a) (hf : f a = some b) :
    FailsIff bad (o.bind f) b :=
  (h.bind (.of_eq_some not_false hf)).congr (or_false bad).symm.to_iff

theorem eq_none_iff (h : FailsIff bad o a) : o = none ↔ bad := by
  refine ⟨fun ho => ?_, h.fails⟩
  by_contra hbad
  rw [h.passes hbad] at ho
  cases ho

theorem eq_some_iff (h : FailsIff bad o a) : o = some a ↔ ¬bad := by
  refine ⟨fun ho hbad => ?_, h.passes⟩
  rw [h.fails hbad] at ho
  cases ho

/-- A check, and what comes after it. -/
theorem check {f : α → Checked β} {y : Except Fault β} (h : FailsIff bad o a)
    (hf : Passes (f a) y) : FailsIff bad (Checked.check o >>= f).run y where
  fails hbad := by
    rw [h.fails hbad]
    rfl
  passes hbad := by
    rw [h.passes hbad]
    exact hf

/-- What comes after a computation may pass all checks. -/
theorem bind_passes {x : Checked α} {y : Except Fault α} {f : α → Checked β}
    {g : α → Except Fault β} (h : FailsIff bad x.run y)
    (hf : ∀ a, y = .ok a → Passes (f a) (g a)) : FailsIff bad (x >>= f).run (y >>= g) := by
  rw [run_bind]
  refine h.bind_some ?_
  cases y with
  | ok a => exact hf a rfl
  | error fault => rfl

end FailsIff

/-- A computation may pass all checks, and what comes after it fail one. -/
theorem Passes.bind_failsIff {α β : Type} {bad : α → Prop} {x : Checked α} {y : Except Fault α}
    {f : α → Checked β} {g : α → Except Fault β} (h : Passes x y)
    (hf : ∀ a, FailsIff (bad a) (f a).run (g a)) :
    FailsIff (∃ a, y = .ok a ∧ bad a) (x >>= f).run (y >>= g) := by
  have hx : x.run = some y := h
  rw [run_bind, hx]
  cases y with
  | ok a => exact (hf a).congr (by simp)
  | error fault => exact .of_eq_some (by simp) rfl

/-! ## Casts -/

/-- The casts that do not keep every number they are given. -/
inductive Cast where
  /-- The number of characters of a text, to an integer. -/
  | length
  /-- An integral floating-point number, to an integer. -/
  | integer
  /-- A modulus of 64 bits, to 32 bits. -/
  | modulus
deriving DecidableEq

section Casts

variable (strict : Cast → Bool)

/-- The result of a cast. If the cast is a strict one, the result has to be the number
    that was given. -/
def cast {α : Type} (k : Cast) (kept : Prop) [Decidable kept] (result : α) : Option α :=
  if strict k = true ∧ ¬kept then none else some result

/-- A number of characters as an integer. -/
def countToInt32 (n : Nat) : Option Int32 :=
  cast strict .length ((Int32.ofNat n).toInt = n) (Int32.ofNat n)

/-- An integral floating-point number as an integer. -/
def singleToInt32 (x : Single) : Option Int32 :=
  cast strict .integer (x.toRat? = some (x.toInt32.toInt : Rat)) x.toInt32

/-- A number of 64 bits as one of 32 bits. -/
def doubleToSingle (x : Double) : Option Single :=
  cast strict .modulus ((x.convert .single).convert .double = x) (x.convert .single)

theorem failsIff_cast {α : Type} (k : Cast) (kept : Prop) [Decidable kept] (result : α) :
    FailsIff (strict k = true ∧ ¬kept) (cast strict k kept result) result :=
  ⟨fun h => if_pos h, fun h => if_neg h⟩

theorem failsIff_countToInt32 (n : Nat) :
    FailsIff (strict .length = true ∧ 2 ^ 31 ≤ n) (countToInt32 strict n) (Int32.ofNat n) := by
  refine (failsIff_cast strict _ _ _).congr (and_congr_right fun _ => ?_)
  rw [← Nat.not_lt, not_iff_not]
  refine ⟨Int32.toInt_ofNat_of_lt, fun h => ?_⟩
  have hlt := Int32.toInt_lt (Int32.ofNat n)
  omega

theorem failsIff_singleToInt32 (x : Single) :
    FailsIff (strict .integer = true ∧ ∀ n : Int32, x.toRat? ≠ some (n.toInt : Rat))
      (singleToInt32 strict x) x.toInt32 := by
  refine (failsIff_cast strict _ _ _).congr (and_congr_right fun _ => ?_)
  refine ⟨fun h => h _, fun h n hn => h ?_⟩
  -- An integer in the range is not cut off.
  have hlow := n.le_toInt
  have hhigh := n.toInt_lt
  rw [hn, Value.toInt_toInt32 hn, Value.saturated]
  congr 2
  omega

/-- A number of 32 bits is not changed by going to 64 bits and back. -/
theorem convert_convert (x : Single) : (x.convert .double).convert .single = x := by
  cases x with
  | nan => rfl
  | infinite => rfl
  | finite negative n =>
    have hwide := (Value.toRat?_widen (m := .finite negative n) rfl).1
    obtain ⟨s, k, hk, hvalue⟩ := Binary.eq_finite_of_toRat? hwide
    have hsign : s = negative := by
      rw [Binary.convert, Binary.round, Binary.ofMagnitude] at hk
      split at hk <;> cases hk
      rfl
    rw [hk, Binary.convert, hvalue, hsign]
    exact Binary.round_signedValue negative n

theorem failsIff_doubleToSingle (x : Double) :
    FailsIff (strict .modulus = true ∧ ∀ y : Single, y.convert .double ≠ x)
      (doubleToSingle strict x) (x.convert .single) := by
  refine (failsIff_cast strict _ _ _).congr (and_congr_right fun _ => ?_)
  refine ⟨fun h => h _, fun h y hy => h ?_⟩
  rw [← hy, convert_convert]

end Casts

/-! ## Operators -/

section Operators

open Memory

/-- An integer that has to fit into 64 bits with a sign. -/
def int64? (n : Int) : Option Int :=
  within? (-0x8000000000000000) 0x7FFFFFFFFFFFFFFF n

/-- An integer that has to fit into 64 bits without a sign. -/
def uint64? (n : Int) : Option Int :=
  within? 0 0xFFFFFFFFFFFFFFFF n

/-- A natural number as a floating-point number of 32 bits, which has to be the same
    number. -/
def single? (n : Nat) : Option Single :=
  if (Binary.ofInt n : Single).toRat? = some (n : Rat) then some (.ofInt n) else none

/-- The code of the character at an index. -/
def charAt (a index : Value) : Checked Value :=
  match index with
  | .integer i =>
    let cs := a.render.toList
    match if 0 ≤ i then cs[i.toInt.toNat]? else none with
    | some c => return .integer (.ofInt (← check (int32? c.toNat)))
    | none => throw (.indexOutside i cs.length)
  | _ => throw (.operandKinds .strGet [a.kind, index.kind])

/-- The part of a text with a number of characters from an index on. -/
def substring (a start count : Value) : Checked Value :=
  match start, count with
  | .integer i, .integer n => do
    let cs := a.render.toList
    if 0 ≤ i ∧ 0 ≤ n ∧ i.toInt + n.toInt ≤ cs.length then
      let part ← check (slice? cs i.toInt.toNat (i.toInt.toNat + n.toInt.toNat))
      return .text (String.ofList part)
    else throw (.substringOutside i n cs.length)
  | _, _ => throw (.operandKinds .subStr [start.kind, count.kind])

/-- A floating-point number in `[0, 1)`, of 24 bits. -/
def unit (g : Generator) : Option (Single × Generator) := do
  let numerator ← single? (g.next.1 >>> 40).toNat
  let denominator ← single? 0x1000000
  return (numerator.div denominator, g.next.2)

/-- An integer that is at least `lo` and less than `hi`: the width of the range
    is computed with 64 bits, as is the result before it is cut to 32, and the
    divisor must not be zero. -/
def integerBetween (lo hi : Int32) (g : Generator) : Option (Int32 × Generator) :=
  if hi ≤ lo then some (lo, g)
  else do
    let span ← uint64? (← int64? (hi.toInt - lo.toInt))
    if span = 0 then none
    let offset ← int64? (g.next.1.toNat % span)
    let n ← int32? (← int64? (lo.toInt + offset))
    return (.ofInt n, g.next.2)

/-- A random number between two bounds. -/
def random (a b : Value) (g : Generator) : Checked (Value × Generator) :=
  match a, b with
  | .integer lo, .integer hi => do
    let (n, g) ← check (integerBetween lo hi g)
    return (.integer n, g)
  | _, _ =>
    match a.toSingle?, b.toSingle? with
    | some lo, some hi => do
      let (u, g) ← check (unit g)
      return (.float (lo.add ((hi.sub lo).mul u)), g)
    | _, _ => throw (.operandKinds .random [a.kind, b.kind])

variable (strict : Cast → Bool)

/-- The number of characters. -/
def length (a : Value) : Checked Value :=
  return .integer (← check (countToInt32 strict a.render.length))

/-- The rule of the conversions to an integer. -/
def toInteger (command : Command) (integral : Single → Single) (a : Value) : Checked Value :=
  match a with
  | .integer n => return .integer n
  | .float x => return .integer (← check (singleToInt32 strict (integral x)))
  | .text _ => throw (.operandKinds command [a.kind])

/-- The modulus of floating-point numbers. -/
def modSingle (a b : Single) : Option Single := do
  let x := a.convert .double
  let y := b.convert .double
  let r := x.sub ((x.div y).floor.mul y)
  if Binary.zero.lt y then
    let r ← doubleToSingle strict (if r.lt Binary.zero then r.add y else r)
    return if b.le r then Binary.zero else r
  else if y.lt Binary.zero then
    let r ← doubleToSingle strict (if Binary.zero.lt r then r.add y else r)
    return if r.le b then Binary.zero else r
  else doubleToSingle strict r

/-- The remainder or modulus. -/
def mod (a b : Value) : Checked Value :=
  match a, b with
  | .integer _, .integer _ => ofExcept (a.mod b)
  | _, _ =>
    match a.toSingle?, b.toSingle? with
    | some x, some y => return .float (← check (modSingle strict x y))
    | _, _ => throw (.operandKinds .mod [a.kind, b.kind])

/-- What an operator gives on the list of its operands. The operators that are not named
    here access nothing and narrow nothing. -/
def apply (c : Command) (op : Operator) (operands : List Value) : Checked Value :=
  match c, operands with
  | .strGet, [a, index] => charAt a index
  | .subStr, [a, start, count] => substring a start count
  | .strLen, [a] => length strict a
  | .toInt, [a] => toInteger strict .toInt Binary.floor a
  | .rnd, [a] => toInteger strict .rnd Binary.nearestIntegral a
  | .ceil, [a] => toInteger strict .ceil Binary.ceil a
  | .mod, [a, b] => mod strict a b
  | _, _ => ofExcept (op.addressing.apply operands)

/-- The modulus of floating-point numbers with 64 bits, before it is narrowed. -/
def wideMod (a b : Single) : Double :=
  let x := a.convert .double
  let y := b.convert .double
  let r := x.sub ((x.div y).floor.mul y)
  if Binary.zero.lt y then if r.lt Binary.zero then r.add y else r
  else if y.lt Binary.zero then if Binary.zero.lt r then r.add y else r
  else r

/-- How the conversions to an integer make a number integral. -/
def integral? : Command → Option (Single → Single)
  | .toInt => some Binary.floor
  | .rnd => some Binary.nearestIntegral
  | .ceil => some Binary.ceil
  | _ => none

/-- A command is applied to operands for which a cast does not keep the number that it
    is given. -/
inductive Misfit : Cast → Command → List Value → Prop
  /-- A text has `2 ^ 31` characters or more. -/
  | length {a : Value} : 2 ^ 31 ≤ a.render.length → Misfit .length .strLen [a]
  /-- A number that is made integral is no integer of 32 bits. -/
  | integer {c : Command} {integral : Single → Single} {x : Single} :
    integral? c = some integral → (∀ n : Int32, (integral x).toRat? ≠ some (n.toInt : Rat)) →
    Misfit .integer c [.float x]
  /-- A modulus with 64 bits is no number of 32 bits. -/
  | modulus {a b : Value} {x y : Single} : a.kind = .float ∨ b.kind = .float →
    a.toSingle? = some x → b.toSingle? = some y → (∀ z : Single, z.convert .double ≠ wideMod x y) →
    Misfit .modulus .mod [a, b]

theorem passes_charAt (a index : Value) : Passes (charAt a index) (a.charAt index) := by
  cases index with
  | integer i =>
    simp only [charAt, Value.charAt]
    cases hc : (if 0 ≤ i then a.render.toList[i.toInt.toNat]? else none) with
    | none => exact .throw _
    | some c =>
      have hlt : c.toNat < 0x110000 := by
        rcases c.valid with h | h
        · exact Nat.lt_trans h (by decide)
        · exact h.2
      refine .check (if_pos (by omega) : int32? c.toNat = some (c.toNat : Int)) ?_
      exact .pure _
  | float x => exact .throw _
  | text s => exact .throw _

theorem passes_substring (a start count : Value) :
    Passes (substring a start count) (a.substring start count) := by
  cases start <;> cases count <;> try exact .throw _
  next i n =>
    simp only [substring, Value.substring]
    split
    · next h =>
      rw [Int32.le_iff_toInt_le, Int32.le_iff_toInt_le, Int32.toInt_zero] at h
      refine .check (slice?_add (by omega)) ?_
      exact .pure _
    · exact .throw _

/-- A range of integers with 32 bits has less than `2 ^ 32` of them. -/
theorem integerBetween_eq (lo hi : Int32) (g : Generator) :
    integerBetween lo hi g = some (g.integerBetween lo hi) := by
  unfold integerBetween Generator.integerBetween
  by_cases hle : hi ≤ lo
  · rw [if_pos hle, if_pos hle]
  · rw [if_neg hle, if_neg hle]
    rw [Int32.le_iff_toInt_le] at hle
    have hlo := Int32.le_toInt lo
    have hhi := Int32.toInt_lt hi
    have hpos : 0 < hi.toInt - lo.toInt := by omega
    have hmod := Int.emod_nonneg (g.next.1.toNat : Int) (Int.ne_of_gt hpos)
    have hmod' := Int.emod_lt_of_pos (g.next.1.toNat : Int) hpos
    have hcast : ((g.next.1.toNat % (hi.toInt - lo.toInt).toNat : Nat) : Int) =
        g.next.1.toNat % (hi.toInt - lo.toInt) := by
      rw [Int.natCast_emod, Int.toNat_of_nonneg (Int.le_of_lt hpos)]
    simp only [int64?, uint64?, int32?, within?, Option.bind_eq_bind]
    rw [if_pos (by omega), Option.bind_some, if_pos (by omega), Option.bind_some,
      if_neg (Int.ne_of_gt hpos), if_pos (by omega), Option.bind_some, if_pos (by omega),
      Option.bind_some, if_pos (by omega), Option.bind_some, hcast]
    rfl

/-- As many bits as a significand has are not rounded. -/
theorem single?_eq {n : Nat} (h : n ≤ 2 ^ 24) : single? n = some (.ofInt n) :=
  if_pos (Binary.toRat?_ofInt_of_le (z := n) h)

theorem unit_eq (g : Generator) : unit g = some g.unit := by
  rw [unit, single?_eq (Generator.toNat_shiftRight_lt g.next.1).le,
    single?_eq (n := 0x1000000) (by decide)]
  rfl

theorem passes_random (a b : Value) (g : Generator) :
    Passes (random a b g) (Value.random a b g) := by
  cases a with
  | integer lo =>
    cases b with
    | integer hi => exact .check (integerBetween_eq lo hi g) (.pure _)
    | float hi => exact .check (unit_eq g) (.pure _)
    | text s => exact .throw _
  | float lo =>
    cases b with
    | integer hi => exact .check (unit_eq g) (.pure _)
    | float hi => exact .check (unit_eq g) (.pure _)
    | text s => exact .throw _
  | text s => exact .throw _

theorem failsIff_length (a : Value) :
    FailsIff (strict .length = true ∧ 2 ^ 31 ≤ a.render.length) (length strict a).run
      (.ok a.length) :=
  (failsIff_countToInt32 strict _).check (.pure _)

theorem failsIff_toInteger (command : Command) (integral : Single → Single) (a : Value) :
    FailsIff (strict .integer = true ∧
        ∃ x, a = .float x ∧ ∀ n : Int32, (integral x).toRat? ≠ some (n.toInt : Rat))
      (toInteger strict command integral a).run (a.toInteger command integral) := by
  cases a with
  | integer n => exact .of_eq_some (by simp) rfl
  | float x =>
    refine FailsIff.congr ((failsIff_singleToInt32 strict (integral x)).check (.pure _)) ?_
    simp
  | text s => exact .of_eq_some (by simp) rfl

theorem failsIff_modSingle (x y : Single) :
    FailsIff (strict .modulus = true ∧ ∀ z : Single, z.convert .double ≠ wideMod x y)
      (modSingle strict x y) (Value.modSingle x y) := by
  unfold modSingle Value.modSingle wideMod
  dsimp only
  by_cases hpos : Binary.zero.lt (y.convert .double)
  · rw [if_pos hpos, if_pos hpos, if_pos hpos]
    exact (failsIff_doubleToSingle strict _).bind_some rfl
  · rw [if_neg hpos, if_neg hpos, if_neg hpos]
    by_cases hneg : (y.convert .double).lt Binary.zero
    · rw [if_pos hneg, if_pos hneg, if_pos hneg]
      exact (failsIff_doubleToSingle strict _).bind_some rfl
    · rw [if_neg hneg, if_neg hneg, if_neg hneg]
      exact failsIff_doubleToSingle strict _

theorem failsIff_mod_of_float {a b : Value} {x y : Single} (hx : a.toSingle? = some x)
    (hy : b.toSingle? = some y) (hkind : a.kind = .float ∨ b.kind = .float) :
    FailsIff (strict .modulus = true ∧ Misfit .modulus .mod [a, b])
      (do return .float (← check (modSingle strict x y)) : Checked Value).run (a.mod b) := by
  rw [Value.mod_eq_modSingle hx hy hkind]
  refine FailsIff.congr ((failsIff_modSingle strict x y).check (.pure _))
    (and_congr_right fun _ => ⟨fun hmisfit => ?_, .modulus hkind hx hy⟩)
  cases hmisfit with
  | modulus _ hx' hy' h =>
    cases hx.symm.trans hx'
    cases hy.symm.trans hy'
    exact h

/-- Two integers are not narrowed, and neither is what is no number. -/
theorem failsIff_mod (a b : Value) :
    FailsIff (strict .modulus = true ∧ Misfit .modulus .mod [a, b]) (mod strict a b).run
      (a.mod b) := by
  have hexact {bad : Prop} (h : ∀ x y, (a.kind = .float ∨ b.kind = .float) →
      a.toSingle? = some x → b.toSingle? ≠ some y) :
      ¬(bad ∧ Misfit .modulus .mod [a, b]) := by
    rintro ⟨-, hmisfit⟩
    cases hmisfit with
    | modulus hkind hx hy => exact h _ _ hkind hx hy
  cases a with
  | integer m =>
    cases b with
    | integer n => exact .of_eq_some (hexact (by simp [Value.kind])) (Passes.ofExcept _)
    | float y => exact failsIff_mod_of_float strict rfl rfl (.inr rfl)
    | text s => exact .of_eq_some (hexact (by simp [Value.toSingle?])) rfl
  | float x =>
    cases b with
    | integer n => exact failsIff_mod_of_float strict rfl rfl (.inl rfl)
    | float y => exact failsIff_mod_of_float strict rfl rfl (.inl rfl)
    | text s => exact .of_eq_some (hexact (by simp [Value.toSingle?])) rfl
  | text s => exact .of_eq_some (hexact (by simp [Value.toSingle?])) rfl

variable {strict}

/-- The numbers that a conversion to an integer does not keep. -/
theorem misfit_integral {c : Command} {integral : Single → Single} {a : Value}
    (h : integral? c = some integral) :
    (∃ k, strict k = true ∧ Misfit k c [a]) ↔ strict .integer = true ∧
      ∃ x, a = .float x ∧ ∀ n : Int32, (integral x).toRat? ≠ some (n.toInt : Rat) := by
  constructor
  · rintro ⟨k, hk, hmisfit⟩
    cases hmisfit with
    | length => cases h
    | integer h' hx =>
      cases h.symm.trans h'
      exact ⟨hk, _, rfl, hx⟩
  · rintro ⟨hk, x, rfl, hx⟩
    exact ⟨_, hk, .integer h hx⟩

/-- An operator fails a check just if a strict cast is given a number that it does not
    keep. -/
theorem failsIff_apply {c : Command} {op : Operator} (h : c.action = .operate op)
    (operands : List Value) :
    FailsIff (∃ k, strict k = true ∧ Misfit k c operands) (apply strict c op operands).run
      (op.addressing.apply operands) := by
  unfold apply
  split
  · cases h
    exact .of_eq_some (by rintro ⟨_, -, ⟨⟩⟩) (passes_charAt _ _)
  · cases h
    exact .of_eq_some (by rintro ⟨_, -, ⟨⟩⟩) (passes_substring _ _ _)
  · cases h
    refine (failsIff_length strict _).congr ⟨?_, fun ⟨hk, hlength⟩ => ⟨_, hk, .length hlength⟩⟩
    rintro ⟨k, hk, hmisfit⟩
    cases hmisfit with
    | length hlength => exact ⟨hk, hlength⟩
    | integer h' => cases h'
  · cases h
    exact (failsIff_toInteger strict _ _ _).congr (misfit_integral rfl)
  · cases h
    exact (failsIff_toInteger strict _ _ _).congr (misfit_integral rfl)
  · cases h
    exact (failsIff_toInteger strict _ _ _).congr (misfit_integral rfl)
  · cases h
    refine (failsIff_mod strict _ _).congr ⟨?_, fun ⟨hk, hmisfit⟩ => ⟨_, hk, hmisfit⟩⟩
    rintro ⟨k, hk, hmisfit⟩
    cases hmisfit with
    | modulus hkind hx hy hz => exact ⟨hk, .modulus hkind hx hy hz⟩
  · -- No other command has a cast.
    next hlength hfloor hround hceil hmod =>
    refine .of_eq_some ?_ (Passes.ofExcept _)
    rintro ⟨k, -, hmisfit⟩
    cases hmisfit with
    | length => exact hlength _ rfl rfl
    | integer h' =>
      unfold integral? at h'
      split at h'
      · exact hfloor _ rfl rfl
      · exact hround _ rfl rfl
      · exact hceil _ rfl rfl
      · cases h'
    | modulus => exact hmod _ _ rfl rfl

end Operators

/-! ## Commands -/

section Commands

open Memory

variable (strict : Cast → Bool) (m : Memory)

/-- The memory after an operator has run on arguments. -/
def operate (c : Command) (op : Operator) (args : List Value) : Checked Memory := do
  if args.length < op.addressing.least then throw (.argumentCount args.length)
  let value ← apply strict c op (← operands m op.addressing.modes args)
  assign m value args[op.arity]?

/-- The memory after a declaration with arguments. -/
def declareArgs : List Value → Checked Memory
  | [] => throw (.argumentCount 0)
  | [name] => declare m name.render (.integer 0)
  | value :: name :: _ => do declare m name.render (← resolve m .native value)

/-- A random number between the bounds that arguments give, or in `[0, 1)`, and
    the generator after the draw. -/
def drawn (g : Generator) (args : List Value) : Checked (Value × Generator) :=
  if args.length < 2 then do
    let (x, g) ← check (unit g)
    return (.float x, g)
  else do
    let out ← operands m [.native, .native] args
    random (← check (index? out 0)) (← check (index? out 1)) g

/-- The index of the first label, in order, that is written like the target. -/
def findLabel (target : String) : List (Nat × String) → Checked (Option Nat)
  | [] => return none
  | (i, token) :: rest => do
    let label ← resolve m .composite (← check (ofToken token))
    if label.render = target then return some i else findLabel target rest

/-- A command that applies an operator comes to operands, by the rule of addressing, for
    which a cast does not keep the number that it is given. -/
def Misfits (k : Cast) (c : Command) (args : List Value) : Prop :=
  ∃ a operands, Addressing.ofCommand? c = some a ∧ a.arity ≤ args.length + 1 ∧
    a.least ≤ args.length ∧ a.operands m args = .ok operands ∧ Misfit k c operands

variable {strict m}

theorem ofCommand?_of_operate {c : Command} {op : Operator} (h : c.action = .operate op) :
    Addressing.ofCommand? c = some op.addressing := by
  cases c <;> cases h <;> rfl

/-- A command that applies an operator fails a check just if a strict cast is given a
    number that it does not keep. -/
theorem failsIff_operate (hm : m.names.length ≤ 90) {c : Command} {op : Operator}
    (h : c.action = .operate op) (args : List Value) :
    FailsIff (∃ k, strict k = true ∧ Misfits m k c args) (operate strict m c op args).run
      (op.run m args) := by
  have hmisfits : (∃ k, strict k = true ∧ Misfits m k c args) ↔
      op.addressing.arity ≤ args.length + 1 ∧ op.addressing.least ≤ args.length ∧
        ∃ out, op.addressing.operands m args = .ok out ∧ ∃ k, strict k = true ∧ Misfit k c out := by
    simp only [Misfits, ofCommand?_of_operate h, Option.some.injEq]
    constructor
    · rintro ⟨k, hk, a, out, rfl, harity, hleast, hout, hmisfit⟩
      exact ⟨harity, hleast, out, hout, k, hk, hmisfit⟩
    · rintro ⟨harity, hleast, out, hout, k, hk, hmisfit⟩
      exact ⟨k, hk, _, out, rfl, harity, hleast, hout, hmisfit⟩
  rw [Operator.run, Operator.eval_eq, operate]
  by_cases hleast : args.length < op.addressing.least
  · rw [if_pos hleast, if_pos (.inr hleast)]
    exact .of_eq_some (by rw [hmisfits]; omega) (Passes.throw _)
  · have hif : (if args.length + 1 < op.addressing.arity ∨ args.length < op.addressing.least then
        .error (.argumentCount args.length)
        else op.addressing.operands m args >>= op.addressing.apply) =
        (if args.length + 1 < op.addressing.arity then .error (.argumentCount args.length)
          else op.addressing.operands m args) >>= op.addressing.apply := by
      by_cases hfew : args.length + 1 < op.addressing.arity <;> simp [hfew, hleast]
    rw [if_neg hleast, hif, bind_assoc]
    refine ((passes_operands hm op.addressing args).bind_failsIff fun out =>
      (failsIff_apply h out).bind_passes fun v _ => passes_assign hm v _).congr ?_
    rw [hmisfits]
    by_cases hfew : args.length + 1 < op.addressing.arity
    · simp [hfew]
    · simp [hfew, Nat.not_lt.1 hfew, Nat.not_lt.1 hleast]

theorem passes_declareArgs (hm : m.names.length ≤ 90) (args : List Value) :
    Passes (declareArgs m args) (m.declareArgs args) := by
  match args with
  | [] => exact .throw _
  | [name] => exact passes_declare m _ _
  | value :: name :: _ =>
    exact (passes_resolve hm .native value).bind fun v _ => passes_declare m _ v

theorem passes_drawn (hm : m.names.length ≤ 90) (g : Generator) (args : List Value) :
    Passes (drawn m g args) (m.drawn g args) := by
  rcases args with _ | ⟨a, _ | ⟨b, rest⟩⟩
  · exact .check (unit_eq g) (.pure _)
  · exact .check (unit_eq g) (.pure _)
  · let two : Addressing := ⟨0, [.native, .native], Addressing.onOne .ok⟩
    have htwo : two.arity ≤ (a :: b :: rest).length := by simp [two, Addressing.arity]
    have hops : two.operands m (a :: b :: rest) = do
        let lo ← m.resolve .native a
        let hi ← m.resolve .native b
        return [lo, hi] := by
      rw [Addressing.operands_of_le two m _ htwo]
      simp [two, Addressing.arity]
    have hdrawn : m.drawn g (a :: b :: rest) = two.operands m (a :: b :: rest) >>= fun out =>
        Value.random (out.getD 0 (.integer 0)) (out.getD 1 (.integer 0)) g := by
      rw [hops, bind_assoc]
      simp only [bind_assoc, pure_bind]
      rfl
    have hpasses := passes_operands hm two (a :: b :: rest)
    rw [if_neg (by omega)] at hpasses
    rw [hdrawn, drawn, if_neg (by simp)]
    refine hpasses.bind fun out hout => ?_
    rw [hops] at hout
    obtain ⟨lo, -, hout⟩ := Fault.bind_eq_ok.1 hout
    obtain ⟨hi, -, hout⟩ := Fault.bind_eq_ok.1 hout
    cases hout
    exact .check rfl (.check rfl (passes_random lo hi g))

theorem passes_findLabel (hm : m.names.length ≤ 90) (target : String)
    (labels : List (Nat × String)) :
    Passes (findLabel m target labels) (m.findLabel target labels) := by
  induction labels with
  | nil => exact .pure _
  | cons l rest ih =>
    refine .check (ofToken_eq l.2) ((passes_resolve hm .composite _).bind fun label _ => ?_)
    split
    · exact .pure _
    · exact ih

end Commands

end Checked

end SimpleBatch
