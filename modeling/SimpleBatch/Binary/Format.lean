/-!
# Binary floating-point formats

A format has a number of fraction bits and of exponent bits. Its nonnegative
numbers are the *magnitudes*, numbered upwards from zero: magnitude `n` has
the number whose bits, read as a natural number, are `n`. So the order of the
magnitudes is the order of their numbers, consecutive magnitudes are
neighbours, and an even magnitude has an even significand. The magnitude after
the largest finite one is infinity.

* `Format.value` is the rational number of a magnitude;
* `Format.nearest` is the magnitude nearest to a rational number, an even one
  if two are equally near.

Beyond infinity the numbering goes on as if the exponent had no upper end:
`nearest` is only cut off at infinity by those who use it.
-/

namespace SimpleBatch

/-- A binary floating-point format. -/
structure Format where
  /-- The number of bits of the significand after its leading bit. -/
  fractionBits : Nat
  /-- The number of bits of the exponent. -/
  exponentBits : Nat
deriving DecidableEq, Repr

/-- The nearest integer to a rational number, the even one of two that are
    equally near. -/
def roundEven (q : Rat) : Int :=
  let below := q.floor
  let rest := q - below
  if rest < 1 / 2 then below
  else if 1 / 2 < rest then below + 1
  else if below % 2 = 0 then below
  else below + 1

/-- The integer that is left of a rational number without its fraction. -/
def truncated (q : Rat) : Int :=
  q.num.tdiv q.den

/-- The exponent `k` with `2 ^ k ≤ q < 2 ^ (k + 1)`, for a positive `q`. -/
def binaryExponent (q : Rat) : Int :=
  let k : Int := q.num.natAbs.log2 - q.den.log2
  if q < (2 : Rat) ^ k then k - 1 else k

namespace Format

/-- The format of 32 bits. -/
def single : Format := ⟨23, 8⟩

/-- The format of 64 bits. -/
def double : Format := ⟨52, 11⟩

variable (f : Format)

/-- The number of magnitudes between two consecutive powers of two. -/
def binade : Nat := Nat.pow 2 f.fractionBits

/-- The exponent of the least positive magnitude. -/
def minExponent : Int := 2 - Nat.pow 2 (f.exponentBits - 1) - f.fractionBits

/-- The magnitude of infinity, which is the number of finite magnitudes. -/
def infinity : Nat := (Nat.pow 2 f.exponentBits - 1) * f.binade

/-- The number of a magnitude. -/
def value (n : Nat) : Rat :=
  if n < f.binade then n * (2 : Rat) ^ f.minExponent
  else (f.binade + n % f.binade : Nat) * (2 : Rat) ^ (f.minExponent + (n / f.binade - 1 : Nat))

/-- The magnitude nearest to a nonnegative number, the even one of two that
    are equally near. -/
def nearest (q : Rat) : Nat :=
  if q ≤ 0 then 0
  else
    let e := max f.minExponent (binaryExponent q - f.fractionBits)
    ((e - f.minExponent) * f.binade + roundEven (q / (2 : Rat) ^ e)).toNat

end Format

end SimpleBatch
