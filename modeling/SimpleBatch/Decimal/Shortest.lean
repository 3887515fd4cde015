import SimpleBatch.Decimal.Basic

/-!
# The shortest decimal of a magnitude

A finite magnitude is written with the fewest decimal digits that still read
back as that magnitude. The multiples of a power of ten form a *grid*; the
grids are tried from the coarsest on, beginning with the one on which the
number has a single digit. On each, only the two neighbours of the number have
to be tried: if any point of the grid reads back, so does one of them. Of two
that do, the nearer one is taken, and the upper one if both are equally near.

A magnitude has also an exact decimal, since two divides ten. The search ends
there, should no grid give a decimal before.
-/

namespace SimpleBatch

open Text

/-- The exponent `k` with `10 ^ k ≤ q < 10 ^ (k + 1)`, for a positive `q`. -/
def decimalExponent (q : Rat) : Int :=
  let k : Int := (decimal q.num.natAbs).length - (decimal q.den).length
  if q < (10 : Rat) ^ k then k - 1 else k

namespace Format

variable (f : Format) (n : Nat)

/-- The decimal that is equal to a magnitude. -/
def exactDecimal : Decimal :=
  let places := (f.value n).den.log2
  ⟨(f.value n).num.natAbs * Nat.pow 5 places, -places⟩

/-- The neighbour of a magnitude on the grid of the multiples of `10 ^ e` that
    reads back as the magnitude. -/
def neighbour? (e : Int) : Option Decimal :=
  let step := (10 : Rat) ^ e
  let below := (f.value n / step).floor.toNat
  let readsBack (c : Nat) : Bool := f.nearest (c * step) == n
  if readsBack below && (!readsBack (below + 1) ||
      f.value n - below * step < (below + 1 : Nat) * step - f.value n) then some ⟨below, e⟩
  else if readsBack (below + 1) then some ⟨below + 1, e⟩
  else none

/-- The first neighbour that reads back on `grids` grids, from the multiples of
    `10 ^ e` on downwards. -/
def shortestFrom (e : Int) : (grids : Nat) → Decimal
  | 0 => f.exactDecimal n
  | grids + 1 => (f.neighbour? n e).getD (shortestFrom (e - 1) grids)

/-- The decimal of a magnitude with the fewest digits. -/
def shortest : Decimal :=
  if n = 0 then ⟨0, 0⟩
  else f.shortestFrom n (decimalExponent (f.value n)) (f.fractionBits + 2)

end Format

end SimpleBatch
