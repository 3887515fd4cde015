import SimpleBatch.Binary.Basic

/-!
# The random generator

A generator of the kind *xorshift* with 64 bits of state: each draw shifts the
state three times and adds each shift to it bit by bit, and returns the new
state times an odd constant. The state starts from a seed, and is never zero,
since the zero state would return itself forever.

From a draw come the three kinds of numbers that scripts ask for: a
floating-point number in `[0, 1)`, an integer in a range, and a floating-point
number between two bounds.
-/

namespace SimpleBatch

/-- A random generator, by its state. -/
structure Generator where
  state : UInt64
deriving DecidableEq, Repr

namespace Generator

/-- The generator of a seed. -/
def ofSeed (seed : UInt64) : Generator :=
  ⟨(seed ^^^ 0x9E3779B97F4A7C15) ||| 1⟩

/-- The state after a state. -/
def step (s : UInt64) : UInt64 :=
  let s := s ^^^ (s >>> 12)
  let s := s ^^^ (s <<< 25)
  s ^^^ (s >>> 27)

/-- The number that is drawn when a state is reached. -/
def output (s : UInt64) : UInt64 :=
  s * 0x2545F4914F6CDD1D

/-- A draw, and the generator after it. -/
def next (g : Generator) : UInt64 × Generator :=
  (output (step g.state), ⟨step g.state⟩)

/-- A floating-point number in `[0, 1)`, from the upper 24 bits of a draw. -/
def unit (g : Generator) : Single × Generator :=
  let (n, g) := g.next
  ((Binary.ofInt (n >>> 40).toNat).div (Binary.ofInt 0x1000000), g)

/-- An integer that is at least `lo` and less than `hi`. An empty range gives
    `lo`, without a draw. -/
def integerBetween (lo hi : Int32) (g : Generator) : Int32 × Generator :=
  if hi ≤ lo then (lo, g)
  else
    let span := (hi.toInt - lo.toInt).toNat
    let (n, g) := g.next
    (Int32.ofInt (lo.toInt + (n.toNat % span : Nat)), g)

/-- A floating-point number between `lo` and `hi`. -/
def singleBetween (lo hi : Single) (g : Generator) : Single × Generator :=
  let (u, g) := g.unit
  (lo.add ((hi.sub lo).mul u), g)

end Generator

end SimpleBatch
