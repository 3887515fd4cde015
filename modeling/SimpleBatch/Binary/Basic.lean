import SimpleBatch.Binary.Format

/-!
# Binary floating-point numbers

A number of a format is a finite magnitude with a sign, an infinity with a
sign, or not a number. Both zeros are numbers of their own, and there is one
`nan`: what distinguishes the bit patterns of a `nan` cannot be observed.

Operations are exact operations on rational numbers followed by one rounding
to the nearest magnitude, with the usual rules for infinities, for `nan` and
for the sign of a zero.
-/

namespace SimpleBatch

/-- A number of a binary floating-point format. -/
inductive Binary (f : Format) where
  /-- Not a number. -/
  | nan
  /-- An infinity. -/
  | infinite (negative : Bool)
  /-- A finite number, by its sign and magnitude. -/
  | finite (negative : Bool) (magnitude : Fin f.infinity)
deriving DecidableEq, Repr

/-- The numbers of 32 bits. -/
abbrev Single := Binary .single

/-- The numbers of 64 bits. -/
abbrev Double := Binary .double

namespace Binary

variable {f : Format}

/-- The number with a sign and a magnitude, infinite from infinity on. -/
def ofMagnitude (negative : Bool) (n : Nat) : Binary f :=
  if h : n < f.infinity then finite negative ⟨n, h⟩ else infinite negative

/-- The number nearest to one of absolute value `|q|`, with a given sign. -/
def round (negative : Bool) (q : Rat) : Binary f :=
  ofMagnitude negative (f.nearest q.abs)

/-- The number nearest to a rational number; a zero is positive. -/
def ofRat (q : Rat) : Binary f :=
  round (q < 0) q

/-- The number nearest to an integer. -/
def ofInt (n : Int) : Binary f :=
  ofRat n

/-- The rational number of a signed magnitude. -/
def signedValue (negative : Bool) (magnitude : Fin f.infinity) : Rat :=
  if negative then -f.value magnitude else f.value magnitude

/-- The rational number that a finite number is. -/
def toRat? : Binary f → Option Rat
  | nan => none
  | infinite _ => none
  | finite negative magnitude => some (signedValue negative magnitude)

/-! ## Bit patterns -/

/-- The number with a bit pattern, given as a natural number. -/
def ofBits (bits : Nat) : Binary f :=
  let sign := Nat.pow 2 (f.exponentBits + f.fractionBits)
  let n := bits % sign
  let negative := bits / sign % 2 == 1
  if f.infinity < n then nan else ofMagnitude negative n

/-- The bit pattern of a number that is no `nan`. -/
def toBits? : Binary f → Option Nat
  | nan => none
  | infinite negative => some (withSign negative f.infinity)
  | finite negative magnitude => some (withSign negative magnitude)
where
  /-- A magnitude with the sign bit before it. -/
  withSign (negative : Bool) (n : Nat) : Nat :=
    if negative then Nat.pow 2 (f.exponentBits + f.fractionBits) + n else n

/-! ## Order -/

/-- The place of a number among all numbers of its format, counted from zero. -/
def place? : Binary f → Option Int
  | nan => none
  | infinite negative => some (if negative then -(f.infinity : Int) else f.infinity)
  | finite negative magnitude =>
    some (if negative then -(magnitude.val : Int) else magnitude.val)

/-- The order of two numbers; a `nan` is not comparable. -/
def compare? (x y : Binary f) : Option Ordering :=
  match x.place?, y.place? with
  | some m, some n => some (compare m n)
  | _, _ => none

/-- Whether a number is less than another. -/
def lt (x y : Binary f) : Bool :=
  x.compare? y == some .lt

/-- Whether a number is less than another or equal to it. -/
def le (x y : Binary f) : Bool :=
  x.compare? y == some .lt || x.compare? y == some .eq

/-- Whether two numbers are equal: the zeros are, a `nan` is not. -/
def eq (x y : Binary f) : Bool :=
  x.compare? y == some .eq

/-- The positive zero. -/
def zero : Binary f :=
  ofMagnitude false 0

/-! ## Arithmetic -/

/-- The number of the other sign. -/
def neg : Binary f → Binary f
  | nan => nan
  | infinite negative => infinite !negative
  | finite negative magnitude => finite (!negative) magnitude

/-- The sum. A zero sum is negative only if both terms are. -/
def add (x y : Binary f) : Binary f :=
  match x, y with
  | nan, _ => nan
  | _, nan => nan
  | infinite a, infinite b => if a = b then infinite a else nan
  | infinite a, finite _ _ => infinite a
  | finite _ _, infinite b => infinite b
  | finite a m, finite b n =>
    let sum := signedValue a m + signedValue b n
    round (if sum = 0 then a && b else sum < 0) sum

/-- The difference. -/
def sub (x y : Binary f) : Binary f :=
  x.add y.neg

/-- The product. -/
def mul (x y : Binary f) : Binary f :=
  match x, y with
  | nan, _ => nan
  | _, nan => nan
  | infinite a, infinite b => infinite (a ^^ b)
  | infinite a, finite b n => if n.val = 0 then nan else infinite (a ^^ b)
  | finite a m, infinite b => if m.val = 0 then nan else infinite (a ^^ b)
  | finite a m, finite b n => round (a ^^ b) (signedValue a m * signedValue b n)

/-- The quotient. -/
def div (x y : Binary f) : Binary f :=
  match x, y with
  | nan, _ => nan
  | _, nan => nan
  | infinite _, infinite _ => nan
  | infinite a, finite b _ => infinite (a ^^ b)
  | finite a _, infinite b => ofMagnitude (a ^^ b) 0
  | finite a m, finite b n =>
    if n.val = 0 then
      if m.val = 0 then nan else infinite (a ^^ b)
    else round (a ^^ b) (signedValue a m / signedValue b n)

/-! ## Conversions -/

/-- The integral number that a rule makes of a number, by taking a rational
    number to an integer. The sign stays, also that of a zero. -/
def integral (rule : Rat → Int) : Binary f → Binary f
  | nan => nan
  | infinite negative => infinite negative
  | finite negative magnitude => round negative (rule (signedValue negative magnitude))

/-- The greatest integral number that is not greater. -/
def floor (x : Binary f) : Binary f :=
  x.integral Rat.floor

/-- The least integral number that is not less. -/
def ceil (x : Binary f) : Binary f :=
  x.integral Rat.ceil

/-- The nearest integral number, the even one of two that are equally near. -/
def nearestIntegral (x : Binary f) : Binary f :=
  x.integral roundEven

/-- The nearest number of another format. -/
def convert (g : Format) : Binary f → Binary g
  | nan => nan
  | infinite negative => infinite negative
  | finite negative magnitude => round negative (signedValue negative magnitude)

/-- The integer of 32 bits that a number is without its fraction: cut off at the
    ends of the range, and zero for a `nan`. -/
def toInt32 : Binary f → Int32
  | nan => 0
  | infinite negative => if negative then Int32.minValue else Int32.maxValue
  | finite negative magnitude => Int32.ofIntClamp (truncated (signedValue negative magnitude))

end Binary

end SimpleBatch
