import SimpleBatch.Text.Numeral

/-!
# Moments

A moment of civil time in the Gregorian calendar, and the texts in which
scripts see its date, `Monday, October 19, 2026`, and its time, `3:04:05 PM`.
-/

namespace SimpleBatch

open Text

/-- A moment of civil time. -/
structure Moment where
  year : Int
  /-- From one. -/
  month : Nat
  /-- From one. -/
  day : Nat
  hour : Nat
  minute : Nat
  second : Nat
deriving DecidableEq, Repr

namespace Moment

/-- The names of the days of the week. -/
def dayNames : List String :=
  ["Sunday", "Monday", "Tuesday", "Wednesday", "Thursday", "Friday", "Saturday"]

/-- The names of the months. -/
def monthNames : List String :=
  ["January", "February", "March", "April", "May", "June", "July", "August", "September",
    "October", "November", "December"]

variable (t : Moment)

/-- The day of the week, counted from Sunday. Years are taken to begin in
    March, so that a leap day is the last day of one; then each month moves the
    day of the week by thirteen fifths of a day, rounded. -/
def weekday : Nat :=
  let year := if t.month < 3 then t.year - 1 else t.year
  let leaps := Int.fdiv year 4 - Int.fdiv year 100 + Int.fdiv year 400
  let days := (13 * ((t.month + 9) % 12) + 2) / 5
  (Int.fmod (year + leaps + days + t.day + 2) 7).toNat

/-- A year with at least four digits, and with a sign if it has more or is
    before the first. -/
def yearText : String :=
  let digits := paddedDecimal 4 t.year.natAbs
  if 0 ≤ t.year ∧ t.year ≤ 9999 then String.ofList digits
  else String.ofList ((if t.year < 0 then '-' else '+') :: digits)

/-- The date of a moment. -/
def date : String :=
  dayNames.getD t.weekday "" ++ ", " ++ monthNames.getD (t.month - 1) "" ++ " " ++
    ofNat t.day ++ ", " ++ t.yearText

/-- The time of a moment, on a clock of twelve hours. -/
def time : String :=
  let hour := if t.hour % 12 = 0 then 12 else t.hour % 12
  ofNat hour ++ ":" ++ String.ofList (paddedDecimal 2 t.minute) ++ ":" ++
    String.ofList (paddedDecimal 2 t.second) ++ (if t.hour < 12 then " AM" else " PM")

end Moment

end SimpleBatch
