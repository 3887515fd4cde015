/-!
# Repetition of a text

A text written several times in a row. The repetition is built by doubling, so
that a large number of repetitions takes few steps.
-/

namespace SimpleBatch.Text

/-- A text written `n` times in a row. -/
def repeated (s : String) (n : Nat) : String :=
  if n = 0 then ""
  else
    let half := repeated s (n / 2)
    if n % 2 = 0 then half ++ half else half ++ half ++ s
termination_by n

end SimpleBatch.Text
