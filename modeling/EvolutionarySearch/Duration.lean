import EvolutionarySearch.Decimal

/-!
# Durations

A duration is a whole number of nanoseconds. It is read from fractional seconds by rounding the
exact value of a double to the nearest nanosecond, a half going to the even one, and written in the
largest unit of which it holds at least one.
-/

namespace EvolutionarySearch

/-- A length of time in nanoseconds. -/
abbrev Duration := Nat

namespace Duration

/-- The nanoseconds of one second. -/
def second : Duration := 1000000000

/-- The nanoseconds of one millisecond. -/
def millisecond : Duration := 1000000

/-- The nanoseconds of one microsecond. -/
def microsecond : Duration := 1000

/-- The longest duration: the seconds fit in 64 bits. -/
def longest : Duration := UInt64.size * second - 1

/--
The duration of a number of seconds. What is not a number or is negative gives zero, what is too
large gives the longest duration.
-/
def ofBinary64 : Binary64 → Duration
  | .nan => 0
  | .infinite negative => if negative then 0 else longest
  | .finite negative units =>
    if negative then 0 else min (roundHalfEven (units * second) Binary64.unitsPerOne) longest

/-- The duration of a number of seconds, given as a double. -/
def ofSeconds (seconds : Float) : Duration := ofBinary64 (Binary64.ofFloat seconds)

/-- The text of a duration: an exact decimal number and the unit. -/
def text (d : Duration) : String :=
  if second ≤ d then Decimal.exact 9 d ++ "s"
  else if millisecond ≤ d then Decimal.exact 6 d ++ "ms"
  else if microsecond ≤ d then Decimal.exact 3 d ++ "\u00b5s"
  else toString d ++ "ns"

end Duration

end EvolutionarySearch
