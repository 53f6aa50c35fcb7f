import EvolutionarySearch.Rounding
import EvolutionarySearch.Binary64

/-!
# Decimal text

Numbers with a decimal point: an exact decimal fraction without trailing zeros, and a double rounded
to a fixed number of places.
-/

namespace EvolutionarySearch.Decimal

/-- Ten to the power of a number of places: how many units of the last place make one. -/
def tenTo : Nat → Nat
  | 0 => 1
  | places + 1 => 10 * tenTo places

/-- The decimal digits of a number, with leading zeros up to a given width. -/
def padded (width n : Nat) : List Char :=
  let digits := Nat.toDigits 10 n
  List.replicate (width - digits.length) '0' ++ digits

/-- A list of characters without the zeros at its end. -/
def dropTrailingZeros (digits : List Char) : List Char :=
  (digits.reverse.dropWhile (· == '0')).reverse

/--
The number `n / tenTo places`, written with as many places as it needs and without a point when it
is whole.
-/
def exact (places n : Nat) : String :=
  let fraction := dropTrailingZeros (padded places (n % tenTo places))
  let whole := toString (n / tenTo places)
  if fraction.isEmpty then whole else whole ++ "." ++ String.ofList fraction

/-- The number `n / tenTo places`, written with exactly that many places, at least one. -/
def fixed (places n : Nat) : String :=
  toString (n / tenTo places) ++ "." ++ String.ofList (padded places (n % tenTo places))

/-- A double rounded to a number of places, from its exact value, a half going to the even digit. -/
def ofFloat (places : Nat) (x : Float) : String :=
  match Binary64.ofFloat x with
  | .nan => "NaN"
  | .infinite negative => if negative then "-inf" else "inf"
  | .finite negative units =>
    let magnitude := fixed places (roundHalfEven (units * tenTo places) Binary64.unitsPerOne)
    if negative then "-" ++ magnitude else magnitude

end EvolutionarySearch.Decimal
