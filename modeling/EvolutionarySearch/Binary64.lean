/-!
# The exact value of a double

Every finite double is an integer multiple of `2 ^ -1074`, the smallest positive one. Counted in
that unit its value is a natural number with a sign, so that sums, comparisons and roundings of
doubles can be done exactly on natural numbers.
-/

namespace EvolutionarySearch

/-- What a bit pattern of a double stands for. -/
inductive Binary64 where
  /-- Not a number. -/
  | nan
  /-- An infinity. -/
  | infinite (negative : Bool)
  /-- The number `± units * 2 ^ -1074`. -/
  | finite (negative : Bool) (units : Nat)
  deriving DecidableEq, Repr

namespace Binary64

/-- The number of smallest positive doubles in one. -/
def unitsPerOne : Nat := 1 <<< 1074

/-- The number of fractions that a double can have, `2 ^ 52`. -/
def fractions : Nat := 0x10000000000000

/-- Reads the sign bit, the eleven bits of the exponent and the 52 bits of the fraction. -/
def ofBits (bits : UInt64) : Binary64 :=
  let negative := bits.toNat / 0x8000000000000000 == 1
  let exponent := bits.toNat / fractions % 2048
  let fraction := bits.toNat % fractions
  if exponent = 2047 then
    if fraction = 0 then infinite negative else nan
  else if exponent = 0 then finite negative fraction
  else finite negative ((fractions + fraction) <<< (exponent - 1))

/-- The exact value of a double. -/
def ofFloat (x : Float) : Binary64 := ofBits x.toBits

end Binary64

end EvolutionarySearch
