import EvolutionarySearch.Random.Draw

/-!
# Shuffling

A permutation is built by exchanging, for `i = 0, 1, …`, the element at `i` with one at a random
index below `i + 1`. The indices of several exchanges are taken from one draw: a number below
`m * (m + 1) * ⋯ * (m + k)` holds, as the digits of a mixed-radix numeral, one index below each
factor. The product is widened as far as 32 bits allow, and the next draw is made only when all
digits have been used. The index below one is always zero and needs no draw.

`shuffle_perm` says that the result is a permutation of the input, whatever the source.
-/

namespace EvolutionarySearch.Random

variable {ω α : Type} [WordSource ω]

/-! ## Packed indices -/

/-- Indices that have been drawn and not yet used. -/
structure IndexDigits where
  /-- The mixed-radix numeral that remains. -/
  numeral : Nat
  /-- The number of its digits. -/
  count : Nat

/-- Before the first exchange: the index below one, which is zero. -/
def IndexDigits.initial : IndexDigits := ⟨0, 1⟩

/--
Multiplies `product` by `factor`, `factor + 1`, … while the product stays below `2 ^ 32`. Returns
the product and the first factor left out. A factor is at least two, so at most 32 of them fit.
-/
def widen : Nat → Nat → Nat → Nat × Nat
  | 0, product, factor => (product, factor)
  | steps + 1, product, factor =>
    if product * factor < UInt32.size then widen steps (product * factor) (factor + 1)
    else (product, factor)

/-- Draws as many indices as fit one draw, the first of them below `m`. -/
def IndexDigits.draw (m : Nat) (w : ω) : IndexDigits × ω :=
  let radix := widen 32 m (m + 1)
  let drawn := below32 radix.1 w
  (⟨drawn.1, radix.2 - m⟩, drawn.2)

/-- Takes an index below `m` off the numeral. The last digit is all that is left of it. -/
def IndexDigits.take (m : Nat) (digits : IndexDigits) : Nat × IndexDigits :=
  if digits.count ≤ 1 then (digits.numeral, ⟨digits.numeral, 0⟩)
  else (digits.numeral % m, ⟨digits.numeral / m, digits.count - 1⟩)

/-- The next index below `m`, drawing anew when all digits have been used. -/
def IndexDigits.next (m : Nat) (digits : IndexDigits) (w : ω) : (Nat × IndexDigits) × ω :=
  if digits.count = 0 then
    let drawn := IndexDigits.draw m w
    (drawn.1.take m, drawn.2)
  else (digits.take m, w)

/-! ## The permutation -/

/-- Exchanges the elements from position `i` on, `steps` of them. -/
def shuffleFrom : Nat → Nat → IndexDigits → Array α → ω → Array α × ω
  | 0, _, _, xs, w => (xs, w)
  | steps + 1, i, digits, xs, w =>
    let drawn := digits.next (i + 1) w
    shuffleFrom steps (i + 1) drawn.1.2 (xs.swapIfInBounds i drawn.1.1) drawn.2

/-- A random permutation of an array. -/
def shuffle (xs : Array α) (w : ω) : Array α × ω :=
  shuffleFrom xs.size 0 IndexDigits.initial xs w

omit [WordSource ω] in
theorem swapIfInBounds_perm (xs : Array α) (i j : Nat) : (xs.swapIfInBounds i j).Perm xs := by
  unfold Array.swapIfInBounds
  split
  · split
    · exact Array.swap_perm _ _
    · exact Array.Perm.refl _
  · exact Array.Perm.refl _

theorem shuffleFrom_perm (steps i : Nat) (digits : IndexDigits) (xs : Array α) (w : ω) :
    (shuffleFrom steps i digits xs w).1.Perm xs := by
  induction steps generalizing i digits xs w with
  | zero => exact Array.Perm.refl _
  | succ steps ih => exact (ih _ _ _ _).trans (swapIfInBounds_perm _ _ _)

/-- A shuffle rearranges and neither loses nor repeats an element. -/
theorem shuffle_perm (xs : Array α) (w : ω) : (shuffle xs w).1.Perm xs :=
  shuffleFrom_perm _ _ _ _ _

end EvolutionarySearch.Random
