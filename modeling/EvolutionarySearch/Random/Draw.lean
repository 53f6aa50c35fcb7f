import EvolutionarySearch.Random.Word

/-!
# Draws from a word source

Uniform indices, pairs of distinct indices and numbers of the unit interval. Every draw returns its
value and the source after the words that it read.

## Ranges

A word `x`, one of `words` possible ones, is scaled to the range below `n` by a widening product:
the quotient of `x * n` by `words` is the index, the remainder its fraction. Only when the fraction
is close enough to one for the digits behind it to matter is a second word read, to settle the
carry. So one draw reads one word or two, and a range with a single element still reads one.

`below_lt` says that the carry never leaves the range.
-/

namespace EvolutionarySearch.Random

variable {ω : Type} [WordSource ω]

/-! ## Indices -/

/--
Scales one of `words` possible words to an index below `n`. A second word is read exactly when the
first one's fraction lies within `n` units of the next index.
-/
def scale (words : Nat) (next : ω → Nat × ω) (n : Nat) (w : ω) : Nat × ω :=
  let first := next w
  let index := first.1 * n / words
  let fraction := first.1 * n % words
  if words - n < fraction then
    let second := next first.2
    (if words ≤ fraction + second.1 * n / words then index + 1 else index, second.2)
  else (index, first.2)

omit [WordSource ω] in
/-- A scaled word is an index of the range. -/
theorem scale_lt {words n : Nat} {next : ω → Nat × ω} (hnext : ∀ w, (next w).1 < words)
    (hpos : 0 < n) (w : ω) : (scale words next n w).1 < n := by
  have hx := hnext w
  have hindex : (next w).1 * n / words < n := by
    rw [Nat.div_lt_iff_lt_mul (Nat.lt_of_le_of_lt (Nat.zero_le _) hx), Nat.mul_comm]
    exact Nat.mul_lt_mul_of_pos_left hx hpos
  have hsplit : words * ((next w).1 * n / words) + (next w).1 * n % words
      = (next w).1 * n := Nat.div_add_mod _ _
  unfold scale
  dsimp only
  split
  · next hfrac =>
    split
    · by_cases hlast : (next w).1 * n / words = n - 1
      · exfalso
        rw [hlast] at hsplit
        have hle : (next w).1 * n ≤ (words - 1) * n :=
          Nat.mul_le_mul_right n (Nat.le_sub_one_of_lt hx)
        rw [Nat.sub_mul, Nat.one_mul] at hle
        have hsub : words * (n - 1) = words * n - words := by
          rw [Nat.mul_sub, Nat.mul_one]
        have hge : words ≤ words * n := Nat.le_mul_of_pos_right _ hpos
        omega
      · dsimp only
        omega
    · exact hindex
  · exact hindex

/-- Reads a 32-bit word as a number. -/
def word32 (w : ω) : Nat × ω :=
  ((WordSource.next32 w).1.toNat, (WordSource.next32 w).2)

/-- Reads a 64-bit word as a number. -/
def word64 (w : ω) : Nat × ω :=
  ((WordSource.next64 w).1.toNat, (WordSource.next64 w).2)

theorem word32_lt (w : ω) : (word32 w).1 < UInt32.size := UInt32.toNat_lt_size _

theorem word64_lt (w : ω) : (word64 w).1 < UInt64.size := UInt64.toNat_lt_size _

/-- An index below `n`, for `0 < n < 2 ^ 32`, from 32-bit words. -/
def below32 (n : Nat) (w : ω) : Nat × ω := scale UInt32.size word32 n w

theorem below32_lt {n : Nat} (hpos : 0 < n) (w : ω) : (below32 n w).1 < n :=
  scale_lt word32_lt hpos w

/-- An index below `n`, for `0 < n < 2 ^ 64`, from the narrowest words that can hold the range. -/
def below (n : Nat) (w : ω) : Nat × ω :=
  if n < UInt32.size then below32 n w else scale UInt64.size word64 n w

theorem below_lt {n : Nat} (hpos : 0 < n) (w : ω) : (below n w).1 < n := by
  unfold below
  split
  · exact below32_lt hpos w
  · exact scale_lt word64_lt hpos w

/-! ## Two distinct indices -/

/--
Two distinct indices below `n`, in random order, for `2 ≤ n < 2 ^ 32`. The first is drawn from
all but the last index and the second from all of them; should they meet, the last index, which the
first draw left out, comes in front.
-/
def pair (n : Nat) (w : ω) : (Nat × Nat) × ω :=
  let first := below32 (n - 1) w
  let second := below32 n first.2
  (if second.1 = first.1 then (n - 1, second.1) else (first.1, second.1), second.2)

theorem pair_distinct {n : Nat} (h : 2 ≤ n) (w : ω) : (pair n w).1.1 ≠ (pair n w).1.2 := by
  have hfirst : (below32 (n - 1) w).1 < n - 1 := below32_lt (by omega) w
  unfold pair
  dsimp only
  split <;> omega

theorem pair_lt {n : Nat} (h : 2 ≤ n) (w : ω) :
    (pair n w).1.1 < n ∧ (pair n w).1.2 < n := by
  have hfirst : (below32 (n - 1) w).1 < n - 1 := below32_lt (by omega) w
  have hsecond : (below32 n (below32 (n - 1) w).2).1 < n := below32_lt (by omega) _
  unfold pair
  dsimp only
  split <;> omega

/-! ## The unit interval -/

/-- A multiple of `2 ^ -52` in the half-open unit interval, from the 52 high bits of a word. -/
def unit (w : ω) : Float × ω :=
  (((WordSource.next64 w).1 >>> 12).toFloat * Float.ofBits 0x3CB0000000000000,
    (WordSource.next64 w).2)

end EvolutionarySearch.Random
