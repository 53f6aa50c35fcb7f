import EvolutionarySearch.Random.Word

/-!
# SplitMix64

A counter that advances by the golden ratio of `2 ^ 64`, and a mixing function over it. A 32-bit
request is answered with the low half of one word. All arithmetic wraps at 64 bits.
-/

namespace EvolutionarySearch.Random

/-- The state is the counter. -/
structure SplitMix where
  counter : UInt64
  deriving DecidableEq, Repr

/-- Mixes the bits of a counter value. -/
def SplitMix.mix (counter : UInt64) : UInt64 :=
  let once := (counter ^^^ (counter >>> 30)) * 0xBF58476D1CE4E5B9
  let twice := (once ^^^ (once >>> 27)) * 0x94D049BB133111EB
  twice ^^^ (twice >>> 31)

/-- Advances the counter and mixes it. -/
def SplitMix.next (state : SplitMix) : UInt64 × SplitMix :=
  let counter := state.counter + 0x9E3779B97F4A7C15
  (SplitMix.mix counter, ⟨counter⟩)

instance : WordSource SplitMix where
  next32 state := (state.next.1.toUInt32, state.next.2)
  next64 state := state.next

end EvolutionarySearch.Random
