/-!
# Word sources

All randomness of a run enters as machine words. A word source is a state from which the next
32-bit or 64-bit word can be read; everything else (indices, permutations, numbers of the unit
interval) is computed from words in `Random/Draw.lean` and `Random/Shuffle.lean`, so that a run is a
function of its source and can be repeated word for word.

A source decides itself how the two widths share its stream: a source of 64-bit words may answer a
32-bit request with half a word, a source of 32-bit words may answer a 64-bit request with two.
-/

namespace EvolutionarySearch

/-- A state from which random words are read. Reading returns the word and the state after it. -/
class WordSource (ω : Type) where
  /-- Reads a 32-bit word. -/
  next32 : ω → UInt32 × ω
  /-- Reads a 64-bit word. -/
  next64 : ω → UInt64 × ω

end EvolutionarySearch
