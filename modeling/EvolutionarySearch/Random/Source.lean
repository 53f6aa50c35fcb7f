import EvolutionarySearch.Random.Cycle
import EvolutionarySearch.Random.SplitMix
import EvolutionarySearch.Random.Keystream

/-!
# A source chosen at run time

One type for the three kinds of source, for callers that learn only at run time which one to use.
-/

namespace EvolutionarySearch.Random

/-- A source of one of the known kinds. -/
inductive Source where
  /-- A fixed list of words. -/
  | cycle (state : Cycle)
  /-- A mixed counter. -/
  | splitMix (state : SplitMix)
  /-- The stream behind a seed. -/
  | keystream (state : Keystream)

instance : WordSource Source where
  next32
    | .cycle state => let drawn := WordSource.next32 state; (drawn.1, .cycle drawn.2)
    | .splitMix state => let drawn := WordSource.next32 state; (drawn.1, .splitMix drawn.2)
    | .keystream state => let drawn := WordSource.next32 state; (drawn.1, .keystream drawn.2)
  next64
    | .cycle state => let drawn := WordSource.next64 state; (drawn.1, .cycle drawn.2)
    | .splitMix state => let drawn := WordSource.next64 state; (drawn.1, .splitMix drawn.2)
    | .keystream state => let drawn := WordSource.next64 state; (drawn.1, .keystream drawn.2)

end EvolutionarySearch.Random
