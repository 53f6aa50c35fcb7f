import EvolutionarySearch.Random.Word
import EvolutionarySearch.Clock

/-!
# Worlds

The engines thread one state through a run: it supplies the random words, tells the time, and
belongs to the callbacks of the problem, which may change it. `World` builds such a state from a
source of words and whatever surrounds it.
-/

namespace EvolutionarySearch

/-- A source of words in its surroundings. -/
structure World (ρ σ : Type) where
  /-- Where random words come from. -/
  source : ρ
  /-- The clock, and all else that the callbacks of a problem see or change. -/
  surroundings : σ

variable {ρ σ : Type}

instance [WordSource ρ] : WordSource (World ρ σ) where
  next32 w := ((WordSource.next32 w.source).1, { w with source := (WordSource.next32 w.source).2 })
  next64 w := ((WordSource.next64 w.source).1, { w with source := (WordSource.next64 w.source).2 })

instance [Clock σ] : Clock (World ρ σ) where
  now w := Clock.now w.surroundings

end EvolutionarySearch
