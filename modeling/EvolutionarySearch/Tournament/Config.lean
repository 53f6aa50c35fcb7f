import EvolutionarySearch.Error
import EvolutionarySearch.Random.Keystream

/-!
# Configuration of a tournament

How many parents breed, for how many generations. The population follows from the number of parents:
a child of every ordered pair of different parents, the parents themselves and one newcomer.
-/

namespace EvolutionarySearch.Tournament

/-- What a tournament is told beside its problem. -/
structure Config where
  /-- The number of members that breed and survive. -/
  numParents : Nat := 10
  maxGenerations : Nat := 100
  /-- Whether the games of a generation are played at the same time. -/
  parallel : Bool := true
  /-- Where the seeded random source starts; without it any seed will do. -/
  seed : Option UInt64 := none
  deriving DecidableEq, Repr

namespace Config

/-- The largest number that a count may reach. -/
def maxCount : Nat := UInt64.size - 1

/-- The size of the population, held down to what can be counted. -/
def populationSize (cfg : Config) : Nat := min (cfg.numParents * cfg.numParents + 1) maxCount

/--
Passes a configuration with at least one parent and one generation whose population can be counted.
-/
def validate (cfg : Config) : Except ConfigError Unit :=
  if cfg.numParents = 0 then .error .zeroParents
  else if cfg.maxGenerations = 0 then .error .zeroGenerations
  else if maxCount < cfg.numParents * cfg.numParents + 1 then
    .error (.populationOverflow cfg.numParents)
  else .ok ()

/-- The seeded source of a configuration; `fresh` is the seed to use when none is set. -/
def source (cfg : Config) (fresh : UInt64) : Random.Keystream :=
  Random.Keystream.ofSeed (cfg.seed.getD fresh)

end Config

end EvolutionarySearch.Tournament
