import EvolutionarySearch.Error
import EvolutionarySearch.Duration
import EvolutionarySearch.Random.Keystream

/-!
# Configuration of a search

Field by field what a search is told beside its problem, and the test that has to pass before one is
started.
-/

namespace EvolutionarySearch.Search

/-- What a search is told beside its problem. -/
structure Config where
  /-- The number of genes of a sampled candidate. -/
  targetLength : Nat := 0
  /-- The number of parents that are searched in turn. -/
  poolSize : Nat := 1
  /-- The age at which a parent may give way to a worse child; without it none ever does. -/
  maxAge : Option Nat := none
  /-- The time after which no new candidate is begun. -/
  timeLimit : Option Duration := none
  /-- Where the seeded random source starts; without it any seed will do. -/
  seed : Option UInt64 := none
  deriving DecidableEq, Repr

namespace Config

/-- The default configuration with sampled candidates of a given length. -/
def ofLength (length : Nat) : Config := { targetLength := length }

/-- Sets the time limit in seconds, as `Duration.ofSeconds` reads them. -/
def limitSeconds (cfg : Config) (seconds : Float) : Config :=
  { cfg with timeLimit := some (Duration.ofSeconds seconds) }

/-- Sets the time limit in milliseconds. -/
def limitMilliseconds (cfg : Config) (milliseconds : Nat) : Config :=
  { cfg with timeLimit := some (milliseconds * Duration.millisecond) }

/-- Passes a configuration whose pool holds a candidate and whose time limit leaves time. -/
def validate (cfg : Config) : Except ConfigError Unit :=
  if cfg.poolSize = 0 then .error .poolSizeZero
  else if cfg.timeLimit = some 0 then .error .zeroTimeLimit
  else .ok ()

/-- The seeded source of a configuration; `fresh` is the seed to use when none is set. -/
def source (cfg : Config) (fresh : UInt64) : Random.Keystream :=
  Random.Keystream.ofSeed (cfg.seed.getD fresh)

end Config

end EvolutionarySearch.Search
