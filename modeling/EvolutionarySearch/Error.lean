/-!
# Errors

What can be wrong with a configuration, and why a search can fail. A search that runs into its time
limit has not failed: it answers with the best candidate it has.
-/

namespace EvolutionarySearch

/-- What is wrong with a configuration. -/
inductive ConfigError where
  /-- The pool of a search cannot hold a candidate. -/
  | poolSizeZero
  /-- Candidates are to be sampled and would have no genes. -/
  | zeroTargetLength
  /-- A time limit is set and leaves no time. -/
  | zeroTimeLimit
  /-- A tournament without parents. -/
  | zeroParents
  /-- A tournament without generations. -/
  | zeroGenerations
  /-- The population that so many parents need cannot be counted in 64 bits. -/
  | populationOverflow (parents : Nat)
  deriving DecidableEq, Repr

/-- The text of a configuration error. -/
def ConfigError.message : ConfigError → String
  | .poolSizeZero => "pool_size must be at least 1"
  | .zeroTargetLength =>
    "target_length must be at least 1 when genes are sampled from a gene set"
  | .zeroTimeLimit => "time limit must be positive or None"
  | .zeroParents => "num_parents must be at least 1"
  | .zeroGenerations => "max_generations must be at least 1"
  | .populationOverflow parents =>
    "num_parents = " ++ toString parents ++ " makes the population size overflow"

/-- Why a search failed. -/
inductive SearchError where
  /-- It was not started, because of its configuration. -/
  | invalidConfig (cause : ConfigError)
  /-- A candidate was to be sampled from nothing. -/
  | emptyGeneSet
  /-- It ended with neither an optimum nor a timeout. -/
  | exhausted
  /-- A fitness below the best so far was to be recorded as the new best. -/
  | unorderedHistory
  /-- The keys of a tournament cannot be put in order. -/
  | contradictoryKeys
  deriving DecidableEq, Repr

/-- The text of a search error. -/
def SearchError.message : SearchError → String
  | .invalidConfig cause => "invalid configuration: " ++ cause.message
  | .emptyGeneSet => "gene set is empty and no custom creator is defined"
  | .exhausted => "improvement stream ended before reaching the optimal fitness"
  | .unorderedHistory => "historical fitness must be non-decreasing"
  | .contradictoryKeys =>
    "user-provided comparison function does not correctly implement a total order"

/-- The configuration error behind a search error, if there is one. -/
def SearchError.cause? : SearchError → Option ConfigError
  | .invalidConfig cause => some cause
  | _ => none

end EvolutionarySearch
