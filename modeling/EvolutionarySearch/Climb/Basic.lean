import EvolutionarySearch.Error
import EvolutionarySearch.Log

/-!
# Climbs

A climb looks for the best value of one structural number, its feature. What a feature value is
worth is found out by an attempt, usually a whole search, whose result is compared with the best so
far. An attempt can fail, and it brings a log of its own.
-/

namespace EvolutionarySearch

/-- How an attempt has ended, what was logged on the way, and the world it leaves behind. -/
structure Climb.Attempt (ω α : Type) where
  outcome : Except SearchError α
  log : Array Log.Line := #[]
  world : ω

/-- An outer problem over the worlds `ω`. -/
structure Climb.Problem (ω Candidate : Type) where
  /-- Attempts a feature value. -/
  attempt : Nat → ω → Climb.Attempt ω Candidate
  /-- Whether the second candidate is to replace the first. -/
  improves : Candidate → Candidate → Bool
  /-- Whether a candidate ends the climb. -/
  optimal : Candidate → Bool
  /-- The feature value to attempt after a candidate. -/
  nextFeature : Candidate → Nat
  /-- Shows a candidate that has replaced the best, with its feature value. -/
  display : Candidate → Nat → ω → ω := fun _ _ w => w

/-- What a climb is told beside its problem. -/
structure Climb.Config where
  /-- The feature value of the first attempt. -/
  initialFeature : Nat
  /-- The number of attempts after the first; without it the climb goes on to the optimum. -/
  maxRounds : Option Nat := none
  deriving DecidableEq, Repr

/-- The state of a climb. -/
structure Climb (Candidate : Type) where
  best : Candidate
  /-- The feature value of every best, the first included. -/
  features : Array Nat
  /-- The number of attempts after the first. -/
  rounds : Nat

namespace Climb

variable {ω Candidate : Type}

/-- The state after the first attempt. -/
def opening (feature : Nat) (first : Candidate) : Climb Candidate where
  best := first
  features := #[feature]
  rounds := 0

/-- Whether no further round is to be run: the best is optimal or the rounds are used up. -/
def isOver (p : Problem ω Candidate) (cfg : Config) (c : Climb Candidate) : Bool :=
  p.optimal c.best || cfg.maxRounds.any fun limit => limit ≤ c.rounds

end Climb

end EvolutionarySearch
