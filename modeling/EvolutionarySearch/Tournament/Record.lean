/-!
# Game results and records

The result of a game from the side of its first player, and the tally of the results of one member.
-/

namespace EvolutionarySearch.Tournament

/-- The result of a game for its first player. -/
inductive GameResult where
  | win
  | tie
  | loss
  deriving DecidableEq, Repr

/-- The same result for the other player. -/
def GameResult.mirror : GameResult → GameResult
  | .win => .loss
  | .tie => .tie
  | .loss => .win

/-- A tally of results. -/
structure Record where
  wins : Nat := 0
  ties : Nat := 0
  losses : Nat := 0
  deriving DecidableEq, Repr

namespace Record

/-- Counts a result. -/
def add (record : Record) : GameResult → Record
  | .win => { record with wins := record.wins + 1 }
  | .tie => { record with ties := record.ties + 1 }
  | .loss => { record with losses := record.losses + 1 }

/-- The number of results counted. -/
def total (record : Record) : Nat := record.wins + record.ties + record.losses

end Record

end EvolutionarySearch.Tournament
