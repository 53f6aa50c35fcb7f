import EvolutionarySearch.Tournament.Problem

/-!
# A round of games

In a round every ordered pair of different members of the population plays one game, so any two meet
twice, each moving first once. Both records of a game are updated.

The games can be played in turn or all at the same time, one task for each first player. The list of
games is the same: a task holds the games of its player, and the tasks are read in the order of the
population.
-/

namespace EvolutionarySearch.Tournament

variable {ω α Member Key : Type}

/-! ## Pairs -/

/-- The pairs of an entry with the entries at all other places, in their order. -/
def pairsOf (entries : List (α × Nat)) (first : α × Nat) : List ((α × Nat) × (α × Nat)) :=
  (entries.filter fun second => second.2 != first.2).map fun second => (first, second)

/-- The ordered pairs of entries at different places, by the first place and then by the second. -/
def orderedPairs (entries : List (α × Nat)) : List ((α × Nat) × (α × Nat)) :=
  entries.flatMap (pairsOf entries)

/-! ## Games -/

/-- A member of the population and its record. -/
structure Entrant (Member : Type) where
  member : Member
  record : Record := {}
  deriving DecidableEq, Repr

/-- A game between the members at two places. -/
structure Game where
  first : Nat
  second : Nat
  result : GameResult
  deriving DecidableEq, Repr

/-- Plays the game of a pair. -/
def play (p : Problem ω Member Key) (pair : (Member × Nat) × (Member × Nat)) : Game where
  first := pair.1.2
  second := pair.2.2
  result := p.compete pair.1.1 pair.2.1

/-- The members of a population with their places. -/
def placed (population : Array (Entrant Member)) : List (Member × Nat) :=
  (population.toList.map (·.member)).zipIdx

/-- The games of a round, played in turn. -/
def gamesInTurn (p : Problem ω Member Key) (population : Array (Entrant Member)) : List Game :=
  (orderedPairs (placed population)).map (play p)

/-- The games of a round, those of each first player in a task of their own. -/
def gamesAtOnce (p : Problem ω Member Key) (population : Array (Entrant Member)) : List Game :=
  let members := placed population
  let tasks := members.map fun first =>
    Task.spawn fun _ => (pairsOf members first).map (play p)
  tasks.flatMap Task.get

/-! ## Records -/

/-- Counts a result for an entrant. -/
def Entrant.add (entrant : Entrant Member) (result : GameResult) : Entrant Member :=
  { entrant with record := entrant.record.add result }

/-- Counts a game for both of its members. -/
def recordGame (population : Array (Entrant Member)) (game : Game) : Array (Entrant Member) :=
  (population.modify game.first (·.add game.result)).modify game.second (·.add game.result.mirror)

/-- Counts a list of games. -/
def recordGames (population : Array (Entrant Member)) (games : List Game) :
    Array (Entrant Member) :=
  games.foldl recordGame population

theorem size_recordGames (population : Array (Entrant Member)) (games : List Game) :
    (recordGames population games).size = population.size := by
  unfold recordGames
  induction games generalizing population with
  | nil => rfl
  | cons game games ih =>
    rw [List.foldl_cons, ih]
    simp only [recordGame, Array.size_modify]

/-- Holds a round: the population with its new records, and the number of games. -/
def holdRound (p : Problem ω Member Key) (parallel : Bool) (population : Array (Entrant Member)) :
    Array (Entrant Member) × Nat :=
  let games := if parallel then gamesAtOnce p population else gamesInTurn p population
  (recordGames population games, games.length)

end EvolutionarySearch.Tournament
